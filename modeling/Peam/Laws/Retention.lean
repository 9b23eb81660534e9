import Peam.Laws.Durable

/-!
# What a prune keeps

A prune keeps a blob when a slot row from the cut on names its root, or when the root is pinned or
pending (`KeepsBlock`, `KeepsState`), and it rebuilds the lookup of state roots from the blocks of
the states it keeps (`Names`). So what a read returns afterwards is read off the store before
(`getBlock_prune`, `getState_prune_iff`).

An ancestor of the head may have lost its row to a block of the same slot, and a state root may have
been entered for a block that names another one. `Covered` says that neither has happened, and it is
exactly what a prune needs to lose nothing, in whatever order the lookup is rebuilt.
-/

namespace Peam

open Forests (Climbs)

namespace FileStore

variable {store : FileStore} {order : SetOrder} {cut : Nat} {root : Bytes32} {index : SlotIndex}

/-! ## The roots a prune keeps -/

/-- The root is pinned, pending, or named by a row from the cut on. -/
def Keeps (store : FileStore) (cut : Nat) (index : SlotIndex) (root : Bytes32) : Prop :=
  root ∈ store.pinnedRoots ∨ root ∈ store.pendingBlocks.roots ∨
    ∃ slot, cut ≤ slot ∧ index.lookup slot = some root

/-- The block and signed-block blobs under the root stay. -/
def KeepsBlock (store : FileStore) (cut : Nat) (root : Bytes32) : Prop :=
  store.Keeps cut store.blockBySlot root

/-- The state blob under the root stays. -/
def KeepsState (store : FileStore) (cut : Nat) (root : Bytes32) : Prop :=
  store.Keeps cut store.stateBySlot root

private theorem mem_roots_retain {keep : Nat → Bytes32 → Bool} : root ∈ (index.retain keep).roots ↔
      ∃ slot, index.lookup slot = some root ∧ keep slot root = true := by
  simp only [SlotIndex.roots, SlotIndex.retain, List.mem_map, List.mem_filter]
  constructor
  · rintro ⟨⟨slot, named⟩, ⟨hrow, hkeep⟩, rfl⟩
    exact ⟨slot, AList.mem_lookup_iff.mpr hrow, hkeep⟩
  · rintro ⟨slot, hrow, hkeep⟩
    exact ⟨⟨slot, root⟩, ⟨AList.mem_lookup_iff.mp hrow, hkeep⟩, rfl⟩

private theorem mem_kept_iff :
    root ∈ (index.retain (store.keepsRow cut)).roots ∨ root ∈ store.pinnedRoots ∨
        root ∈ store.pendingBlocks.roots ↔
      store.Keeps cut index root := by
  unfold Keeps
  rw [mem_roots_retain]
  simp only [keepsRow, Bool.or_eq_true, decide_eq_true_iff]
  constructor
  · rintro (⟨slot, hrow, hcut | hpinned⟩ | hpinned | hpending)
    · exact .inr (.inr ⟨slot, hcut, hrow⟩)
    · exact .inl hpinned
    · exact .inl hpinned
    · exact .inr (.inl hpending)
  · rintro (hpinned | hpending | ⟨slot, hcut, hrow⟩)
    · exact .inr (.inl hpinned)
    · exact .inr (.inr hpending)
    · exact .inl ⟨slot, hrow, .inl hcut⟩

/-- The store with its rows cut, before the lookup is rebuilt. -/
def rowsCut (store : FileStore) (cut : Nat) : FileStore :=
  { store with
    stateBySlot := store.stateBySlot.retain (store.keepsRow cut)
    blockBySlot := store.blockBySlot.retain (store.keepsRow cut) }

private theorem withRowsPruned_memory (order : SetOrder) (store : FileStore) (cut : Nat) :
    (store.withRowsPruned order cut).stateBySlot = (store.rowsCut cut).stateBySlot ∧
      (store.withRowsPruned order cut).blockBySlot = (store.rowsCut cut).blockBySlot ∧
      (store.withRowsPruned order cut).stateRootToBlockRoot =
        (store.rowsCut cut).rebuildLiveStateRootIndex order ∧
      (store.withRowsPruned order cut).pendingBlocks = store.pendingBlocks ∧
      (store.withRowsPruned order cut).live = store.live :=
  flushCanonical_memory
    { store.rowsCut cut with
      stateRootToBlockRoot := (store.rowsCut cut).rebuildLiveStateRootIndex order
      indexDirty := true }

private theorem sameBlobs_withRowsPruned (order : SetOrder) (store : FileStore) (cut : Nat) :
    SameBlobs store (store.withRowsPruned order cut) := by
  have flushed := sameBlobs_flushCanonical
    { store.rowsCut cut with
      stateRootToBlockRoot := (store.rowsCut cut).rebuildLiveStateRootIndex order
      indexDirty := true }
  exact ⟨flushed.states, flushed.blocks, flushed.signed⟩

private theorem mem_keepBlockRoots :
    root ∈ (store.withRowsPruned order cut).keepBlockRoots ↔ store.KeepsBlock cut root := by
  obtain ⟨-, hblocks, -, hpending, hlive⟩ := withRowsPruned_memory order store cut
  unfold keepBlockRoots pinnedRoots
  rw [List.mem_append, List.mem_append, or_assoc, hblocks, hpending, hlive]
  exact mem_kept_iff

private theorem mem_keepStateBlockRoots :
    root ∈ (store.withRowsPruned order cut).keepStateBlockRoots ↔ store.KeepsState cut root := by
  obtain ⟨hstates, -, -, hpending, hlive⟩ := withRowsPruned_memory order store cut
  unfold keepStateBlockRoots pinnedRoots
  rw [List.mem_append, List.mem_append, or_assoc, hstates, hpending, hlive]
  exact mem_kept_iff

/-! ## The blobs -/

private theorem lookup_collected {β : Type} {map : RapidHashMap β} {kept : List Bytes32} {P : Prop}
    (mem : root ∈ kept ↔ P) :
    (P → (map.retain (· ∈ kept)).lookup root = map.lookup root) ∧
      (¬ P → (map.retain (· ∈ kept)).lookup root = none) := by
  rw [RapidHashMap.lookup_retain]
  constructor
  · intro h
    exact if_pos (decide_eq_true (mem.mpr h))
  · intro h
    exact if_neg fun hkept => h (mem.mp (of_decide_eq_true hkept))

section Blobs

variable (order : SetOrder) (store : FileStore) (finalizedSlot keepRecentSlots : Nat)
  (root : Bytes32)

private theorem getBlock_prune :
    (store.KeepsBlock (finalizedSlot - keepRecentSlots) root →
      (store.prune order finalizedSlot keepRecentSlots).1.getBlock root = store.getBlock root) ∧
    (¬ store.KeepsBlock (finalizedSlot - keepRecentSlots) root →
      (store.prune order finalizedSlot keepRecentSlots).1.getBlock root = none) := by
  have collected := @lookup_collected root _
    (store.withRowsPruned order (finalizedSlot - keepRecentSlots)).canonicalDb.blockBlobs _ _
    (@mem_keepBlockRoots store order (finalizedSlot - keepRecentSlots) root)
  rwa [(sameBlobs_withRowsPruned order store _).blocks] at collected

private theorem signedRow_prune (keeps : store.KeepsBlock (finalizedSlot - keepRecentSlots) root) :
    (store.prune order finalizedSlot keepRecentSlots).1.signedRow root =
      store.signedRow root := by
  have collected := @lookup_collected root _
    (store.withRowsPruned order (finalizedSlot - keepRecentSlots)).canonicalDb.signedBlobs _ _
    (@mem_keepBlockRoots store order (finalizedSlot - keepRecentSlots) root)
  rw [(sameBlobs_withRowsPruned order store _).signed] at collected
  exact collected.1 keeps

private theorem loadState_prune :
    (store.KeepsState (finalizedSlot - keepRecentSlots) root →
      (store.prune order finalizedSlot keepRecentSlots).1.loadStateByBlockRoot root =
        store.loadStateByBlockRoot root) ∧
    (¬ store.KeepsState (finalizedSlot - keepRecentSlots) root →
      (store.prune order finalizedSlot keepRecentSlots).1.loadStateByBlockRoot root = none) := by
  have collected := @lookup_collected root _
    (store.withRowsPruned order (finalizedSlot - keepRecentSlots)).canonicalDb.stateBlobs _ _
    (@mem_keepStateBlockRoots store order (finalizedSlot - keepRecentSlots) root)
  rwa [(sameBlobs_withRowsPruned order store _).states] at collected

end Blobs

/-! ## The lookup of state roots -/

/-- The key under which the rebuild enters a root. -/
def stateKey (store : FileStore) (root : Bytes32) : Option Bytes32 :=
  match store.getBlock root with
  | some block => some block.stateRoot
  | none => if (store.loadStateByBlockRoot root).isSome then some root else none

/-- The rebuild enters the kept root under this key. -/
def Names (store : FileStore) (cut : Nat) (id root : Bytes32) : Prop :=
  store.KeepsState cut root ∧ store.stateKey root = some id

private theorem lookup_indexLiveRoot (index : RapidHashMap Bytes32) (id : Bytes32) :
    (store.indexLiveRoot index root).lookup id =
      if store.stateKey root = some id then some root else index.lookup id := by
  have inserted (key : Bytes32) : (index.insert key root).lookup id =
      if some key = some id then some root else index.lookup id := by
    rw [lookup_insert_eq]
    exact if_congr (by rw [Option.some_inj, eq_comm]) rfl rfl
  cases hblock : store.getBlock root with
  | some block =>
    simp only [indexLiveRoot, stateKey, hblock]
    exact inserted block.stateRoot
  | none =>
    simp only [indexLiveRoot, stateKey, hblock]
    split
    · exact inserted root
    · simp

private theorem lookup_foldl_indexLiveRoot (roots : List Bytes32) (id : Bytes32) :
    ((∃ x ∈ roots, store.stateKey x = some id) →
      ∃ x ∈ roots, store.stateKey x = some id ∧
        (roots.foldl store.indexLiveRoot ∅).lookup id = some x) ∧
    ((∀ x ∈ roots, store.stateKey x ≠ some id) →
      (roots.foldl store.indexLiveRoot ∅).lookup id = none) := by
  induction roots using List.reverseRecOn with
  | nil => exact ⟨fun ⟨x, hx, _⟩ => absurd hx List.not_mem_nil, fun _ => AList.lookup_empty _⟩
  | append_singleton roots last ih =>
    rw [List.foldl_append, List.foldl_cons, List.foldl_nil, lookup_indexLiveRoot]
    by_cases hlast : store.stateKey last = some id
    · rw [if_pos hlast]
      refine ⟨fun _ => ⟨last, by simp, hlast, rfl⟩, fun none => ?_⟩
      exact absurd hlast (none last (by simp))
    · rw [if_neg hlast]
      refine ⟨?_, fun none => ih.2 fun x hx => none x (List.mem_append_left _ hx)⟩
      rintro ⟨x, hx, hkey⟩
      rcases List.mem_append.mp hx with hx | hx
      · obtain ⟨y, hy, hfound⟩ := ih.1 ⟨x, hx, hkey⟩
        exact ⟨y, List.mem_append_left _ hy, hfound⟩
      · cases List.mem_singleton.mp hx
        exact absurd hkey hlast

private theorem mem_liveBlockRoots_rowsCut :
    root ∈ (store.rowsCut cut).liveBlockRoots ↔ store.KeepsState cut root := by
  unfold liveBlockRoots
  rw [List.mem_append, List.mem_append]
  exact (or_assoc.trans (or_congr_right or_comm)).trans mem_kept_iff

section Lookup

variable {id : Bytes32}

private theorem lookup_rebuild_named (order : SetOrder) (named : ∃ x, store.Names cut id x) :
    ∃ x, store.Names cut id x ∧
      ((store.rowsCut cut).rebuildLiveStateRootIndex order).lookup id = some x := by
  obtain ⟨x, hkeeps, hkey⟩ := named
  have hx : x ∈ order.enumerate (store.rowsCut cut).liveBlockRoots :=
    order.mem_enumerate.mpr (mem_liveBlockRoots_rowsCut.mpr hkeeps)
  obtain ⟨y, hy, hkey', hfound⟩ :=
    (@lookup_foldl_indexLiveRoot (store.rowsCut cut) _ id).1 ⟨x, hx, hkey⟩
  exact ⟨y, ⟨mem_liveBlockRoots_rowsCut.mp (order.mem_enumerate.mp hy), hkey'⟩, hfound⟩

private theorem lookup_rebuild_unnamed (order : SetOrder) (unnamed : ∀ x, ¬ store.Names cut id x) :
    ((store.rowsCut cut).rebuildLiveStateRootIndex order).lookup id = none := by
  refine (@lookup_foldl_indexLiveRoot (store.rowsCut cut) _ id).2 fun x hx hkey => ?_
  exact unnamed x ⟨mem_liveBlockRoots_rowsCut.mp (order.mem_enumerate.mp hx), hkey⟩

/-- The order that comes to a root last. -/
def lastOrder (last : Bytes32) : SetOrder where
  enumerate roots := if last ∈ roots then roots ++ [last] else roots
  mem_enumerate {roots root} := by
    split
    · rename_i hlast
      rw [List.mem_append, List.mem_singleton]
      exact ⟨fun h => h.elim (fun h => h) fun heq => heq ▸ hlast, Or.inl⟩
    · exact Iff.rfl

private theorem lookup_rebuild_lastOrder {x : Bytes32} (named : store.Names cut id x) :
    ((store.rowsCut cut).rebuildLiveStateRootIndex (lastOrder x)).lookup id = some x := by
  have henumerate : (lastOrder x).enumerate (store.rowsCut cut).liveBlockRoots =
      (store.rowsCut cut).liveBlockRoots ++ [x] :=
    if_pos (mem_liveBlockRoots_rowsCut.mpr named.1)
  unfold rebuildLiveStateRootIndex
  rw [henumerate, List.foldl_append, List.foldl_cons, List.foldl_nil, lookup_indexLiveRoot]
  exact if_pos named.2

end Lookup

/-! ## Reads by state root -/

section Reads

variable {finalizedSlot keepRecentSlots : Nat} {id : Bytes32}

private theorem getState_prune_of_lookup {found : Option Bytes32}
    (lookup : ((store.rowsCut (finalizedSlot - keepRecentSlots)).rebuildLiveStateRootIndex
      order).lookup id = found) :
    (store.prune order finalizedSlot keepRecentSlots).1.getState id =
      (store.prune order finalizedSlot keepRecentSlots).1.loadStateByBlockRoot
        (found.getD id) := by
  have hlookup : (store.prune order finalizedSlot keepRecentSlots).1.stateRootToBlockRoot =
      (store.rowsCut (finalizedSlot - keepRecentSlots)).rebuildLiveStateRootIndex order :=
    (withRowsPruned_memory order store (finalizedSlot - keepRecentSlots)).2.2.1
  unfold getState
  rw [hlookup, lookup]

/-- The state a read by an identifier returns after a prune, whatever the order. -/
structure Resolves (store : FileStore) (cut : Nat) (id : Bytes32) (value : Option State) :
    Prop where
  named : ∀ x, store.Names cut id x → store.loadStateByBlockRoot x = value
  kept : (∀ x, ¬ store.Names cut id x) → store.KeepsState cut id →
    store.loadStateByBlockRoot id = value
  gone : (∀ x, ¬ store.Names cut id x) → ¬ store.KeepsState cut id → value = none

/-- **What a read by an identifier returns after a prune.** -/
theorem getState_prune_iff {value : Option State} :
    (∀ order, (store.prune order finalizedSlot keepRecentSlots).1.getState id = value) ↔
      store.Resolves (finalizedSlot - keepRecentSlots) id value := by
  constructor
  · intro reads
    refine ⟨fun x named => ?_, fun unnamed keeps => ?_, fun unnamed drops => ?_⟩
    · have read := reads (lastOrder x)
      rw [getState_prune_of_lookup (lookup_rebuild_lastOrder named)] at read
      exact ((loadState_prune _ store _ _ x).1 named.1).symm.trans read
    · have read := reads listOrder
      rw [getState_prune_of_lookup (lookup_rebuild_unnamed listOrder unnamed)] at read
      exact ((loadState_prune _ store _ _ id).1 keeps).symm.trans read
    · have read := reads listOrder
      rw [getState_prune_of_lookup (lookup_rebuild_unnamed listOrder unnamed)] at read
      exact read.symm.trans ((loadState_prune _ store _ _ id).2 drops)
  · intro resolves order
    by_cases named : ∃ x, store.Names (finalizedSlot - keepRecentSlots) id x
    · obtain ⟨x, hx, found⟩ := lookup_rebuild_named order named
      rw [getState_prune_of_lookup found]
      exact ((loadState_prune order store _ _ x).1 hx.1).trans (resolves.named x hx)
    · have unnamed := not_exists.mp named
      rw [getState_prune_of_lookup (lookup_rebuild_unnamed order unnamed)]
      by_cases keeps : store.KeepsState (finalizedSlot - keepRecentSlots) id
      · exact ((loadState_prune order store _ _ id).1 keeps).trans (resolves.kept unnamed keeps)
      · exact ((loadState_prune order store _ _ id).2 keeps).trans
          (resolves.gone unnamed keeps).symm

end Reads

/-! ## Live data -/

/-- The parent of a stored block. -/
def parentOf (store : FileStore) (root : Bytes32) : Option Bytes32 :=
  (store.getBlock root).map (·.parentRoot)

/-- The head or an ancestor of it, at the cut or later. -/
def AncestorFrom (store : FileStore) (cut : Nat) (root : Bytes32) : Prop :=
  ∃ head ∈ store.live.head, Climbs store.parentOf head root ∧
    ∃ block, store.getBlock root = some block ∧ cut ≤ block.slot

/-- What must survive a prune. -/
def Live (store : FileStore) (cut : Nat) (root : Bytes32) : Prop :=
  store.AncestorFrom cut root ∨ root ∈ store.pinnedRoots ∨ root ∈ store.pendingBlocks.roots

/-- A prune that loses no live data: the three blobs of a live root are as they were, and so are all
reads of a block that is still there, by its root and by every state root that led to it. -/
structure LosesNothing (store after : FileStore) (cut : Nat) : Prop where
  blobs : ∀ root, store.Live cut root →
    after.getBlock root = store.getBlock root ∧
      after.signedRow root = store.signedRow root ∧
      after.loadStateByBlockRoot root = store.loadStateByBlockRoot root
  reads : ∀ root, (after.getBlock root).isSome →
    after.getBlock root = store.getBlock root ∧
      after.signedRow root = store.signedRow root ∧
      ∀ id, id = root ∨ store.stateRootToBlockRoot.lookup id = some root →
        after.getState id = store.getState id

/-- What the store must be like before a prune: each ancestor of the head from the cut on is named
by a row from the cut on, pinned or pending, its state too; and each identifier of a kept block
resolves, through the blocks of the kept states, to the state it has led to. -/
structure Covered (store : FileStore) (cut : Nat) : Prop where
  ancestors : ∀ root, store.AncestorFrom cut root →
    store.KeepsBlock cut root ∧
      (store.KeepsState cut root ∨ store.loadStateByBlockRoot root = none)
  identifiers : ∀ root, store.KeepsBlock cut root → (store.getBlock root).isSome →
    ∀ id, id = root ∨ store.stateRootToBlockRoot.lookup id = some root →
      store.Resolves cut id (store.getState id)

private theorem keeps_of_pinned (h : root ∈ store.pinnedRoots) :
    store.Keeps cut index root := .inl h

private theorem keeps_of_pending (h : root ∈ store.pendingBlocks.roots) :
    store.Keeps cut index root := .inr (.inl h)

/-- **When a prune loses no live data**, in whatever order it rebuilds the lookup. -/
theorem prune_losesNothing_iff (store : FileStore) (finalizedSlot keepRecentSlots : Nat) :
    (∀ order, LosesNothing store (store.prune order finalizedSlot keepRecentSlots).1
      (finalizedSlot - keepRecentSlots)) ↔ store.Covered (finalizedSlot - keepRecentSlots) := by
  constructor
  · intro keeps
    refine ⟨fun root ancestor => ⟨?_, ?_⟩, fun root kept stored id hid => ?_⟩
    · have same := ((keeps listOrder).blobs root (.inl ancestor)).1
      obtain ⟨-, -, -, block, hblock, -⟩ := ancestor
      by_contra drops
      rw [(getBlock_prune listOrder store _ _ root).2 drops, hblock] at same
      cases same
    · have same := ((keeps listOrder).blobs root (.inl ancestor)).2.2
      by_cases kept : store.KeepsState (finalizedSlot - keepRecentSlots) root
      · exact .inl kept
      · rw [(loadState_prune listOrder store _ _ root).2 kept] at same
        exact .inr same.symm
    · refine getState_prune_iff.mp fun order => ?_
      have still : ((store.prune order finalizedSlot keepRecentSlots).1.getBlock root).isSome := by
        rwa [(getBlock_prune order store _ _ root).1 kept]
      exact ((keeps order).reads root still).2.2 id hid
  · intro covered order
    refine ⟨fun root live => ?_, fun root still => ?_⟩
    · have kept : store.KeepsBlock (finalizedSlot - keepRecentSlots) root ∧
          (store.KeepsState (finalizedSlot - keepRecentSlots) root ∨
            store.loadStateByBlockRoot root = none) := by
        rcases live with ancestor | pinned | pending
        · exact covered.ancestors root ancestor
        · exact ⟨keeps_of_pinned pinned, .inl (keeps_of_pinned pinned)⟩
        · exact ⟨keeps_of_pending pending, .inl (keeps_of_pending pending)⟩
      refine ⟨(getBlock_prune order store _ _ root).1 kept.1,
        signedRow_prune order store _ _ root kept.1, ?_⟩
      rcases kept.2 with state | missing
      · exact (loadState_prune order store _ _ root).1 state
      · by_cases state : store.KeepsState (finalizedSlot - keepRecentSlots) root
        · exact (loadState_prune order store _ _ root).1 state
        · exact ((loadState_prune order store _ _ root).2 state).trans missing.symm
    · have kept : store.KeepsBlock (finalizedSlot - keepRecentSlots) root := by
        by_contra drops
        rw [(getBlock_prune order store _ _ root).2 drops] at still
        cases still
      have same := (getBlock_prune order store _ _ root).1 kept
      refine ⟨same, signedRow_prune order store _ _ root kept, fun id hid => ?_⟩
      exact getState_prune_iff.mpr (covered.identifiers root kept (same ▸ still) id hid) order

/-! ## A fork, and a state put on its own -/

/-- The state a block leads to from a state; the state itself if it does not import. -/
def stateAfter (signed : SignedBlockWithAttestation) (state : State) : State :=
  match processSignedBlock sampleSsz noopSignatureVerifier signed state with
  | .ok () post => post
  | .error _ _ => state

/-- Two blocks of slot 1, and one of slot 2 on the first of them. -/
def firstBlock : SignedBlockWithAttestation := PlannedBlock.build sampleSsz ⟨1, []⟩ seedState

def rivalBlock : SignedBlockWithAttestation :=
  PlannedBlock.build sampleSsz ⟨1, [⟨0, 0, voters 3 1#8⟩]⟩ seedState

def secondBlock : SignedBlockWithAttestation :=
  PlannedBlock.build sampleSsz ⟨2, []⟩ (stateAfter firstBlock seedState)

def rootOf (signed : SignedBlockWithAttestation) : Bytes32 :=
  signed.message.block.hashTreeRoot sampleSsz

/-- The first block, its rival, and the block on top of the first. -/
def forkedRun : List StoreCall :=
  [.putAnchorSignedBlock firstBlock.message.block.parentRoot (blockAt 0) seedState,
    .putSignedBlock (rootOf firstBlock) firstBlock seedState,
    .putSignedBlock (rootOf rivalBlock) rivalBlock (stateAfter firstBlock seedState),
    .putSignedBlock (rootOf secondBlock) secondBlock (stateAfter rivalBlock seedState)]

/-- A block, and then a state under its root that is not the one the block names. -/
def otherStateRun : List StoreCall :=
  [.putAnchorSignedBlock 1#256 (blockAt 1) seedState, .putState 1#256 seedState]

/-- **A prune that loses live data.** In the forked store the parent of the head, a block past the
cut, is gone after `prune(0, 0)`: its rival has the only row of their slot. In the other store the
head's state is still there but its state root no longer leads to it. -/
theorem prune_loses :
    ((runOf forkedRun).live.head = some (rootOf secondBlock) ∧
      (runOf forkedRun).parentOf (rootOf secondBlock) = some (rootOf firstBlock) ∧
      ((runOf forkedRun).getBlock (rootOf firstBlock)).map (·.slot) = some 1 ∧
      ((runOf forkedRun).prune listOrder 0 0).1.getBlock (rootOf firstBlock) = none) ∧
    ((runOf otherStateRun).live.head = some 1#256 ∧
      (runOf otherStateRun).stateRootToBlockRoot.lookup (seedState.hashTreeRoot sampleSsz) =
        some 1#256 ∧
      ((runOf otherStateRun).getState (seedState.hashTreeRoot sampleSsz)).isSome = true ∧
      (((runOf otherStateRun).prune listOrder 0 0).1.getState 1#256).isSome = true ∧
      ((runOf otherStateRun).prune listOrder 0 0).1.getState
        (seedState.hashTreeRoot sampleSsz) = none) := by
  decide +kernel

end FileStore

end Peam
