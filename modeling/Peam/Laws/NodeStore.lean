import Peam.Laws.CheckpointSync
import Peam.Laws.Import
import Peam.Laws.PendingRing
import Peam.Laws.StoreTree
import Peam.NodeStore
import Peam.Production

/-!
# The finalized checkpoint of a node's store

The two setters refuse a finalized slot below the one they find. The bundle writer does not look, so
the store goes back whenever its own checkpoint is ahead of the states it is written from: after a
checkpoint start (`anchored_store_regresses`), or when a backfilled block sits on a branch that
finalized less.

A call that does not meet the store's checkpoint from behind (`Safe`) keeps it, together with what
the stored states tell of the stored blocks (`Kept.call`). So over a run of such calls the finalized
slot only grows and the finalized root is that of a stored block of that slot
(`finalized_onward`).
-/

namespace Peam

variable {ssz : Ssz} {verifier : SignatureVerifier} {checkpoint : Checkpoint} {completed : Bool}
  {views after : Views} {fetched : List SignedBlockWithAttestation}

/-! ## The states a node keeps -/

private theorem processSlots_finalized {target : Nat} {state state' : State}
    (h : processSlots ssz target state = .ok () state' ∨
      ∃ e, processSlots ssz target state = .error e state') :
    state'.latestFinalized = state.latestFinalized := by
  unfold processSlots at h
  split at h
  · rcases h with h | ⟨e, h⟩
    · cases h
    · cases h
      rfl
  · rcases h with h | ⟨e, h⟩
    · cases h
      obtain ⟨stateRoot, hloop⟩ := processSlotLoop_eq ssz (target - state.slot) state
      rw [hloop]
    · cases h

/-- The merge takes its finalized checkpoint from one of the two states. -/
theorem mergeReplay_finalized (ssz : Ssz) (live replay : State) :
    (mergeReplay ssz live replay).latestFinalized = live.latestFinalized ∨
      (mergeReplay ssz live replay).latestFinalized = replay.latestFinalized := by
  unfold mergeReplay
  extract_lets merged kept
  have hkept : kept.latestFinalized = live.latestFinalized ∨
      kept.latestFinalized = replay.latestFinalized := by
    dsimp only [kept, merged]
    split_ifs <;> simp
  split
  · split
    · next h => rwa [processSlots_finalized (.inl h)]
    · next e _ h => rwa [processSlots_finalized (.inr ⟨e, h⟩)]
  · exact hkept

namespace FileStore

variable {store store' : FileStore} {root : Bytes32} {signed : SignedBlockWithAttestation}
  {state state' post : State} {justified finalized : Checkpoint} {slot : Nat}

/-- A setter is ignored, or promotes the rows up to its slot. -/
theorem setFinalizedCheckpoint_cases (store : FileStore) (checkpoint : Checkpoint) :
    let set := store.setFinalizedCheckpoint checkpoint
    (set = store ∧ ∃ current ∈ store.live.finalizedSlot, checkpoint.slot < current) ∨
    (¬ ∃ current ∈ store.live.finalizedSlot, checkpoint.slot < current) ∧
    set.live = { store.live with
      finalized := some checkpoint.root, finalizedSlot := some checkpoint.slot } ∧
    set.stateBySlot =
      store.stateBySlot.upsert (store.pendingBlocks.entriesLeq checkpoint.slot) ∧
    set.blockBySlot =
      store.blockBySlot.upsert (store.pendingBlocks.entriesLeq checkpoint.slot) ∧
    set.pendingBlocks = (store.pendingBlocks.drainLeqWith checkpoint.slot).1 := by
  simp only [← PendingSlotCache.drainLeqWith_snd]
  unfold setFinalizedCheckpoint
  split
  · next taken => exact .inl ⟨rfl, taken⟩
  · next taken =>
    obtain ⟨hstates, hblocks, -, hring, hlive⟩ := flushCanonical_memory
      (promoteFinalizedSlotInMemory { store with
        live := { store.live with
          finalized := some checkpoint.root, finalizedSlot := some checkpoint.slot }
        metaDirty := true } checkpoint.slot)
    exact .inr ⟨taken, hlive, hstates, hblocks, hring⟩

/-! ## What a run keeps -/

/-- The finalized root is that of a stored block of the finalized slot. -/
def FinalizedHeld (store : FileStore) : Prop :=
  ∀ root ∈ store.live.finalized, ∃ slot ∈ store.live.finalizedSlot, store.Holds ⟨root, slot⟩

/-- Unless it is behind the finalized slot, the checkpoint is a stored block of its slot. -/
def HeldFrom (store : FileStore) (checkpoint : Checkpoint) : Prop :=
  ∀ slot ∈ store.live.finalizedSlot, slot ≤ checkpoint.slot → store.Holds checkpoint

/-- The store after has the checkpoints of the store before, and a finalized slot at least as
high. -/
structure Onward (store store' : FileStore) : Prop where
  holds : ∀ ⦃checkpoint⦄, store.Holds checkpoint → store'.Holds checkpoint
  slot : ∀ slot ∈ store.live.finalizedSlot, ∃ slot' ∈ store'.live.finalizedSlot, slot ≤ slot'

private theorem Onward.refl (store : FileStore) : Onward store store :=
  ⟨fun _ h => h, fun slot h => ⟨slot, h, Nat.le_refl _⟩⟩

private theorem Onward.trans {store'' : FileStore} (h : Onward store store')
    (h' : Onward store' store'') : Onward store store'' where
  holds _ hheld := h'.holds (h.holds hheld)
  slot slot hslot := by
    obtain ⟨slot', hslot', hle⟩ := h.slot slot hslot
    obtain ⟨slot'', hslot'', hle'⟩ := h'.slot slot' hslot'
    exact ⟨slot'', hslot'', hle.trans hle'⟩

/-- The store's own part of the invariant. Before the first seed nothing is stored. -/
structure Kept (store : FileStore) : Prop where
  tree : store.Tree (store.live.finalizedSlot.getD 0)
  finalized : store.FinalizedHeld
  empty : store.live.finalizedSlot = none →
    ∀ r, store.getBlock r = none ∧ store.loadStateByBlockRoot r = none

private theorem HeldFrom.onward (held : store.HeldFrom checkpoint)
    (some_slot : store.live.finalizedSlot = some slot) (onward : Onward store store') :
    store'.HeldFrom checkpoint := by
  intro slot' hslot' hle
  obtain ⟨slot'', hslot'', hbelow⟩ := onward.slot slot some_slot
  cases Option.mem_unique hslot' hslot''
  exact onward.holds (held slot some_slot (hbelow.trans hle))

private theorem heldFrom_later {old new : Checkpoint} (hold : store.HeldFrom old)
    (hnew : store.HeldFrom new) : store.HeldFrom (laterCheckpoint old new) := by
  rcases (laterCheckpoint_cases old new).1 with h | h
  · rw [h]
    exact hold
  · rw [h]
    exact hnew

private theorem Tells.heldFrom (some_slot : store.live.finalizedSlot = some slot)
    (tells : store.Tells slot state) : store.HeldFrom state.latestFinalized := by
  intro slot' hslot' hle
  cases Option.mem_unique hslot' some_slot
  exact tells.finalized hle

namespace Kept

/-- After the first seed the stored states tell of the stored blocks. -/
theorem tree_at (kept : store.Kept) (some_slot : store.live.finalizedSlot = some slot) :
    store.Tree slot := by
  have tree := kept.tree
  rw [some_slot, Option.getD_some] at tree
  exact tree

private theorem some_slot (kept : store.Kept) (h : store.loadStateByBlockRoot root = some state) :
    ∃ slot, store.live.finalizedSlot = some slot := by
  cases hslot : store.live.finalizedSlot with
  | none =>
    rw [(kept.empty hslot root).2] at h
    cases h
  | some slot => exact ⟨slot, rfl⟩

/-- **A put that makes its block the head** and finalizes a stored block at or past the finalized
slot. -/
theorem promote {out : FileStore} (kept : store.Kept)
    (hput : store.persistSignedBlockBundleInner root signed post justified finalized true = out)
    (some_slot : store.live.finalizedSlot = some slot)
    (free : store.NoClash root signed.message.block)
    (tells : store.Tells slot post)
    (header : post.latestBlockHeader.slot = signed.message.block.slot)
    (le : slot ≤ finalized.slot) (held : store.HeldFrom finalized) :
    out.Kept ∧ Onward store out := by
  have hgrows : ∀ ⦃checkpoint⦄, store.Holds checkpoint → out.Holds checkpoint :=
    fun _ h => hput ▸ h.bundle free
  subst hput
  refine ⟨⟨?_, ?_, ?_⟩, hgrows, ?_⟩
  · exact ((kept.tree_at some_slot).weaken le).put free ((tells.weaken le).mono hgrows) header
  · intro r hr
    cases hr
    exact ⟨finalized.slot, rfl, hgrows (held slot some_slot le)⟩
  · intro hnone
    cases hnone
  · intro slot' hslot'
    cases Option.mem_unique hslot' some_slot
    exact ⟨finalized.slot, rfl, le⟩

/-- **A put that leaves the head alone.** -/
theorem file {out : FileStore} (kept : store.Kept)
    (hput : store.persistSignedBlockBundleInner root signed post justified finalized false = out)
    (some_slot : store.live.finalizedSlot = some slot)
    (free : store.NoClash root signed.message.block) (tells : store.Tells slot post)
    (header : post.latestBlockHeader.slot = signed.message.block.slot) :
    out.Kept ∧ Onward store out := by
  have hgrows : ∀ ⦃checkpoint⦄, store.Holds checkpoint → out.Holds checkpoint :=
    fun _ h => hput ▸ h.bundle free
  have hlive : out.live = store.live := by rw [← hput]; rfl
  subst hput
  refine ⟨⟨?_, ?_, ?_⟩, hgrows, ?_⟩
  · rw [hlive, some_slot]
    exact (kept.tree_at some_slot).put free (tells.mono hgrows) header
  · intro r hr
    obtain ⟨slot', hslot', hheld⟩ := kept.finalized r hr
    exact ⟨slot', hslot', hgrows hheld⟩
  · intro hnone
    rw [hlive, some_slot] at hnone
    cases hnone
  · exact fun slot' hslot' => ⟨slot', hslot', Nat.le_refl _⟩

/-- **A setter** keeps the invariant if it is ignored or names a stored block. -/
theorem setFinalizedCheckpoint (kept : store.Kept)
    (safe : store.Holds checkpoint ∨ ∃ current ∈ store.live.finalizedSlot,
      checkpoint.slot < current) :
    (store.setFinalizedCheckpoint checkpoint).Kept ∧
      Onward store (store.setFinalizedCheckpoint checkpoint) := by
  have hblobs := sameBlobs_setFinalizedCheckpoint store checkpoint
  have hgrows : ∀ ⦃cp⦄, store.Holds cp → (store.setFinalizedCheckpoint checkpoint).Holds cp :=
    fun _ => Holds.congr hblobs
  rcases store.setFinalizedCheckpoint_cases checkpoint with ⟨hsame, -⟩ | ⟨hlower, hlive, -⟩
  · rw [hsame]
    exact ⟨kept, .refl _⟩
  · have hheld := safe.resolve_right hlower
    have hle : ∀ slot ∈ store.live.finalizedSlot, slot ≤ checkpoint.slot :=
      fun slot hslot => Nat.not_lt.mp fun h => hlower ⟨slot, hslot, h⟩
    refine ⟨⟨?_, ?_, ?_⟩, hgrows, ?_⟩
    · rw [hlive, Option.getD_some]
      refine (kept.tree.weaken ?_).congr hblobs
      cases hslot : store.live.finalizedSlot with
      | none => exact Nat.zero_le _
      | some slot => exact hle slot hslot
    · intro r hr
      rw [hlive] at hr ⊢
      cases hr
      exact ⟨checkpoint.slot, rfl, hgrows hheld⟩
    · intro hnone
      rw [hlive] at hnone
      cases hnone
    · exact fun slot hslot => ⟨checkpoint.slot, by rw [hlive]; rfl, hle slot hslot⟩

end Kept

end FileStore

/-! ## The seed -/

/-- An anchor that can be seeded without a step back: it is not behind the finalized slot, its
history has an entry for each slot, and its finalized checkpoint is older or the anchor itself. -/
@[mk_iff]
structure AnchorSafe (ssz : Ssz) (store : FileStore) (state : State) : Prop where
  ahead : ∀ slot ∈ store.live.finalizedSlot, slot ≤ state.latestBlockHeader.slot
  length_history : state.historicalBlockHashes.items.length = state.latestBlockHeader.slot
  finalized :
    let root := (buildAnchorBlock ssz state).hashTreeRoot ssz
    (normalizeGenesisAnchorRoots state root).latestFinalized.slot <
        state.latestBlockHeader.slot ∨
      (normalizeGenesisAnchorRoots state root).latestFinalized =
        ⟨root, state.latestBlockHeader.slot⟩
  free : store.NoClash ((buildAnchorBlock ssz state).hashTreeRoot ssz) (buildAnchorBlock ssz state)

instance (store : FileStore) (state : State) : Decidable (AnchorSafe ssz store state) :=
  decidable_of_iff' _ (anchorSafe_iff ssz store state)

/-- **A safe seed** keeps the invariant, and its live state is in it. -/
theorem FileStore.Kept.seed {store store' : FileStore} {state live : State}
    {forkChoice : ForkChoiceStore} (kept : store.Kept) (safe : AnchorSafe ssz store state)
    (h : seedAnchorStoreAndForkChoice ssz store state = .ok (store', live, forkChoice)) :
    store'.Kept ∧ FileStore.Onward store store' ∧ store'.HeldFrom live.latestFinalized := by
  have hfinal := seedAnchor_live h
  have hblobs := seedAnchor_blobs h
  obtain ⟨rfl, -⟩ := seedAnchor_ok h
  let root := (buildAnchorBlock ssz state).hashTreeRoot ssz
  let live := normalizeGenesisAnchorRoots state root
  let put := store.putAnchorSignedBlock root (selfVoting ssz (buildAnchorBlock ssz state)) live
  obtain ⟨hheader, hhistory⟩ := normalizeGenesisAnchorRoots_same state root
  have hle : live.latestFinalized.slot ≤ state.latestBlockHeader.slot := by
    rcases safe.finalized with hlt | heq
    · exact hlt.le
    · exact (congrArg Checkpoint.slot heq).le
  obtain ⟨-, hroot, hslot⟩ := hfinal hle
  have hgrows : ∀ ⦃checkpoint⦄, store.Holds checkpoint → store'.Holds checkpoint :=
    fun _ held => (FileStore.Holds.bundle safe.free held).congr hblobs
  have hanchor : put.Holds ⟨root, state.latestBlockHeader.slot⟩ := FileStore.holds_bundle_self
  have hheld : state.latestBlockHeader.slot ≤ live.latestFinalized.slot →
      put.Holds live.latestFinalized := by
    intro hge
    rcases safe.finalized with hlt | heq
    · exact absurd hge (Nat.not_le.mpr hlt)
    · show put.Holds (normalizeGenesisAnchorRoots state root).latestFinalized
      rw [heq]
      exact hanchor
  -- the anchor's history ends below its own slot
  have htells : put.Tells state.latestBlockHeader.slot live := by
    refine ⟨?_, ?_, ?_, hheld⟩
    · rw [hhistory, hheader]
      exact safe.length_history
    · intro i x hbase hget
      have hlt := (List.getElem?_eq_some_iff.mp hget).1
      rw [hhistory, safe.length_history] at hlt
      exact absurd hbase (Nat.not_le.mpr hlt)
    · rw [hheader]
      exact hle
  refine ⟨⟨?_, ?_, ?_⟩, ⟨hgrows, ?_⟩, ?_⟩
  · rw [hslot, Option.getD_some]
    refine FileStore.Tree.congr ?_ hblobs
    refine (kept.tree.weaken ?_).put safe.free htells (congrArg BlockHeader.slot hheader)
    cases hcurrent : store.live.finalizedSlot with
    | none => exact Nat.zero_le _
    | some current => exact safe.ahead current hcurrent
  · intro r hr
    rw [hroot] at hr
    cases hr
    exact ⟨_, hslot, hanchor.congr hblobs⟩
  · intro hnone
    rw [hslot] at hnone
    cases hnone
  · exact fun slot hcurrent => ⟨_, hslot, safe.ahead slot hcurrent⟩
  · intro slot hcurrent hge
    cases Option.mem_unique hcurrent hslot
    exact (hheld hge).congr hblobs

namespace NodeStore

variable {node : NodeStore}

/-! ## One call -/

/-- A call that does not find the store's finalized checkpoint ahead of the states it is made with.
A block is not put over one of another slot, and a local one comes with the state that the stored
state of its parent leads to. -/
def Safe (ssz : Ssz) (node : NodeStore) : NodeCall → Prop
  | .seed state => AnchorSafe ssz node.store state
  | .setFinalized _ => True
  | .setFinalizedCheckpoint checkpoint =>
    node.store.Holds checkpoint ∨
      ∃ current ∈ node.store.live.finalizedSlot, checkpoint.slot < current
  | .putSignedBlock signed =>
    node.store.NoClash (signed.message.block.hashTreeRoot ssz) signed.message.block ∧
      ∀ current ∈ node.store.live.finalizedSlot,
        current ≤ node.live.latestFinalized.slot ∨ signed.message.block.slot < node.live.slot
  | .putPrevalidatedSignedBlock signed postState =>
    node.store.NoClash (signed.message.block.hashTreeRoot ssz) signed.message.block ∧
      (∀ current ∈ node.store.live.finalizedSlot, current ≤ node.live.latestFinalized.slot) ∧
      ∃ parent ∈ node.store.loadStateByBlockRoot signed.message.block.parentRoot,
        stateTransitionInner ssz signed.message.block parent = .ok () postState
  | .putBackfillSignedBlock signed _ | .putRangeSignedBlock signed =>
    node.store.NoClash (signed.message.block.hashTreeRoot ssz) signed.message.block ∧
      ∀ parent ∈ node.store.loadStateByBlockRoot signed.message.block.parentRoot,
        ∀ current ∈ node.store.live.finalizedSlot, current ≤ parent.latestFinalized.slot
  | .mergeReplay | .dropReplay => True

/-- Whether a transition leads to a state. -/
instance (block : Block) (state post : State) :
    Decidable (stateTransitionInner ssz block state = .ok () post) :=
  match stateTransitionInner ssz block state with
  | .error _ _ => isFalse nofun
  | .ok () reached =>
    decidable_of_iff (reached = post) ⟨fun h => h ▸ rfl, fun h => by cases h; rfl⟩

instance (node : NodeStore) : (call : NodeCall) → Decidable (node.Safe ssz call)
  | .seed state => inferInstanceAs (Decidable (AnchorSafe ssz node.store state))
  | .setFinalized _ => isTrue trivial
  | .setFinalizedCheckpoint _ => inferInstanceAs (Decidable (_ ∨ ∃ current ∈ _, _))
  | .putSignedBlock _ => inferInstanceAs (Decidable (_ ∧ ∀ current ∈ _, _ ∨ _))
  | .putPrevalidatedSignedBlock _ _ =>
    inferInstanceAs (Decidable (_ ∧ (∀ current ∈ _, _) ∧ ∃ parent ∈ _, _))
  | .putBackfillSignedBlock _ _ | .putRangeSignedBlock _ =>
    inferInstanceAs (Decidable (_ ∧ ∀ parent ∈ _, ∀ current ∈ _, _))
  | .mergeReplay | .dropReplay => isTrue trivial

/-- The invariant: the store's part, and the finalized checkpoints of the states. -/
structure Kept (node : NodeStore) : Prop where
  store : node.store.Kept
  live : node.store.HeldFrom node.live.latestFinalized
  replay : ∀ state ∈ node.replay, node.store.HeldFrom state.latestFinalized

/-- An empty store keeps it. -/
theorem kept_initial (live : State) : (initial live).Kept where
  store :=
    { tree := ⟨nofun, nofun⟩
      finalized := nofun
      empty := fun _ _ => ⟨rfl, rfl⟩ }
  live := nofun
  replay := nofun

variable {store : FileStore}

private theorem Kept.wrote {live : State} {slot : Nat} (kept : node.Kept)
    (some_slot : node.store.live.finalizedSlot = some slot)
    (moved : store.Kept ∧ FileStore.Onward node.store store)
    (held : node.store.HeldFrom live.latestFinalized) :
    ({ node with store, live } : NodeStore).Kept ∧ FileStore.Onward node.store store :=
  ⟨⟨moved.1, held.onward some_slot moved.2,
    fun state hstate => (kept.replay state hstate).onward some_slot moved.2⟩, moved.2⟩

section Calls

variable {signed : SignedBlockWithAttestation} {store : FileStore} {live post : State}

private theorem Kept.putSignedBlock (kept : node.Kept)
    (safe : node.Safe ssz (.putSignedBlock signed))
    (h : node.store.putSignedBlockInner ssz verifier (signed.message.block.hashTreeRoot ssz) signed
      node.live = .ok (store, live)) :
    ({ node with store, live } : NodeStore).Kept ∧ FileStore.Onward node.store store := by
  obtain ⟨replayed, hreplay, hcases⟩ := FileStore.putSignedBlockInner_ok h
  obtain ⟨parent, hparent, -⟩ := FileStore.replaySignedBlockFromParent_ok.mp hreplay
  obtain ⟨slot, hslot⟩ := kept.store.some_slot hparent
  obtain ⟨tells, hpost, hheader⟩ := (kept.store.tree_at hslot).replay hreplay
  have hheaderSlot : replayed.latestBlockHeader.slot = signed.message.block.slot :=
    congrArg BlockHeader.slot hheader
  have held := FileStore.heldFrom_later kept.live (tells.heldFrom hslot)
  rcases hcases with ⟨hfar, rfl, rfl⟩ | ⟨hnear, rfl, rfl⟩
  · have hcurrent : slot ≤ node.live.latestFinalized.slot :=
      (safe.2 slot hslot).resolve_right (by omega)
    exact kept.wrote hslot (kept.store.promote rfl hslot safe.1 tells hheaderSlot
      (hcurrent.trans (FileStore.laterCheckpoint_cases _ _).2) held) held
  · refine kept.wrote hslot (kept.store.file rfl hslot safe.1 tells hheaderSlot) ?_
    dsimp only
    split
    · exact held
    · exact kept.live

private theorem Kept.putPrevalidatedSignedBlock (kept : node.Kept)
    (safe : node.Safe ssz (.putPrevalidatedSignedBlock signed post))
    (h : node.store.putPrevalidatedSignedBlock ssz (signed.message.block.hashTreeRoot ssz) signed
      node.live post = .ok (store, live)) :
    ({ node with store, live } : NodeStore).Kept ∧ FileStore.Onward node.store store := by
  obtain ⟨rfl, rfl⟩ := FileStore.putPrevalidatedSignedBlock_ok h
  obtain ⟨free, hahead, parent, hparent, hrun⟩ := safe
  obtain ⟨slot, hslot⟩ := kept.store.some_slot hparent
  have tells := (kept.store.tree_at hslot).advance hparent hrun
  have held := FileStore.heldFrom_later kept.live (tells.heldFrom hslot)
  exact kept.wrote hslot (kept.store.promote rfl hslot free tells
    (stateTransitionInner_extends hrun).slot_eq
    ((hahead slot hslot).trans (FileStore.laterCheckpoint_cases _ _).2) held) held

private theorem Kept.backfill {state : State} (kept : node.Kept)
    (safe : node.Safe ssz (.putRangeSignedBlock signed))
    (h : node.store.putBackfillSignedBlock ssz verifier (signed.message.block.hashTreeRoot ssz)
      signed state = .ok (store, post)) :
    ∃ slot, node.store.live.finalizedSlot = some slot ∧
      (store.Kept ∧ FileStore.Onward node.store store) ∧
      node.store.HeldFrom post.latestFinalized := by
  obtain ⟨hreplay, -, rfl⟩ := putBackfill_ok.mp h
  obtain ⟨parent, hparent, hrun⟩ := FileStore.replaySignedBlockFromParent_ok.mp hreplay
  obtain ⟨slot, hslot⟩ := kept.store.some_slot hparent
  obtain ⟨tells, -, hheader⟩ := (kept.store.tree_at hslot).replay hreplay
  have hle : slot ≤ post.latestFinalized.slot :=
    (safe.2 parent hparent slot hslot).trans
      (stateTransitionInner_finalized (processSignedBlock_transition hrun)).1
  have held := tells.heldFrom hslot
  exact ⟨slot, hslot,
    kept.store.promote rfl hslot safe.1 tells (congrArg BlockHeader.slot hheader) hle held, held⟩

private theorem Kept.mergeReplay (kept : node.Kept) :
    (node.call ssz verifier .mergeReplay).Kept := by
  unfold call
  cases hreplay : node.replay with
  | none => exact kept
  | some replay =>
    refine ⟨kept.store, ?_, nofun⟩
    dsimp only
    rcases mergeReplay_finalized ssz node.live replay with h | h
    · rw [h]
      exact kept.live
    · rw [h]
      exact kept.replay replay hreplay

end Calls

private theorem Kept.withStore (kept : node.Kept)
    (moved : store.Kept ∧ FileStore.Onward node.store store)
    (started : node.store.live.finalizedSlot = none → store.live.finalizedSlot = none) :
    ({ node with store } : NodeStore).Kept ∧ FileStore.Onward node.store store := by
  cases hslot : node.store.live.finalizedSlot with
  | some slot => exact kept.wrote hslot moved kept.live
  | none =>
    have hnone : store.live.finalizedSlot = none := started hslot
    have hfree : ∀ checkpoint, store.HeldFrom checkpoint := by
      intro checkpoint slot h
      rw [hnone] at h
      cases h
    exact ⟨⟨moved.1, hfree _, fun _ _ => hfree _⟩, moved.2⟩

/-- **A safe call keeps the invariant and moves the store on.** -/
theorem Kept.call (kept : node.Kept) {call : NodeCall} (safe : node.Safe ssz call) :
    (node.call ssz verifier call).Kept ∧
      FileStore.Onward node.store (node.call ssz verifier call).store := by
  cases call with
  | seed state =>
    unfold NodeStore.call
    dsimp only
    split
    · exact ⟨kept, .refl _⟩
    · next store live forkChoice h =>
      obtain ⟨hkept, honward, hheld⟩ := kept.store.seed safe h
      exact ⟨⟨hkept, hheld, nofun⟩, honward⟩
  | setFinalized root =>
    unfold NodeStore.call FileStore.setFinalized
    dsimp only
    split
    · exact ⟨kept, .refl _⟩
    · next block h =>
      have moved := kept.store.setFinalizedCheckpoint
        (.inl ⟨block, h, rfl⟩ : node.store.Holds ⟨root, block.slot⟩ ∨ _)
      refine kept.withStore moved ?_
      intro hnone
      rw [(kept.store.empty hnone root).1] at h
      cases h
  | setFinalizedCheckpoint checkpoint =>
    have moved := kept.store.setFinalizedCheckpoint safe
    refine kept.withStore moved ?_
    intro hnone
    rcases safe with ⟨block, hblock, -⟩ | ⟨current, hcurrent, -⟩
    · rw [(kept.store.empty hnone _).1] at hblock
      cases hblock
    · rw [hnone] at hcurrent
      cases hcurrent
  | putSignedBlock signed =>
    unfold NodeStore.call afterPut
    dsimp only
    split
    · exact ⟨kept, .refl _⟩
    · next h => exact kept.putSignedBlock safe h
  | putPrevalidatedSignedBlock signed post =>
    unfold NodeStore.call afterPut
    dsimp only
    split
    · exact ⟨kept, .refl _⟩
    · next h => exact kept.putPrevalidatedSignedBlock safe h
  | putBackfillSignedBlock signed start =>
    unfold NodeStore.call
    dsimp only
    split
    · exact ⟨kept, .refl _⟩
    · next store post h =>
      obtain ⟨slot, hslot, moved, held⟩ := kept.backfill safe h
      refine ⟨⟨moved.1, kept.live.onward hslot moved.2, ?_⟩, moved.2⟩
      intro state hstate
      cases hstate
      exact held.onward hslot moved.2
  | mergeReplay =>
    refine ⟨kept.mergeReplay, ?_⟩
    unfold NodeStore.call
    cases node.replay <;> exact .refl _
  | dropReplay => exact ⟨⟨kept.store, kept.live, nofun⟩, .refl _⟩
  | putRangeSignedBlock signed =>
    unfold NodeStore.call afterPut
    dsimp only
    split
    · exact ⟨kept, .refl _⟩
    · next store post h =>
      obtain ⟨slot, hslot, moved, held⟩ := kept.backfill safe h
      exact kept.wrote hslot moved held

/-! ## Runs -/

/-- Every call of the run is safe where it is made. -/
def SafeRun (ssz : Ssz) (verifier : SignatureVerifier) (node : NodeStore)
    (calls : List NodeCall) : Prop :=
  Loops.Along (fun node call => node.call ssz verifier call) (Safe ssz) node calls
  deriving Decidable

theorem run_append (node : NodeStore) (earlier later : List NodeCall) :
    node.run ssz verifier (earlier ++ later) =
      (node.run ssz verifier earlier).run ssz verifier later :=
  List.foldl_append

private theorem Kept.run {calls : List NodeCall} (kept : node.Kept)
    (safe : SafeRun ssz verifier node calls) :
    (node.run ssz verifier calls).Kept ∧
      FileStore.Onward node.store (node.run ssz verifier calls).store := by
  refine safe.keeps (fun now => now.Kept ∧ FileStore.Onward node.store now.store) ?_
    ⟨kept, .refl _⟩
  rintro now call ⟨kept, onward⟩ safe
  obtain ⟨hkept, honward⟩ := @Kept.call ssz verifier now kept call safe
  exact ⟨hkept, onward.trans honward⟩

/-- **The finalized checkpoint does not go back**: at every point of a run of safe calls the
finalized root is that of a stored block of the finalized slot, and no later point has a lower
one. -/
theorem finalized_onward (ssz : Ssz) (verifier : SignatureVerifier) (live : State)
    (earlier later : List NodeCall)
    (safe : SafeRun ssz verifier (initial live) (earlier ++ later)) :
    ((initial live).run ssz verifier earlier).store.FinalizedHeld ∧
      ∀ slot ∈ ((initial live).run ssz verifier earlier).store.live.finalizedSlot,
        ∃ slot' ∈ ((initial live).run ssz verifier (earlier ++ later)).store.live.finalizedSlot,
          slot ≤ slot' := by
  obtain ⟨hearlier, hlater⟩ := safe.split
  have hkept := ((kept_initial live).run hearlier).1
  refine ⟨hkept.store.finalized, ?_⟩
  rw [run_append]
  exact (hkept.run hlater).2.slot

/-- A start from genesis and the blocks of a plan, gossiped in order. -/
def genesisCalls (plan : List PlannedBlock) : List NodeCall :=
  .seed anchorGenesis ::
    (buildBlocks anchorSsz noopSignatureVerifier plan anchorGenesis).map .putSignedBlock

/-- The node after a run from nothing. -/
def sampleRun (calls : List NodeCall) : NodeStore :=
  (initial anchorGenesis).run anchorSsz noopSignatureVerifier calls

/-- Two blocks are finalized on the way. -/
theorem finalized_onward_twoFinalized :
    (sampleRun (genesisCalls twoFinalized)).store.live.finalizedSlot = some 2 ∧
      (sampleRun (genesisCalls twoFinalized)).store.FinalizedHeld := by
  have safe : SafeRun anchorSsz noopSignatureVerifier (initial anchorGenesis)
      (genesisCalls twoFinalized ++ []) := by decide +kernel
  exact ⟨by decide +kernel,
    (finalized_onward anchorSsz noopSignatureVerifier anchorGenesis _ [] safe).1⟩

/-- A start from the checkpoint at the end of two blocks, at slots 1 and 3. -/
def checkpointCalls : List NodeCall := [.seed (plannedEnd emptyPlan).2]

/-- A block on the first of a plan, fetched after the plan. -/
def sideBackfill : NodeCall :=
  .putBackfillSignedBlock (plannedChild [⟨1, []⟩] 5) (plannedEnd [⟨1, []⟩]).2

private theorem not_finalizedHeld
    (h : store.live.finalized.map (fun root => (store.getBlock root).isNone) = some true) :
    ¬ store.FinalizedHeld := by
  intro held
  obtain ⟨root, hroot, hnone⟩ := Option.map_eq_some_iff.mp h
  obtain ⟨slot, -, block, hblock, -⟩ := held root hroot
  rw [hblock] at hnone
  cases hnone

/-- **Finalized checkpoints that go back.** A node starts from a checkpoint: the anchor is finalized
at slot 3, and the first gossiped block on it sets slot 0 and a root that is not stored. A node that
started from genesis and finalized slot 2 backfills a block on the branch of slot 1, and is back at
slot 0. -/
theorem anchored_store_regresses :
    (verifyCheckpointState anchorSsz (fun _ => "") (plannedEnd emptyPlan).2 anchorGenesis =
        .ok () ∧
      (sampleRun checkpointCalls).store.live.finalizedSlot = some 3 ∧
      (sampleRun (checkpointCalls ++
        [.putSignedBlock (plannedChild emptyPlan 4)])).store.live.finalizedSlot = some 0 ∧
      ¬ (sampleRun (checkpointCalls ++
        [.putSignedBlock (plannedChild emptyPlan 4)])).store.FinalizedHeld) ∧
    ((sampleRun (genesisCalls twoFinalized)).store.live.finalizedSlot = some 2 ∧
      (sampleRun (genesisCalls twoFinalized ++ [sideBackfill])).store.live.finalizedSlot =
        some 0) := by
  refine ⟨⟨by decide +kernel, by decide +kernel, by decide +kernel, not_finalizedHeld ?_⟩,
    by decide +kernel, by decide +kernel⟩
  decide +kernel

/-! ## The node's imports are runs -/

section Imports

/-- A gossiped block. -/
theorem handleGossipBlock_call (cells : ProducerCells) (signed : SignedBlockWithAttestation) :
    (⟨cells.store, cells.live, none⟩ : NodeStore).call ssz verifier (.putSignedBlock signed) =
      ⟨(cells.handleGossipBlock ssz verifier signed).store,
        (cells.handleGossipBlock ssz verifier signed).live, none⟩ := by
  unfold ProducerCells.handleGossipBlock call
  dsimp only
  cases cells.store.putSignedBlockInner ssz verifier (signed.message.block.hashTreeRoot ssz) signed
    cells.live with
  | error e => rfl
  | ok result => rfl

/-- The node while a backfill runs. -/
def duringBackfill (live : State) (replay : Replay) : NodeStore :=
  ⟨replay.store, live, if replay.imported = 0 then none else some replay.state⟩

private theorem importLoop_calls {blocks : List SignedBlockWithAttestation} {replay final : Replay}
    (live : State)
    (h : Calls.Attempt.Returns (importLoop ssz verifier blocks replay) (final, completed)) :
    ∃ calls, (duringBackfill live replay).run ssz verifier calls = duringBackfill live final := by
  induction blocks generalizing replay with
  | nil =>
    cases Calls.Attempt.returns_pure.mp h
    exact ⟨[], rfl⟩
  | cons signed rest ih =>
    obtain ⟨turn, hturn, h⟩ := Calls.Attempt.returns_bind.mp h
    cases importTurn_cases hturn with
    | passed _ => exact ih h
    | put post forkChoice _ later hreplay _ =>
      obtain ⟨calls, hcalls⟩ := ih h
      refine ⟨.putBackfillSignedBlock signed replay.state :: calls, ?_⟩
      have hstate : (if replay.imported = 0 then none else some replay.state).getD replay.state =
          replay.state := by
        split <;> rfl
      have hput := (@putBackfill_ok ssz verifier replay.store _ (signed.root ssz) signed
        replay.state post).mpr ⟨hreplay, (replay_header hreplay).1 ▸ later.le, rfl⟩
      have hcall : (duringBackfill live replay).call ssz verifier
          (.putBackfillSignedBlock signed replay.state) =
            duringBackfill live (replay.put ssz signed post forkChoice) := by
        unfold call duringBackfill
        dsimp only
        rw [hstate, show signed.message.block.hashTreeRoot ssz = signed.root ssz from rfl, hput]
        rfl
      rw [← hcalls, ← hcall]
      rfl
    | refused _ _ =>
      cases Calls.Attempt.returns_pure.mp h
      exact ⟨[], rfl⟩

/-- **A backfill import** is a run: its puts, and then the merge, or the early return. -/
theorem importBackfillChain_calls {result : Option Nat}
    (h : Calls.Attempt.Returns (importBackfillChain ssz verifier views fetched) (result, after)) :
    ∃ calls, (⟨views.store, views.live, none⟩ : NodeStore).run ssz verifier calls =
      ⟨after.store, after.live, none⟩ := by
  unfold importBackfillChain at h
  split at h
  · cases Calls.Attempt.returns_pure.mp h
    exact ⟨[], rfl⟩
  · obtain ⟨⟨final, completed⟩, hloop, h⟩ := Calls.Attempt.returns_bind.mp h
    obtain ⟨calls, hcalls⟩ := importLoop_calls views.live hloop
    dsimp only at h
    have hstart : (⟨views.store, views.live, none⟩ : NodeStore).run ssz verifier calls =
        duringBackfill views.live final := hcalls
    split at h
    · cases Calls.Attempt.returns_pure.mp h
      refine ⟨calls ++ [.dropReplay], ?_⟩
      rw [run_append, hstart]
      rfl
    · split at h
      · next hnothing =>
        cases Calls.Attempt.returns_pure.mp h
        refine ⟨calls, ?_⟩
        rw [hstart, duringBackfill, if_pos hnothing]
      · next hsome =>
        cases Calls.Attempt.returns_pure.mp h
        refine ⟨calls ++ [.mergeReplay], ?_⟩
        rw [run_append, hstart, duringBackfill, if_neg hsome]
        rfl

/-- **A streamed range** is a run. -/
theorem importStreamedRangeChain_calls
    (h : Calls.Attempt.Returns (importStreamedRangeChain ssz verifier views fetched)
      (completed, after)) :
    ∃ calls, (⟨views.store, views.live, none⟩ : NodeStore).run ssz verifier calls =
      ⟨after.store, after.live, none⟩ := by
  unfold importStreamedRangeChain at h
  induction fetched generalizing views with
  | nil =>
    cases Calls.Attempt.returns_pure.mp h
    exact ⟨[], rfl⟩
  | cons signed rest ih =>
    unfold importRangeLoop at h
    dsimp only at h
    split at h
    · exact ih h
    · split at h
      · cases Calls.Attempt.returns_pure.mp h
        exact ⟨[], rfl⟩
      · exact absurd h Calls.Attempt.not_returns_throw
      · next store live hput =>
        obtain ⟨forkChoice, -, h⟩ := Calls.Attempt.returns_bind.mp h
        obtain ⟨calls, hcalls⟩ := ih h
        refine ⟨.putRangeSignedBlock signed :: calls, ?_⟩
        rw [← hcalls]
        show run ssz verifier (afterPut _ _) calls = _
        dsimp only
        rw [hput]
        rfl

end Imports

end NodeStore

end Peam
