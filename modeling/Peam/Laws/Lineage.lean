import Peam.Laws.Accountability
import Peam.Laws.Ghost

/-!
# The tree that valid imports grow

When every imported block extends a stored one and comes with the state its parent's state leads to,
the store holds one tree under a top block: the anchor, or what history was last pruned to. Slots
fall along its links, and a state's history from the top's slot on lists the stored ancestors of its
block (`Planted.ancestors`). So a checkpoint of a stored state at or above the top's slot names a
stored block of its own slot (`Planted.checkpoint`).

Below the top's slot a state's history names blocks that are not stored.
-/

namespace Peam

open Forests
open ForkChoiceStore (blockSlot storedParent_eq_some)

variable {ssz : Ssz} {verifier : SignatureVerifier} {block : Block} {state' anchorState : State}
  {x root r : Bytes32} {anchor : SignedBlockWithAttestation} {first : ForkChoiceStore}
  {steps : List Step}

/-! ## Imports -/

/-- What an import leaves of the state it starts from. -/
structure Extends (ssz : Ssz) (state : State) (block : Block) (state' : State) : Prop where
  slot_lt : state.latestBlockHeader.slot < block.slot
  parentRoot_eq : block.parentRoot =
    (processSlotLoop ssz (block.slot - state.slot) state).latestBlockHeader.hashTreeRoot ssz
  history_eq : state'.historicalBlockHashes.items =
    state.historicalBlockHashes.items ++ block.parentRoot ::
      List.replicate (block.slot - state.latestBlockHeader.slot - 1) Bytes32.zero
  slot_eq : state'.latestBlockHeader.slot = block.slot

variable {state : State}

/-- A block appends its parent and the empty slots. -/
theorem stateTransitionInner_extends
    (h : stateTransitionInner ssz block state = .ok () state') :
    Extends ssz state block state' := by
  obtain ⟨staged, loop, hstage, hrun, hfinish⟩ := stateTransitionInner_ok h
  have hstaged := stageBlock_ok hstage
  have hbase : SameBase staged loop.state := attestationLoop_sameBase hrun
  have hsame := hfinish.sameCheckpoints
  refine ⟨hstaged.header_lt, hstaged.parentRoot_eq, ?_, ?_⟩
  · rw [hsame.history_eq, hbase.history_eq]
    exact hstaged.history_eq
  · rw [hsame.header_slot_eq, hbase.header_eq, hstaged.header_eq]
    rfl

variable {signed : SignedBlockWithAttestation}

/-- So does an import. -/
theorem processSignedBlock_extends
    (h : processSignedBlock ssz verifier signed state = .ok () state') :
    Extends ssz state signed.message.block state' :=
  stateTransitionInner_extends (processSignedBlock_transition h)

/-- An entry of the longer history: one of the shorter, or the parent itself; the rest are empty
slots. -/
theorem Extends.entry (ext : Extends ssz state block state') {i : Nat}
    (hget : state'.historicalBlockHashes.items[i]? = some x) (hne : x ≠ Bytes32.zero) :
    state.historicalBlockHashes.items[i]? = some x ∨
      i = state.historicalBlockHashes.items.length ∧ x = block.parentRoot := by
  rw [ext.history_eq, List.getElem?_append] at hget
  split at hget
  · exact .inl hget
  · next hge =>
    cases hidx : i - state.historicalBlockHashes.items.length with
    | zero =>
      rw [hidx, List.getElem?_cons_zero, Option.some_inj] at hget
      exact .inr ⟨by omega, hget.symm⟩
    | succ k =>
      rw [hidx, List.getElem?_cons_succ, List.getElem?_replicate] at hget
      split at hget
      · exact absurd (Option.some_inj.mp hget).symm hne
      · cases hget

section Chains

variable {genesisTime : Nat} {validators : Validators}
  {blocks : List SignedBlockWithAttestation} {history : History} {state : State}

private theorem Chain.length_history
    (chain : Chain ssz verifier (generateGenesis ssz genesisTime validators) blocks history state) :
    state.historicalBlockHashes.items.length = state.latestBlockHeader.slot :=
  ((shape_invariant ssz genesisTime validators fun _ _ => True).chain chain
    fun _ _ _ _ => trivial).length_history

/-- A checkpoint that is an entry of a state's history. -/
def InHistory (state : State) (checkpoint : Checkpoint) : Prop :=
  checkpoint.root ≠ Bytes32.zero ∧
    state.historicalBlockHashes.items[checkpoint.slot]? = some checkpoint.root

/-- The checkpoints of a state are entries of its history, unless they are genesis'. -/
theorem Chain.checkpoints_inHistory
    (chain : Chain ssz verifier (generateGenesis ssz genesisTime validators) blocks history state)
    (noSelf : NoSelfReference ssz blocks) :
    (state.latestJustified.slot = 0 ∨ InHistory state state.latestJustified) ∧
      (state.latestFinalized.slot = 0 ∨ InHistory state state.latestFinalized) := by
  obtain ⟨shape, grounded⟩ := (grounded_invariant ssz genesisTime validators).chain chain noSelf
  constructor
  · rcases shape.latest_justified with ⟨-, hzero⟩ | hlast
    · exact .inl hzero
    · exact .inr (grounded.justified _ (List.mem_of_getLast? hlast))
  · rcases shape.latest_finalized with ⟨-, hzero⟩ | hlast
    · exact .inl hzero
    · obtain ⟨link, hlink, hsource⟩ := Option.map_eq_some_iff.mp hlast
      obtain ⟨hground, -, hentry⟩ := grounded.links link (List.mem_of_getLast? hlink)
      rw [hsource] at hground hentry
      rcases hground with hzero | ⟨checkpoint, hjustified, hslot⟩
      · exact .inl hzero
      · -- the slot was justified, under the root the history has for it
        obtain ⟨hne, hentry'⟩ := grounded.justified checkpoint hjustified
        rw [hslot, hentry, Option.some_inj] at hentry'
        exact .inr ⟨hentry' ▸ hne, hentry⟩

end Chains

/-! ## The planted tree -/

/-- The slot of a stored block. -/
def ForkChoiceStore.slotOf (store : ForkChoiceStore) (root : Bytes32) : Nat :=
  (store.blockSlot root).getD 0

variable {store : ForkChoiceStore}

/-- The slot of a stored block is its own. -/
theorem slotOf_eq
    (h : store.blocks.lookup root = some signed) :
    store.slotOf root = signed.message.block.slot := by
  rw [ForkChoiceStore.slotOf, blockSlot, h]
  rfl

theorem slotOf_congr {store store' : ForkChoiceStore}
    (h : store'.blocks.lookup root = store.blocks.lookup root) :
    store'.slotOf root = store.slotOf root := by
  rw [ForkChoiceStore.slotOf, blockSlot, h]
  rfl

theorem SameTree.slotOf_eq {store store' : ForkChoiceStore} (tree : SameTree store store')
    (root : Bytes32) : store'.slotOf root = store.slotOf root :=
  slotOf_congr (by rw [tree.blocks])

/-- The stored blocks are a tree under `top`, grown by imports. Blocks and the headers their
parent roots were compared with are among `headers`. -/
structure Planted (ssz : Ssz) (verifier : SignatureVerifier) (genesis : State)
    (headers : List BlockHeader) (top : Bytes32) (store : ForkChoiceStore) : Prop where
  named : ∀ {r signed}, store.blocks.lookup r = some signed →
    signed.message.block.hashTreeRoot ssz = r ∧ signed.message.block.header ssz ∈ headers
  linked : ∀ {r signed}, store.blocks.lookup r = some signed → r ≠ top →
    store.parents.lookup r = some signed.message.block.parentRoot
  stored : top ∈ store.blocks
  below : ∀ {r}, r ∈ store.blocks → Climbs store.storedParent r top
  falls : Falls store.storedParent store.slotOf
  chained : ∀ {r state}, store.states.lookup r = some state →
    ∃ blocks history, Chain ssz verifier genesis blocks history state ∧ NoSelfReference ssz blocks
  slotted : ∀ {r state}, store.states.lookup r = some state → ∀ count,
    (processSlotLoop ssz count state).latestBlockHeader ∈ headers →
    (processSlotLoop ssz count state).latestBlockHeader.hashTreeRoot ssz = r →
    state.latestBlockHeader.slot = store.slotOf r
  ancestors : ∀ {r state i x}, store.states.lookup r = some state →
    state.latestBlockHeader.slot = store.slotOf r → store.slotOf top ≤ i →
    state.historicalBlockHashes.items[i]? = some x → x ≠ Bytes32.zero →
    Climbs store.storedParent r x ∧ store.slotOf x = i

namespace Planted

variable {genesis : State} {headers : List BlockHeader} {top : Bytes32}
  {store store' : ForkChoiceStore} {rank : Bytes32 → Nat}

private theorem mem_of_climbs (hr : r ∈ store.blocks) (h : Climbs store.storedParent r x) :
    x ∈ store.blocks := by
  rcases Relation.ReflTransGen.cases_tail h with rfl | ⟨y, _, hy⟩
  · exact hr
  · exact (storedParent_eq_some.mp hy).2

section

variable (planted : Planted ssz verifier genesis headers top store)

include planted

/-- Calls that leave the tree leave it planted. -/
theorem congr
    (tree : SameTree store store') : Planted ssz verifier genesis headers top store' := by
  have hparent := tree.storedParent_eq
  have hslot : store'.slotOf = store.slotOf := funext tree.slotOf_eq
  constructor
  · rw [tree.blocks]
    exact planted.named
  · rw [tree.blocks, tree.parents]
    exact planted.linked
  · rw [tree.blocks]
    exact planted.stored
  · rw [tree.blocks, hparent]
    exact planted.below
  · rw [hparent, hslot]
    exact planted.falls
  · rw [tree.states]
    exact planted.chained
  · rw [tree.states, hslot]
    exact planted.slotted
  · rw [tree.states, hparent, hslot]
    exact planted.ancestors

private theorem exists_parent
    (hr : r ∈ store.blocks) (hne : r ≠ top) : ∃ p, store.storedParent r = some p := by
  rcases climbs_iff.mp (planted.below hr) with heq | ⟨p, hp, _⟩
  · exact absurd heq hne
  · exact ⟨p, hp⟩

/-- No stored block is below the top. -/
theorem top_le (hr : r ∈ store.blocks) :
    store.slotOf top ≤ store.slotOf r :=
  (planted.below hr).rank_le planted.falls

/-- A history entry at or above the top's slot names a stored block of its slot. -/
theorem checkpoint
    {checkpoint : Checkpoint} (hstate : store.states.lookup r = some state)
    (hr : r ∈ store.blocks) (hslot : state.latestBlockHeader.slot = store.slotOf r)
    (entry : InHistory state checkpoint) (above : store.slotOf top ≤ checkpoint.slot) :
    checkpoint.root ∈ store.blocks ∧ Climbs store.storedParent r checkpoint.root ∧
      store.slotOf checkpoint.root = checkpoint.slot := by
  obtain ⟨hclimb, hat⟩ := planted.ancestors hstate hslot above entry.2 entry.1
  exact ⟨mem_of_climbs hr hclimb, hclimb, hat⟩

end

/-! ## Growing -/

section Enter

variable {genesisTime : Nat} {validators : Validators}
  {signed : SignedBlockWithAttestation} {parentState postState : State} {proposer : Bool}
  {adopted : ForkChoiceStore}

/-- A block that extends a stored one: what its import finds and leads to. -/
structure Import (ssz : Ssz) (verifier : SignatureVerifier) (headers : List BlockHeader)
    (store : ForkChoiceStore) (signed : SignedBlockWithAttestation)
    (parentState postState : State) : Prop where
  parent : store.states.lookup signed.message.block.parentRoot = some parentState
  imported : processSignedBlock ssz verifier signed parentState = .ok () postState
  noSelf : ∀ att ∈ signed.message.block.body.attestations.items,
    NotSelf ssz (signed.message.block.header ssz).staged att
  header : signed.message.block.header ssz ∈ headers
  hashed : (processSlotLoop ssz (signed.message.block.slot - parentState.slot)
    parentState).latestBlockHeader ∈ headers

variable (planted : Planted ssz verifier (generateGenesis ssz genesisTime validators) headers top
    store)
  (fix : CollisionFree ssz headers) (skeleton : Skeleton rank store)
  (imp : Import ssz verifier headers store signed parentState postState)
include planted fix skeleton imp

omit fix planted in
private theorem Import.parent_stored : signed.message.block.parentRoot ∈ store.blocks :=
  skeleton.stored.mpr (skeleton.stated.mp (mem_of_lookup imp.parent))

omit fix skeleton in
private theorem parent_slot :
    parentState.latestBlockHeader.slot = store.slotOf signed.message.block.parentRoot :=
  planted.slotted imp.parent _ imp.hashed
    (processSignedBlock_extends imp.imported).parentRoot_eq.symm

omit fix skeleton in
private theorem parent_slot_lt :
    store.slotOf signed.message.block.parentRoot < signed.message.block.slot := by
  rw [← planted.parent_slot imp]
  exact (processSignedBlock_extends imp.imported).slot_lt

omit skeleton in
private theorem header_eq {old : SignedBlockWithAttestation}
    (h : store.blocks.lookup (signed.message.block.hashTreeRoot ssz) = some old) :
    old.message.block.header ssz = signed.message.block.header ssz := by
  obtain ⟨hroot, hmem⟩ := planted.named h
  exact fix _ hmem _ imp.header hroot

private theorem root_ne_top : signed.message.block.hashTreeRoot ssz ≠ top := by
  intro heq
  obtain ⟨old, hold⟩ := exists_lookup planted.stored
  have hheader := planted.header_eq fix imp (heq ▸ hold)
  have hslot : store.slotOf top = signed.message.block.slot := by
    rw [slotOf_eq hold]
    exact congrArg BlockHeader.slot hheader
  have hle := planted.top_le (imp.parent_stored skeleton)
  have hlt := planted.parent_slot_lt imp
  omega

/-- The link of a block that is imported again. -/
theorem link (stored : signed.message.block.hashTreeRoot ssz ∈ store.nodeIndices) :
    store.parents.lookup (signed.message.block.hashTreeRoot ssz) =
      some signed.message.block.parentRoot := by
  obtain ⟨old, hold⟩ := exists_lookup (skeleton.stored.mpr stored)
  rw [planted.linked hold (planted.root_ne_top fix skeleton imp)]
  exact congrArg (some ∘ BlockHeader.parentRoot) (planted.header_eq fix imp hold)

variable (adopts : Adopted ssz signed postState proposer store adopted)
include adopts

omit planted fix skeleton imp in
theorem slotOf_root : adopted.slotOf (signed.message.block.hashTreeRoot ssz) =
    signed.message.block.slot :=
  slotOf_eq (by rw [adopts.blocks, AList.lookup_insert])

omit skeleton in
/-- An import leaves the slots of the others. -/
theorem slotOf_adopted (hr : r ∈ store.blocks) : adopted.slotOf r = store.slotOf r := by
  by_cases hroot : r = signed.message.block.hashTreeRoot ssz
  · subst hroot
    obtain ⟨old, hold⟩ := exists_lookup hr
    rw [slotOf_root adopts, slotOf_eq hold]
    exact (congrArg BlockHeader.slot (planted.header_eq fix imp hold)).symm
  · apply slotOf_congr
    rw [adopts.blocks, AList.lookup_insert_ne hroot]

omit planted fix in
private theorem storedParent_root : adopted.storedParent (signed.message.block.hashTreeRoot ssz) =
    some signed.message.block.parentRoot := by
  rw [storedParent_eq_some, adopts.parents, adopts.blocks, AList.lookup_insert]
  exact ⟨rfl, (AList.mem_insert _).mpr (.inr (imp.parent_stored skeleton))⟩

private theorem storedParent_adopted {p : Bytes32} (h : store.storedParent r = some p) :
    adopted.storedParent r = some p := by
  obtain ⟨hparent, hp⟩ := storedParent_eq_some.mp h
  by_cases hroot : r = signed.message.block.hashTreeRoot ssz
  · subst hroot
    have hlink := planted.link fix skeleton imp (skeleton.parented.mp (mem_of_lookup hparent))
    rw [hparent] at hlink
    rw [hlink]
    exact storedParent_root skeleton imp adopts
  · rw [storedParent_eq_some, adopts.parents, adopts.blocks,
      AList.lookup_insert_ne hroot]
    exact ⟨hparent, (AList.mem_insert _).mpr (.inr hp)⟩

private theorem climbs_adopted (h : Climbs store.storedParent r x) :
    Climbs adopted.storedParent r x :=
  h.congr fun _ _ _ hstep => planted.storedParent_adopted fix skeleton imp adopts hstep

private theorem storedParent_cases (skeleton' : Skeleton rank adopted) {p : Bytes32}
    (h : adopted.storedParent r = some p) (hroot : r ≠ signed.message.block.hashTreeRoot ssz) :
    store.storedParent r = some p := by
  obtain ⟨hparent, hp⟩ := storedParent_eq_some.mp h
  have hold : store.parents.lookup r = some p := by
    rw [adopts.parents, AList.lookup_insert_ne hroot] at hparent
    exact hparent
  have hr : r ∈ store.blocks :=
    skeleton.stored.mpr (skeleton.parented.mp (mem_of_lookup hold))
  rw [storedParent_eq_some]
  refine ⟨hold, ?_⟩
  by_cases htop : r = top
  · -- the top waits for no descendant of its own
    rw [adopts.blocks, AList.mem_insert] at hp
    refine hp.resolve_left ?_
    rintro rfl
    have hclimb : Climbs adopted.storedParent (signed.message.block.hashTreeRoot ssz) top :=
      .step (storedParent_root skeleton imp adopts)
        (planted.climbs_adopted fix skeleton imp adopts
          (planted.below (imp.parent_stored skeleton)))
    exact skeleton'.falls_storedParent.not_climbs h (htop ▸ hclimb)
  · obtain ⟨p', hp'⟩ := planted.exists_parent hr htop
    obtain ⟨hparent', hmem⟩ := storedParent_eq_some.mp hp'
    rw [hold, Option.some_inj] at hparent'
    exact hparent' ▸ hmem

/-- **An import keeps the tree.** -/
theorem enter (skeleton' : Skeleton rank adopted) :
    Planted ssz verifier (generateGenesis ssz genesisTime validators) headers top adopted := by
  have hext := processSignedBlock_extends imp.imported
  have hstored := imp.parent_stored skeleton
  have hlookup : ∀ {r signed'}, adopted.blocks.lookup r = some signed' →
      r = signed.message.block.hashTreeRoot ssz ∧ signed' = signed ∨
        r ≠ signed.message.block.hashTreeRoot ssz ∧ store.blocks.lookup r = some signed' := by
    intro r signed' h
    rw [adopts.blocks, lookup_insert_some, eq_comm (a := signed)] at h
    exact h
  have hstate : ∀ {r state}, adopted.states.lookup r = some state →
      r = signed.message.block.hashTreeRoot ssz ∧ state = postState ∨
        r ≠ signed.message.block.hashTreeRoot ssz ∧ store.states.lookup r = some state ∧
          r ∈ store.blocks := by
    intro r state h
    rw [adopts.states, lookup_insert_some, eq_comm (a := postState)] at h
    exact h.imp_right fun ⟨hroot, h⟩ =>
      ⟨hroot, h, skeleton.stored.mpr (skeleton.stated.mp (mem_of_lookup h))⟩
  have hslots : ∀ {r}, r ∈ store.blocks → adopted.slotOf r = store.slotOf r :=
    fun hr => planted.slotOf_adopted fix imp adopts hr
  have hclimbs : ∀ {r x}, Climbs store.storedParent r x → Climbs adopted.storedParent r x :=
    fun h => planted.climbs_adopted fix skeleton imp adopts h
  have hroot := storedParent_root skeleton imp adopts
  constructor
  case named =>
    intro r signed' h
    rcases hlookup h with ⟨rfl, rfl⟩ | ⟨_, hold⟩
    · exact ⟨rfl, imp.header⟩
    · exact planted.named hold
  case linked =>
    intro r signed' h hne
    rw [adopts.parents]
    rcases hlookup h with ⟨rfl, rfl⟩ | ⟨hother, hold⟩
    · exact AList.lookup_insert _
    · rw [AList.lookup_insert_ne hother]
      exact planted.linked hold hne
  case stored =>
    rw [adopts.blocks]
    exact (AList.mem_insert _).mpr (.inr planted.stored)
  case below =>
    intro r hr
    rw [adopts.blocks, AList.mem_insert] at hr
    rcases hr with rfl | hr
    · exact .step hroot (hclimbs (planted.below hstored))
    · exact hclimbs (planted.below hr)
  case falls =>
    intro r p h
    by_cases hr : r = signed.message.block.hashTreeRoot ssz
    · subst hr
      rw [hroot, Option.some_inj] at h
      rw [← h, hslots hstored, slotOf_root adopts]
      exact planted.parent_slot_lt imp
    · have hold := planted.storedParent_cases fix skeleton imp adopts skeleton' h hr
      rw [hslots (storedParent_eq_some.mp hold).2,
        hslots (skeleton.mem_of_storedParent hold)]
      exact planted.falls hold
  case chained =>
    intro r state h
    rcases hstate h with ⟨-, rfl⟩ | ⟨_, hold, _⟩
    · obtain ⟨blocks, history, hchain, hself⟩ := planted.chained imp.parent
      refine ⟨_, _, hchain.imported imp.imported, ?_⟩
      intro signed' hmem
      rcases List.mem_append.mp hmem with h | h
      · exact hself signed' h
      · rw [List.mem_singleton.mp h]
        exact imp.noSelf
    · exact planted.chained hold
  case slotted =>
    intro r state h count hmem heq
    rcases hstate h with ⟨rfl, rfl⟩ | ⟨_, hold, hr⟩
    · rw [slotOf_root adopts]
      exact hext.slot_eq
    · rw [hslots hr]
      exact planted.slotted hold count hmem heq
  case ancestors =>
    intro r state i x h hslot habove hget hne
    rw [hslots planted.stored] at habove
    rcases hstate h with ⟨rfl, rfl⟩ | ⟨_, hold, hr⟩
    · obtain ⟨blocks, history, hchain, -⟩ := planted.chained imp.parent
      have hlength := hchain.length_history
      have hparent := planted.parent_slot imp
      rcases hext.entry hget hne with hold | ⟨hend, rfl⟩
      · obtain ⟨hclimb, hat⟩ := planted.ancestors imp.parent hparent habove hold hne
        exact ⟨.step hroot (hclimbs hclimb), by rw [hslots (mem_of_climbs hstored hclimb), hat]⟩
      · refine ⟨.step hroot (.refl _ _), ?_⟩
        rw [hslots hstored, ← hparent, hend, hlength]
    · rw [hslots hr] at hslot
      obtain ⟨hclimb, hat⟩ := planted.ancestors hold hslot habove hget hne
      exact ⟨hclimbs hclimb, by rw [hslots (mem_of_climbs hr hclimb), hat]⟩

end Enter

/-! ## Pruning -/

section Trim

variable {new : ForkChoiceStore} {finalized : Bytes32}

private theorem climbs_trimmed (falls : Falls store.storedParent store.slotOf)
    (skeleton' : Skeleton rank new) (trimmed : Trimmed store finalized new)
    (hx : Below store finalized x) (h : Climbs store.storedParent r x)
    (hr : Below store finalized r) : Climbs new.storedParent r x := by
  induction h using Relation.ReflTransGen.head_induction_on with
  | refl => exact .refl _ _
  | @head r p hup hclimb ih =>
    -- only the finalized block has its link cut, and it does not lie below itself
    have hne : r ≠ finalized := by
      rintro rfl
      exact falls.not_climbs hup (hclimb.trans hx.2)
    have hp : Below store finalized p := by
      refine ⟨(storedParent_eq_some.mp hup).2, ?_⟩
      exact ((climbs_of_up hup).mp hr.2).resolve_left hne
    refine .step ?_ (ih hp)
    rw [storedParent_eq_some]
    refine ⟨?_, skeleton'.stored.mpr (trimmed.kept.mpr hp)⟩
    rw [trimmed.parents (trimmed.kept.mpr hr) hne]
    exact (storedParent_eq_some.mp hup).1

/-- **A prune leaves the tree under the finalized block.** -/
theorem trim (planted : Planted ssz verifier genesis headers top store)
    (skeleton' : Skeleton rank new) (stored : finalized ∈ store.blocks)
    (trimmed : Trimmed store finalized new) :
    Planted ssz verifier genesis headers finalized new := by
  have hfinal : Below store finalized finalized := ⟨stored, .refl _ _⟩
  have hmem : ∀ {r}, r ∈ new.blocks ↔ Below store finalized r :=
    skeleton'.stored.trans trimmed.kept
  have hslots : ∀ {r}, Below store finalized r → new.slotOf r = store.slotOf r :=
    fun hr => slotOf_congr (trimmed.blocks (trimmed.kept.mpr hr))
  have hblocks : ∀ {r signed}, new.blocks.lookup r = some signed →
      Below store finalized r ∧ store.blocks.lookup r = some signed := by
    intro r signed h
    have hr := hmem.mp (mem_of_lookup h)
    exact ⟨hr, by rw [← h, trimmed.blocks (trimmed.kept.mpr hr)]⟩
  have hstates : ∀ {r state}, new.states.lookup r = some state →
      Below store finalized r ∧ store.states.lookup r = some state := by
    intro r state h
    have hr := trimmed.kept.mp (skeleton'.stated.mp (mem_of_lookup h))
    exact ⟨hr, by rw [← h, trimmed.states (trimmed.kept.mpr hr)]⟩
  have hclimbs : ∀ {r x}, Below store finalized r → Below store finalized x →
      Climbs store.storedParent r x → Climbs new.storedParent r x :=
    fun hr hx h => climbs_trimmed planted.falls skeleton' trimmed hx h hr
  constructor
  case named =>
    intro r signed h
    exact planted.named (hblocks h).2
  case linked =>
    intro r signed h hne
    obtain ⟨hr, hold⟩ := hblocks h
    have htop : r ≠ top := by
      rintro rfl
      exact hne (hr.2.antisymm planted.falls (planted.below stored))
    rw [trimmed.parents (trimmed.kept.mpr hr) hne]
    exact planted.linked hold htop
  case stored => exact hmem.mpr hfinal
  case below =>
    intro r hr
    exact hclimbs (hmem.mp hr) hfinal (hmem.mp hr).2
  case falls =>
    intro r p h
    obtain ⟨hparent, hp⟩ := storedParent_eq_some.mp h
    have hr : r ∈ new.nodeIndices := skeleton'.parented.mp (mem_of_lookup hparent)
    have hne : r ≠ finalized := by
      rintro rfl
      rw [trimmed.top, Option.some_inj] at hparent
      exact skeleton'.ne_zero hp hparent.symm
    rw [trimmed.parents hr hne] at hparent
    rw [hslots (hmem.mp hp), hslots (trimmed.kept.mp hr)]
    exact planted.falls (storedParent_eq_some.mpr ⟨hparent, (hmem.mp hp).1⟩)
  case chained =>
    intro r state h
    exact planted.chained (hstates h).2
  case slotted =>
    intro r state h count hheader heq
    rw [hslots (hstates h).1]
    exact planted.slotted (hstates h).2 count hheader heq
  case ancestors =>
    intro r state i x h hslot habove hget hne
    obtain ⟨hr, hold⟩ := hstates h
    rw [hslots hr] at hslot
    rw [hslots hfinal] at habove
    obtain ⟨hclimb, hat⟩ := planted.ancestors hold hslot
      ((planted.top_le stored).trans habove) hget hne
    -- of two ancestors the one at the higher slot lies below the other
    have hx : Below store finalized x := by
      refine ⟨mem_of_climbs hr.1 hclimb, ?_⟩
      rcases hclimb.total hr.2 with hbelow | habove'
      · exact hbelow
      · rw [habove'.eq_of_rank_le planted.falls (hat ▸ habove)]
        exact .refl _ _
    exact ⟨hclimbs hr hx hclimb, by rw [hslots hx, hat]⟩

end Trim

/-! ## The start -/

variable {blocks : List SignedBlockWithAttestation}

/-- **The store over one anchor is planted.** -/
theorem of_new {genesisTime : Nat} {validators : Validators}
    {history : History}
    (accepted : ForkChoiceStore.new ssz anchor anchorState = .ok first)
    (skeleton : Skeleton rank first) (fix : CollisionFree ssz headers)
    (header : anchor.message.block.header ssz ∈ headers)
    (chain : Chain ssz verifier (generateGenesis ssz genesisTime validators) blocks history
      anchorState) (noSelf : NoSelfReference ssz blocks) :
    Planted ssz verifier (generateGenesis ssz genesisTime validators) headers
      (anchor.message.block.hashTreeRoot ssz) first := by
  have heq := new_eq accepted
  have hblocks : first.blocks = AList.insert (anchor.message.block.hashTreeRoot ssz) anchor ∅ := by
    rw [heq]
    rfl
  have hstates :
      first.states = AList.insert (anchor.message.block.hashTreeRoot ssz) anchorState ∅ := by
    rw [heq]
    rfl
  have hparents : first.parents = AList.insert (anchor.message.block.hashTreeRoot ssz)
      anchor.message.block.parentRoot ∅ := by
    rw [heq]
    rfl
  have hslot : first.slotOf (anchor.message.block.hashTreeRoot ssz) = anchor.message.block.slot :=
    slotOf_eq (by rw [hblocks, AList.lookup_insert])
  constructor
  case named =>
    intro r signed h
    rw [hblocks, lookup_single] at h
    obtain ⟨rfl, rfl⟩ := h
    exact ⟨rfl, header⟩
  case linked =>
    intro r signed h hne
    rw [hblocks, lookup_single] at h
    exact absurd h.1 hne
  case stored =>
    rw [hblocks]
    exact mem_single.mpr rfl
  case below =>
    intro r hr
    rw [hblocks, mem_single] at hr
    rw [hr]
    exact .refl _ _
  case falls =>
    intro r p h
    obtain ⟨hparent, hp⟩ := storedParent_eq_some.mp h
    rw [hparents, lookup_single] at hparent
    rw [hblocks, mem_single] at hp
    obtain rfl : r = p := hparent.1.trans hp.symm
    exact absurd (.refl _ _) (skeleton.falls_storedParent.not_climbs h)
  case chained =>
    intro r state h
    rw [hstates, lookup_single] at h
    obtain ⟨-, rfl⟩ := h
    exact ⟨blocks, history, chain, noSelf⟩
  case slotted =>
    intro r state h count hmem hroot
    rw [hstates, lookup_single] at h
    obtain ⟨rfl, rfl⟩ := h
    have hheader := fix _ hmem _ header hroot
    obtain ⟨stateRoot, hloop⟩ := processSlotLoop_eq ssz count anchorState
    rw [hloop] at hheader
    rw [hslot]
    exact congrArg BlockHeader.slot hheader
  case ancestors =>
    intro r state i x h hheader habove hget _
    rw [hstates, lookup_single] at h
    obtain ⟨rfl, rfl⟩ := h
    -- the history ends below the anchor's slot
    have hlt := (List.getElem?_eq_some_iff.mp hget).1
    rw [chain.length_history] at hlt
    omega

end Planted

/-! ## Valid runs -/

section Runs

variable (ssz : Ssz) (verifier : SignatureVerifier)

/-- The headers a step hashes: the block's, and the one its parent root is compared with. -/
def Step.headers (step : Step) : List BlockHeader :=
  match step.enters ssz with
  | none => []
  | some signed =>
    signed.message.block.header ssz ::
      ((step.before.states.lookup signed.message.block.parentRoot).map fun parentState =>
        (processSlotLoop ssz (signed.message.block.slot - parentState.slot)
          parentState).latestBlockHeader).toList

/-- The headers of a run. -/
def headersOf (anchor : SignedBlockWithAttestation) (steps : List Step) : List BlockHeader :=
  anchor.message.block.header ssz :: steps.flatMap (·.headers ssz)

/-- Roots are those of an ideal hash: the parent links form no cycle, no two headers of the run
share a root, and no block has the zero root. -/
structure SoundRun (anchor : SignedBlockWithAttestation) (steps : List Step) : Prop where
  acyclic : ∀ root, ¬ Relation.TransGen
    (fun r q => (r, q) ∈ linksOf ssz (blocksOf ssz anchor steps)) root root
  collisionFree : CollisionFree ssz (headersOf ssz anchor steps)
  nonzero : ∀ block ∈ blocksOf ssz anchor steps, block.hashTreeRoot ssz ≠ Bytes32.zero

/-- An import extends a stored block, with the state its parent's stored state leads to. -/
def Step.Valid (step : Step) : Prop :=
  match step.event with
  | .block signed postState => ∃ parentState,
    step.before.states.lookup signed.message.block.parentRoot = some parentState ∧
      processSignedBlock ssz verifier signed parentState = .ok () postState
  | _ => True

/-- Whether a step is valid, evaluated. -/
def Step.isValid (step : Step) : Bool :=
  match step.event with
  | .block signed postState =>
    match step.before.states.lookup signed.message.block.parentRoot with
    | none => false
    | some parentState =>
      match processSignedBlock ssz verifier signed parentState with
      | .ok () reached => decide (reached = postState)
      | .error _ _ => false
  | _ => true

end Runs

/-- Validity, evaluated. -/
theorem Step.valid_of_isValid {step : Step} (h : step.isValid ssz verifier = true) :
    step.Valid ssz verifier := by
  unfold Step.isValid at h
  unfold Step.Valid
  split at h
  · split at h
    · cases h
    · rename_i parentState hparent
      split at h
      · rename_i reached himport
        rw [decide_eq_true_eq] at h
        exact ⟨parentState, hparent, h ▸ himport⟩
      · cases h
  · trivial

/-- What every call keeps holds at the end of a run. -/
theorem Run.invariant (Inv : ForkChoiceStore → Prop)
    (Allowed : Step → Prop) (run : Run ssz first steps store) (start : Inv first)
    (keeps : ∀ before event after, Inv before → Allowed ⟨before, event⟩ →
      before.handle ssz event = some after → Inv after) (allowed : ∀ step ∈ steps, Allowed step) :
    Inv store := by
  induction run with
  | start => exact start
  | step _ handled ih =>
    have hbefore := ih fun step hstep => allowed step (List.mem_append_left _ hstep)
    exact keeps _ _ _ hbefore (allowed _ (by simp)) handled

section Handle

variable {genesisTime : Nat} {validators : Validators}
  {headers : List BlockHeader} {top : Bytes32} {store : ForkChoiceStore} {rank : Bytes32 → Nat}
  {event : Event}

/-- What a valid call does to a planted store: it changes votes, or imports a block. -/
inductive Grows (ssz : Ssz) (verifier : SignatureVerifier) (genesis : State)
    (headers : List BlockHeader) (rank : Bytes32 → Nat) (top : Bytes32) (store : ForkChoiceStore)
    (next : ForkChoiceStore) : Event → Prop where
  | revoted {event : Event} (revoted : Revoted store next) :
      Grows ssz verifier genesis headers rank top store next event
  | imported {signed : SignedBlockWithAttestation} {parentState postState : State}
      {adopted : ForkChoiceStore}
      (imp : Planted.Import ssz verifier headers store signed parentState postState)
      (adopts : Adopted ssz signed postState true store adopted)
      (planted : Planted ssz verifier genesis headers top adopted)
      (consistent : Consistent rank adopted)
      (settled : Settled (postState.latestFinalized.slot > store.latestFinalized.slot) adopted
        next) :
      Grows ssz verifier genesis headers rank top store next (.block signed postState)

/-- What a step of a sound run brings into the store. -/
structure Sound (ssz : Ssz) (headers : List BlockHeader) (rank : Bytes32 → Nat) (step : Step) :
    Prop where
  nonzero : ∀ signed ∈ step.enters ssz, signed.message.block.hashTreeRoot ssz ≠ Bytes32.zero
  falls : ∀ signed ∈ step.enters ssz,
    rank signed.message.block.parentRoot < rank (signed.message.block.hashTreeRoot ssz)
  headers : step.headers ssz ⊆ headers
  noSelf : ∀ signed ∈ step.enters ssz, ∀ att ∈ signed.message.block.body.attestations.items,
    NotSelf ssz (signed.message.block.header ssz).staged att

/-- The steps of a sound run are sound, under one rank that falls from the anchor too. -/
theorem SoundRun.exists_rank (sound : SoundRun ssz anchor steps)
    (noSelf : NoSelfReference ssz (steps.filterMap (·.enters ssz))) :
    ∃ rank : Bytes32 → Nat,
      rank anchor.message.block.parentRoot < rank (anchor.message.block.hashTreeRoot ssz) ∧
      ∀ step ∈ steps, Sound ssz (headersOf ssz anchor steps) rank step := by
  obtain ⟨rank, hfalls⟩ := Forests.exists_rank _ sound.acyclic
  have hlink : ∀ block ∈ blocksOf ssz anchor steps,
      rank block.parentRoot < rank (block.hashTreeRoot ssz) :=
    fun block hblock => hfalls _ _ (List.mem_map.mpr ⟨block, hblock, rfl⟩)
  refine ⟨rank, hlink _ List.mem_cons_self, fun step hstep => ?_⟩
  have hentered : ∀ signed ∈ step.enters ssz, signed ∈ steps.filterMap (·.enters ssz) :=
    fun signed h => List.mem_filterMap.mpr ⟨step, hstep, h⟩
  have hblock : ∀ signed ∈ step.enters ssz,
      signed.message.block ∈ blocksOf ssz anchor steps :=
    fun signed h => List.mem_cons_of_mem _ (List.mem_map_of_mem (hentered signed h))
  exact {
    nonzero := fun signed h => sound.nonzero _ (hblock signed h)
    falls := fun signed h => hlink _ (hblock signed h)
    headers := fun header h =>
      List.mem_cons_of_mem _ (List.mem_flatMap.mpr ⟨step, hstep, h⟩)
    noSelf := fun signed h => noSelf signed (hentered signed h) }

/-- **Every valid call returns and grows the tree.** -/
theorem Planted.handle
    (planted : Planted ssz verifier (generateGenesis ssz genesisTime validators) headers top store)
    (consistent : Consistent rank store) (headed : Headed store) (fix : CollisionFree ssz headers)
    (sound : Sound ssz headers rank ⟨store, event⟩) (valid : Step.Valid ssz verifier ⟨store, event⟩) :
    ∃ next, store.handle ssz event = some next ∧ Consistent rank next ∧ Headed next ∧
      Grows ssz verifier (generateGenesis ssz genesisTime validators) headers rank top store next
        event := by
  cases event with
  | block signed postState =>
    rw [handle_block]
    by_cases hmatch : ForkChoiceStore.stateMatchesBlockRoot ssz postState
        signed.message.block.stateRoot
    · rw [if_pos hmatch]
      have henters : Step.enters ssz ⟨store, .block signed postState⟩ = some signed :=
        if_pos hmatch
      obtain ⟨parentState, hparent, himported⟩ := valid
      have hheaders : Step.headers ssz ⟨store, .block signed postState⟩ =
          [signed.message.block.header ssz, (processSlotLoop ssz
            (signed.message.block.slot - parentState.slot) parentState).latestBlockHeader] := by
        rw [Step.headers, henters]
        show _ :: ((store.states.lookup _).map _).toList = _
        rw [hparent]
        rfl
      have hsub := sound.headers
      rw [hheaders] at hsub
      have imp : Planted.Import ssz verifier headers store signed parentState postState :=
        ⟨hparent, himported, sound.noSelf signed henters, hsub (by simp), hsub (by simp)⟩
      obtain ⟨adopted, next, hnext, hadopts, hconsistent, hsettled, hconsistent', hheaded⟩ :=
        import_spec consistent (sound.nonzero signed henters) (fun _ => sound.falls signed henters)
          (planted.link fix consistent.skeleton imp) postState true headed
      exact ⟨next, hnext, hconsistent', hheaded, .imported imp hadopts
        (planted.enter fix consistent.skeleton imp hadopts hconsistent.skeleton) hconsistent
        hsettled⟩
    · rw [if_neg hmatch]
      exact ⟨store, rfl, consistent, headed, .revoted (.refl store)⟩
  | attestation attestation =>
    have hrevoted : Revoted store
        { store with latestNewVotes := stageVote store store.latestNewVotes attestation } :=
      ⟨⟨rfl, rfl, rfl, rfl, rfl, .refl _⟩, rfl, rfl, fun h => h.congr rfl rfl rfl rfl rfl rfl⟩
    exact ⟨_, applyPending_eq store attestation,
      consistent.stage (consistent.knownVotes_stageVote consistent.newVotes attestation),
      hrevoted.headed headed, .revoted hrevoted⟩
  | accept =>
    obtain ⟨next, hnext, hconsistent, hrevoted, _⟩ := acceptNewVotes_spec consistent
    exact ⟨next, hnext, hconsistent, hrevoted.headed headed, .revoted hrevoted⟩
  | propose =>
    obtain ⟨next, hnext, hconsistent, hrevoted, _⟩ := getProposalHead_spec consistent
    exact ⟨next, hnext, hconsistent, hrevoted.headed headed, .revoted hrevoted⟩
  | proposeWith pendingVotes =>
    obtain ⟨next, hnext, hconsistent, hrevoted, _⟩ :=
      getProposalHeadWithPending_spec consistent pendingVotes
    exact ⟨next, hnext, hconsistent, hrevoted.headed headed, .revoted hrevoted⟩

end Handle

/-- **A valid run leaves a planted store**, under the anchor or what history was pruned to. -/
theorem Run.planted {genesisTime : Nat} {validators : Validators}
    {history : History}
    (chain : Chain ssz verifier (generateGenesis ssz genesisTime validators) blocks history
      anchorState) (accepted : ForkChoiceStore.new ssz anchor anchorState = .ok first)
    (run : Run ssz first steps store) (sound : SoundRun ssz anchor steps)
    (noSelf : NoSelfReference ssz (blocks ++ steps.filterMap (·.enters ssz)))
    (valid : ∀ step ∈ steps, step.Valid ssz verifier) :
    ∃ rank top, Consistent rank store ∧ Headed store ∧
      Planted ssz verifier (generateGenesis ssz genesisTime validators)
        (headersOf ssz anchor steps) top store := by
  obtain ⟨rank, hanchor, hsound⟩ := sound.exists_rank
    fun signed h => noSelf signed (List.mem_append_right _ h)
  have hnonzero := sound.nonzero _ List.mem_cons_self
  have hconsistent := new_consistent accepted hnonzero fun _ => hanchor
  refine ⟨rank, Run.invariant
    (fun store => ∃ top, Consistent rank store ∧ Headed store ∧
      Planted ssz verifier (generateGenesis ssz genesisTime validators)
        (headersOf ssz anchor steps) top store)
    (fun step => Sound ssz (headersOf ssz anchor steps) rank step ∧ step.Valid ssz verifier)
    run ⟨_, hconsistent, new_headed accepted hnonzero fun _ => hanchor,
      .of_new accepted hconsistent.skeleton sound.collisionFree List.mem_cons_self chain
        fun signed h => noSelf signed (List.mem_append_left _ h)⟩ ?_
    fun step h => ⟨hsound step h, valid step h⟩⟩
  rintro before event after ⟨top, hconsistent, hheaded, hplanted⟩ ⟨hsound, hvalid⟩ handled
  obtain ⟨next, hhandled, hconsistent', hheaded', hgrows⟩ :=
    hplanted.handle hconsistent hheaded sound.collisionFree hsound hvalid
  obtain rfl : after = next := Option.some_inj.mp (handled.symm.trans hhandled)
  cases hgrows with
  | revoted hrevoted => exact ⟨top, hconsistent', hheaded', hplanted.congr hrevoted.tree⟩
  | imported imp hadopts hadopted _ hsettled =>
    cases hsettled with
    | kept _ hkept => exact ⟨top, hconsistent', hheaded', hadopted.congr hkept.tree⟩
    | pruned _ hstored hpruned =>
      exact ⟨_, hconsistent', hheaded',
        hadopted.trim hconsistent'.skeleton hstored hpruned.trimmed⟩

end Peam
