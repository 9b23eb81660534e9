import Peam.Laws.Lineage

/-!
# The head and finality

The two checkpoints of the store name stored blocks and the head lies at or below both, as long as
the store only adopts checkpoints from the anchor's slot on (`head_respectsFinality`).

`override_checkpoint_roots` gives the anchor's root to checkpoints that keep the slots of the
anchor's post-state. So past genesis a child may justify a slot between them and the anchor. Its
checkpoint is adopted, but names a block that is not stored, and the head is stuck from then on
(`justified_not_stored`).
-/

namespace Peam

open Forests

variable {checkpoint : Checkpoint} {genesis : State}

/-- The checkpoints and the head are stored, and the head lies at or below both checkpoints. -/
structure RespectsFinality (store : ForkChoiceStore) : Prop where
  justified : store.latestJustified.root ∈ store.blocks
  finalized : store.latestFinalized.root ∈ store.blocks
  head : store.head ∈ store.blocks
  belowJustified : Climbs store.storedParent store.head store.latestJustified.root
  belowFinalized : Climbs store.storedParent store.head store.latestFinalized.root

/-- A checkpoint the step's post-state would have the store adopt is not below the slot. -/
def Step.AdoptsFrom (slot : Nat) (step : Step) : Prop :=
  match step.event with
  | .block _ postState =>
    (postState.latestJustified.slot > step.before.latestJustified.slot →
      slot ≤ postState.latestJustified.slot) ∧
    (postState.latestFinalized.slot > step.before.latestFinalized.slot →
      slot ≤ postState.latestFinalized.slot)
  | _ => True

variable {ssz : Ssz} {verifier : SignatureVerifier} {genesisTime : Nat}
  {validators : Validators} {headers : List BlockHeader}
  {rank : Bytes32 → Nat} {top : Bytes32} {store next : ForkChoiceStore} {anchorSlot : Nat}

/-! ## Checkpoints of the store -/

/-- A checkpoint names a stored block of its slot, or is the anchor's with another slot. -/
structure Held (anchorSlot : Nat) (top : Bytes32) (store : ForkChoiceStore)
    (checkpoint : Checkpoint) : Prop where
  stored : checkpoint.root ∈ store.blocks
  slot : store.slotOf checkpoint.root = checkpoint.slot ∨
    checkpoint.root = top ∧ store.slotOf top = anchorSlot

private theorem Held.congr (held : Held anchorSlot top store checkpoint)
    (tree : SameTree store next) : Held anchorSlot top next checkpoint := by
  refine ⟨tree.blocks ▸ held.stored, ?_⟩
  rw [tree.slotOf_eq, tree.slotOf_eq]
  exact held.slot

private theorem Held.top_le
    (planted : Planted ssz verifier (generateGenesis ssz genesisTime validators) headers top store)
    (held : Held anchorSlot top store checkpoint) {slot : Nat} (higher : slot > checkpoint.slot)
    (above : anchorSlot ≤ slot) : store.slotOf top ≤ slot := by
  rcases held.slot with hslot | ⟨-, hslot⟩
  · have hle := planted.top_le held.stored
    omega
  · omega

/-- What the store must keep: a tree under the finalized block, which is not below the anchor, and
two held checkpoints. -/
structure Respecting (ssz : Ssz) (verifier : SignatureVerifier) (genesis : State)
    (headers : List BlockHeader) (rank : Bytes32 → Nat) (anchorSlot : Nat)
    (store : ForkChoiceStore) : Prop where
  consistent : Consistent rank store
  headed : Headed store
  planted : Planted ssz verifier genesis headers store.latestFinalized.root store
  above : anchorSlot ≤ store.slotOf store.latestFinalized.root
  justified : Held anchorSlot store.latestFinalized.root store store.latestJustified
  finalized : Held anchorSlot store.latestFinalized.root store store.latestFinalized

/-- **A store that keeps the invariant respects finality.** -/
theorem Respecting.respectsFinality
    (inv : Respecting ssz verifier genesis headers rank anchorSlot store) :
    RespectsFinality store where
  justified := inv.justified.stored
  finalized := inv.planted.stored
  head := inv.headed.stored
  belowJustified := by
    obtain ⟨head, hfound, hghost⟩ :=
      inv.consistent.findHead_spec (inv.consistent.skeleton.stored.mp inv.justified.stored)
    rw [inv.headed.found, Option.some_inj] at hfound
    rw [hfound]
    exact hghost.climbs
  belowFinalized := inv.planted.below inv.headed.stored

/-! ## One call -/

section Adopt

variable {signed : SignedBlockWithAttestation} {parentState postState : State} {proposer : Bool}
  {adopted : ForkChoiceStore}

/-- The checkpoint an import adopts: the post-state's, which names a stored block of its slot, or
the one the store had. -/
theorem Held.adopt
    (planted : Planted ssz verifier (generateGenesis ssz genesisTime validators) headers top store)
    (fix : CollisionFree ssz headers)
    (imp : Planted.Import ssz verifier headers store signed parentState postState)
    (adopts : Adopted ssz signed postState proposer store adopted)
    (planted' : Planted ssz verifier (generateGenesis ssz genesisTime validators) headers top
      adopted)
    {old new : Checkpoint} (held : Held anchorSlot top store old)
    (entry : new.slot = 0 ∨ InHistory postState new)
    (above : new.slot > old.slot → anchorSlot ≤ new.slot) :
    Held anchorSlot top adopted (higher old new) ∧
      (new.slot > old.slot → adopted.slotOf new.root = new.slot) := by
  have hslots : ∀ {r}, r ∈ store.blocks → adopted.slotOf r = store.slotOf r :=
    fun hr => planted.slotOf_adopted fix imp adopts hr
  have hroot : signed.message.block.hashTreeRoot ssz ∈ adopted.blocks := by
    rw [adopts.blocks]
    exact (AList.mem_insert _).mpr (.inl rfl)
  by_cases hhigher : new.slot > old.slot
  · rw [higher, if_pos hhigher]
    have htop : adopted.slotOf top ≤ new.slot := by
      rw [hslots planted.stored]
      exact held.top_le planted hhigher (above hhigher)
    have hentry := entry.resolve_left (by omega)
    obtain ⟨hstored, -, hslot⟩ := planted'.checkpoint
      (by rw [adopts.states, AList.lookup_insert]) hroot
      ((processSignedBlock_extends imp.imported).slot_eq.trans (Planted.slotOf_root adopts).symm)
      hentry htop
    exact ⟨⟨hstored, .inl hslot⟩, fun _ => hslot⟩
  · rw [higher, if_neg hhigher]
    refine ⟨⟨?_, ?_⟩, fun h => absurd h hhigher⟩
    · rw [adopts.blocks]
      exact (AList.mem_insert _).mpr (.inr held.stored)
    · rw [hslots held.stored, hslots planted.stored]
      exact held.slot

private theorem Held.trim {finalized : Bytes32}
    (planted : Planted ssz verifier genesis headers top store)
    (skeleton' : Skeleton rank next) (stored : finalized ∈ store.blocks)
    (trimmed : Trimmed store finalized next) (held : Held anchorSlot top store checkpoint)
    (kept : checkpoint.root ∈ next.nodeIndices) : Held anchorSlot finalized next checkpoint := by
  have hslots : ∀ {r}, r ∈ next.nodeIndices → next.slotOf r = store.slotOf r :=
    fun hr => slotOf_congr (trimmed.blocks hr)
  refine ⟨skeleton'.stored.mpr kept, ?_⟩
  rw [hslots kept]
  refine held.slot.imp_right ?_
  rintro ⟨hroot, hslot⟩
  -- the old top is kept only if it is the finalized block
  have hbelow := trimmed.kept.mp kept
  have htop : checkpoint.root = finalized :=
    hbelow.2.antisymm planted.falls (hroot ▸ planted.below stored)
  refine ⟨htop, ?_⟩
  rw [← htop, hslots kept, hroot]
  exact hslot

/-- The end of an import keeps the invariant, if its first stage left a tree under the same top and
two held checkpoints. -/
theorem Respecting.imported {genesis : State}
    (inv : Respecting ssz verifier genesis headers rank anchorSlot store)
    (adopts : Adopted ssz signed postState proposer store adopted)
    (planted : Planted ssz verifier genesis headers store.latestFinalized.root adopted)
    (topSlot : adopted.slotOf store.latestFinalized.root = store.slotOf store.latestFinalized.root)
    (justified : Held anchorSlot store.latestFinalized.root adopted adopted.latestJustified)
    (finalized : Held anchorSlot store.latestFinalized.root adopted adopted.latestFinalized)
    (slot : postState.latestFinalized.slot > store.latestFinalized.slot →
      adopted.slotOf postState.latestFinalized.root = postState.latestFinalized.slot)
    (above : postState.latestFinalized.slot > store.latestFinalized.slot →
      anchorSlot ≤ postState.latestFinalized.slot)
    (settled : Settled (postState.latestFinalized.slot > store.latestFinalized.slot) adopted next)
    (consistent : Consistent rank next) (headed : Headed next) :
    Respecting ssz verifier genesis headers rank anchorSlot next := by
  cases settled with
  | kept stays hkept =>
    -- a checkpoint that moved would be stored, so it did not
    have hstill : adopted.latestFinalized = store.latestFinalized := by
      rw [adopts.finalized, higher, if_neg fun hmoved => stays ⟨hmoved, finalized.stored⟩]
    rw [hstill] at finalized
    refine ⟨consistent, headed, ?_, ?_, ?_, ?_⟩ <;> rw [hkept.finalized, hstill]
    · exact planted.congr hkept.tree
    · rw [hkept.tree.slotOf_eq, topSlot]
      exact inv.above
    · rw [hkept.justified]
      exact justified.congr hkept.tree
    · exact finalized.congr hkept.tree
  | pruned moves stored hpruned =>
    have hnew : adopted.latestFinalized = postState.latestFinalized := by
      rw [adopts.finalized, higher, if_pos moves]
    have hskeleton := consistent.skeleton
    have hkept : adopted.latestFinalized.root ∈ next.nodeIndices :=
      hpruned.trimmed.kept.mpr ⟨stored, .refl _ _⟩
    have hfin := finalized.trim planted hskeleton stored hpruned.trimmed hkept
    refine ⟨consistent, headed, ?_, ?_, ?_, ?_⟩ <;> rw [hpruned.finalized]
    · exact planted.trim hskeleton stored hpruned.trimmed
    · rw [slotOf_congr (hpruned.trimmed.blocks hkept), hnew, slot moves]
      exact above moves
    · rw [hpruned.justified]
      split
      · rename_i hmem
        exact justified.trim planted hskeleton stored hpruned.trimmed hmem
      · exact hfin
    · exact hfin

end Adopt

/-- **A valid call that adopts no checkpoint from below the anchor keeps the invariant.** -/
theorem Respecting.handle {event : Event}
    (inv : Respecting ssz verifier (generateGenesis ssz genesisTime validators) headers rank
      anchorSlot store)
    (fix : CollisionFree ssz headers) (sound : Sound ssz headers rank ⟨store, event⟩)
    (valid : Step.Valid ssz verifier ⟨store, event⟩)
    (adopts : Step.AdoptsFrom anchorSlot ⟨store, event⟩)
    (handled : store.handle ssz event = some next) :
    Respecting ssz verifier (generateGenesis ssz genesisTime validators) headers rank anchorSlot
      next := by
  obtain ⟨next', hhandled, hconsistent, hheaded, hgrows⟩ :=
    inv.planted.handle inv.consistent inv.headed fix sound valid
  obtain rfl : next = next' := Option.some_inj.mp (handled.symm.trans hhandled)
  cases hgrows with
  | revoted hrevoted =>
    refine ⟨hconsistent, hheaded, ?_, ?_, ?_, ?_⟩ <;> rw [hrevoted.finalized]
    · exact inv.planted.congr hrevoted.tree
    · rw [hrevoted.tree.slotOf_eq]
      exact inv.above
    · rw [hrevoted.justified]
      exact inv.justified.congr hrevoted.tree
    · exact inv.finalized.congr hrevoted.tree
  | @imported signed parentState postState adopted imp hadopts hplanted hconsistent' hsettled =>
    obtain ⟨blocks, history, hchain, hself⟩ :=
      hplanted.chained (by rw [hadopts.states, AList.lookup_insert])
    obtain ⟨hjentry, hfentry⟩ := hchain.checkpoints_inHistory hself
    obtain ⟨hjustified, -⟩ :=
      Held.adopt inv.planted fix imp hadopts hplanted inv.justified hjentry adopts.1
    obtain ⟨hfinalized, hfslot⟩ :=
      Held.adopt inv.planted fix imp hadopts hplanted inv.finalized hfentry adopts.2
    rw [← hadopts.justified] at hjustified
    rw [← hadopts.finalized] at hfinalized
    exact inv.imported hadopts hplanted
      (inv.planted.slotOf_adopted fix imp hadopts inv.planted.stored) hjustified hfinalized hfslot
      adopts.2 hsettled hconsistent hheaded

/-! ## Runs -/

section Runs

variable {anchor : SignedBlockWithAttestation} {anchorState : State} {first : ForkChoiceStore}
  {steps : List Step} {blocks : List SignedBlockWithAttestation} {history : History}

/-- The store over an anchor: both checkpoints are the anchor, whatever their slots. -/
theorem Respecting.of_new (accepted : ForkChoiceStore.new ssz anchor anchorState = .ok first)
    (fix : CollisionFree ssz headers) (header : anchor.message.block.header ssz ∈ headers)
    (nonzero : anchor.message.block.hashTreeRoot ssz ≠ Bytes32.zero)
    (falls : rank anchor.message.block.parentRoot < rank (anchor.message.block.hashTreeRoot ssz))
    (chain : Chain ssz verifier (generateGenesis ssz genesisTime validators) blocks history
      anchorState)
    (noSelf : NoSelfReference ssz blocks) :
    Respecting ssz verifier (generateGenesis ssz genesisTime validators) headers rank
      anchor.message.block.slot first := by
  have hconsistent := new_consistent accepted nonzero fun _ => falls
  have hplanted := Planted.of_new accepted hconsistent.skeleton fix header chain noSelf
  have heq := new_eq accepted
  have hjustified : first.latestJustified.root = anchor.message.block.hashTreeRoot ssz := by
    rw [heq]
    rfl
  have hfinalized : first.latestFinalized.root = anchor.message.block.hashTreeRoot ssz := by
    rw [heq]
    rfl
  have hslot : first.slotOf (anchor.message.block.hashTreeRoot ssz) = anchor.message.block.slot := by
    have hblocks : first.blocks = AList.insert (anchor.message.block.hashTreeRoot ssz) anchor ∅ := by
      rw [heq]
      rfl
    exact slotOf_eq (by rw [hblocks, AList.lookup_insert])
  refine ⟨hconsistent, new_headed accepted nonzero fun _ => falls, ?_, ?_, ⟨?_, .inr ⟨?_, ?_⟩⟩,
    ⟨?_, .inr ⟨rfl, ?_⟩⟩⟩ <;> simp only [hjustified, hfinalized, hslot, le_refl]
  · exact hplanted
  · exact hplanted.stored
  · exact hplanted.stored

/-- **The head respects finality**, over every run of valid imports and any votes that adopts no
checkpoint from below the anchor. -/
theorem head_respectsFinality
    (chain : Chain ssz verifier (generateGenesis ssz genesisTime validators) blocks history
      anchorState)
    (accepted : ForkChoiceStore.new ssz anchor anchorState = .ok first)
    (run : Run ssz first steps store) (sound : SoundRun ssz anchor steps)
    (noSelf : NoSelfReference ssz (blocks ++ steps.filterMap (·.enters ssz)))
    (valid : ∀ step ∈ steps, step.Valid ssz verifier)
    (adopts : ∀ step ∈ steps, step.AdoptsFrom anchor.message.block.slot) :
    RespectsFinality store := by
  have hself : NoSelfReference ssz blocks :=
    fun signed h => noSelf signed (List.mem_append_left _ h)
  obtain ⟨rank, hanchor, hsound⟩ := sound.exists_rank
    fun signed h => noSelf signed (List.mem_append_right _ h)
  have hstart := Respecting.of_new accepted sound.collisionFree List.mem_cons_self
    (sound.nonzero _ List.mem_cons_self) hanchor chain hself
  refine (Run.invariant _ (fun step => Sound ssz (headersOf ssz anchor steps) rank step ∧
    step.Valid ssz verifier ∧ step.AdoptsFrom anchor.message.block.slot) run hstart ?_
    fun step h => ⟨hsound step h, valid step h, adopts step h⟩).respectsFinality
  rintro before event after hinv ⟨hsound, hvalid, hadopts⟩ handled
  exact hinv.handle sound.collisionFree hsound hvalid hadopts handled

/-- Over genesis there is nothing below the anchor. -/
theorem Step.adoptsFrom_zero (step : Step) : step.AdoptsFrom 0 := by
  unfold Step.AdoptsFrom
  split
  · exact ⟨fun _ => Nat.zero_le _, fun _ => Nat.zero_le _⟩
  · trivial

/-- Four blocks on genesis; the fourth finalizes the second. -/
def finalizingPlan : List PlannedBlock :=
  [⟨1, []⟩, ⟨2, [⟨0, 1, voters 3 3#8⟩]⟩, ⟨3, [⟨1, 2, voters 3 6#8⟩]⟩,
    ⟨4, [⟨2, 3, voters 3 5#8⟩]⟩]

/-- The four blocks arrive in order. -/
def finalizingRun : List Step × ForkChoiceStore :=
  (play anchorSsz (anchoredStore anchorGenesis)
    (plannedEvents finalizingPlan anchorGenesis)).getD ([], anchoredStore anchorGenesis)

/-- The law at a run that prunes. -/
theorem head_respectsFinality_finalizing :
    finalizingRun.2.latestFinalized.slot = 2 ∧ finalizingRun.2.blocks.keys.length = 3 ∧
      RespectsFinality finalizingRun.2 := by
  have hrun : Run anchorSsz (anchoredStore anchorGenesis) finalizingRun.1 finalizingRun.2 :=
    Run.of_play (by decide +kernel)
  have hfalls : ∀ link ∈ linksOf anchorSsz
      (blocksOf anchorSsz (anchorOf anchorGenesis) finalizingRun.1),
      placeIn (anchoredRoots finalizingPlan anchorGenesis) link.2 <
        placeIn (anchoredRoots finalizingPlan anchorGenesis) link.1 := by
    decide +kernel
  have hvalid : ∀ step ∈ finalizingRun.1, step.isValid anchorSsz noopSignatureVerifier = true := by
    decide +kernel
  refine ⟨by decide +kernel, by decide +kernel,
    head_respectsFinality .genesis (new_anchoredStore (by decide +kernel)) hrun
      ⟨acyclic_of_rank hfalls, by decide +kernel, by decide +kernel⟩ (by decide +kernel)
      (fun step h => Step.valid_of_isValid (hvalid step h)) fun step _ => ?_⟩
  exact step.adoptsFrom_zero

/-! ## An anchor above its checkpoints -/

/-- Three empty blocks on genesis, and the state they lead to. -/
def lateAnchor : History × State :=
  (importBlocks anchorSsz noopSignatureVerifier
    (buildBlocks anchorSsz noopSignatureVerifier [⟨1, []⟩, ⟨2, []⟩, ⟨3, []⟩] anchorGenesis)
    (History.empty, anchorGenesis)).getD (History.empty, anchorGenesis)

/-- A child of the third block justifies the first. -/
def lateAnchorPlan : List PlannedBlock := [⟨4, [⟨0, 1, voters 3 3#8⟩]⟩]

/-- The child arrives at a node that started from the third block. -/
def lateAnchorRun : List Step × ForkChoiceStore :=
  (play anchorSsz (anchoredStore lateAnchor.2)
    (plannedEvents lateAnchorPlan lateAnchor.2)).getD ([], anchoredStore lateAnchor.2)

/-- **A valid run after which the justified block is not stored**: the node starts from slot 3, and
the block of slot 4 justifies slot 1. The head stays at the anchor. -/
theorem justified_not_stored :
    ∃ blocks history,
      Chain anchorSsz noopSignatureVerifier anchorGenesis blocks history lateAnchor.2 ∧
      ForkChoiceStore.new anchorSsz (anchorOf lateAnchor.2) lateAnchor.2 =
        .ok (anchoredStore lateAnchor.2) ∧
      Run anchorSsz (anchoredStore lateAnchor.2) lateAnchorRun.1 lateAnchorRun.2 ∧
      SoundRun anchorSsz (anchorOf lateAnchor.2) lateAnchorRun.1 ∧
      NoSelfReference anchorSsz (blocks ++ lateAnchorRun.1.filterMap (·.enters anchorSsz)) ∧
      (∀ step ∈ lateAnchorRun.1, step.Valid anchorSsz noopSignatureVerifier) ∧
      lateAnchorRun.2.latestJustified.slot = 1 ∧
      lateAnchorRun.2.latestJustified.root ∉ lateAnchorRun.2.blocks ∧
      lateAnchorRun.2.head = (anchorOf lateAnchor.2).message.block.hashTreeRoot anchorSsz ∧
      ¬ RespectsFinality lateAnchorRun.2 := by
  have hfalls : ∀ link ∈ linksOf anchorSsz
      (blocksOf anchorSsz (anchorOf lateAnchor.2) lateAnchorRun.1),
      placeIn (anchoredRoots lateAnchorPlan lateAnchor.2) link.2 <
        placeIn (anchoredRoots lateAnchorPlan lateAnchor.2) link.1 := by
    decide +kernel
  have hvalid : ∀ step ∈ lateAnchorRun.1, step.isValid anchorSsz noopSignatureVerifier = true := by
    decide +kernel
  have hmissing : lateAnchorRun.2.latestJustified.root ∉ lateAnchorRun.2.blocks := by
    decide +kernel
  exact ⟨_, _, chain_of_imports (by decide +kernel), new_anchoredStore (by decide +kernel),
    Run.of_play (by decide +kernel),
    ⟨acyclic_of_rank hfalls, by decide +kernel, by decide +kernel⟩, by decide +kernel,
    fun step h => Step.valid_of_isValid (hvalid step h), by decide +kernel, hmissing,
    by decide +kernel, fun respects => hmissing respects.justified⟩

end Runs

end Peam
