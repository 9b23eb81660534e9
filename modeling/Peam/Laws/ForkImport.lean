import Peam.Laws.Prune

/-!
# What an import does

`import_block_internal` in two stages. When the block, its votes and the checkpoints of its
post-state are in, the store is `Adopted`. If finality moved to a stored block, history is pruned;
otherwise the tree stays (`Settled`). Either way the head is looked up last, so the store an import
leaves is headed (`import_spec`).
-/

namespace Peam

open Loops (foldlM_of_step)

variable {ssz : Ssz} {rank : Bytes32 → Nat} {store : ForkChoiceStore}
variable {signed : SignedBlockWithAttestation} {postState : State} {proposer : Bool}

/-- The checkpoint with the higher slot, the old one on a tie. -/
def higher (old new : Checkpoint) : Checkpoint := if new.slot > old.slot then new else old

/-- The checkpoints only go up. -/
theorem adoptCheckpoints_eq (store : ForkChoiceStore) (postState : State) :
    ∃ previousJustified, store.adoptCheckpoints postState =
      { store with
        previousJustified
        latestJustified := higher store.latestJustified postState.latestJustified
        latestFinalized := higher store.latestFinalized postState.latestFinalized } := by
  rw [ForkChoiceStore.adoptCheckpoints]
  by_cases hj : postState.latestJustified.slot > store.latestJustified.slot <;>
    by_cases hf : postState.latestFinalized.slot > store.latestFinalized.slot <;>
    simp only [hj, hf, if_true, if_false, higher] <;>
    exact ⟨_, rfl⟩

/-! ## Votes of a block -/

/-- Staging reads the stored blocks only. -/
theorem stageVote_congr {store' : ForkChoiceStore} (blocks : store'.blocks = store.blocks) :
    stageVote store' = stageVote store := by
  funext votes attestation
  rw [stageVote, stageVote, blocks]

private theorem applyActiveAll_spec (consistent : Consistent rank store)
    (attestations : List Attestation) :
    ∃ voted, attestations.foldlM (fun store attestation =>
        store.applyAttestationVotes attestation .active) store = some voted ∧
      Consistent rank voted ∧
      Voted (attestations.foldl (stageVote store) store.latestVotes) store.latestNewVotes store
        voted := by
  refine foldlM_of_step
    (fun seen voted => Consistent rank voted ∧
      Voted (seen.foldl (stageVote store) store.latestVotes) store.latestNewVotes store voted)
    attestations ?_ ⟨consistent, .refl store, rfl, rfl, rfl, rfl, rfl, rfl⟩
  rintro seen attestation rest current _ ⟨hconsistent, hvoted⟩
  obtain ⟨next, happly, hnext, hvoted'⟩ := applyActive_spec hconsistent attestation
  have hvotes : activeVotes current attestation =
      (seen ++ [attestation]).foldl (stageVote store) store.latestVotes := by
    rw [List.foldl_append, ← hvoted.votes, ← stageVote_congr hvoted.tree.blocks]
    rfl
  rw [hvotes, hvoted.newVotes] at hvoted'
  exact ⟨next, happly, hnext, hvoted.trans hvoted'⟩

/-! ## The two stages -/

/-- The store when the block, its votes and its post-state's checkpoints are in. -/
structure Adopted (ssz : Ssz) (signed : SignedBlockWithAttestation) (postState : State)
    (proposer : Bool) (store store' : ForkChoiceStore) : Prop where
  blocks : store'.blocks = store.blocks.insert (signed.message.block.hashTreeRoot ssz) signed
  states : store'.states = store.states.insert (signed.message.block.hashTreeRoot ssz) postState
  parents : store'.parents =
    store.parents.insert (signed.message.block.hashTreeRoot ssz) signed.message.block.parentRoot
  justified : store'.latestJustified = higher store.latestJustified postState.latestJustified
  finalized : store'.latestFinalized = higher store.latestFinalized postState.latestFinalized
  votes : store'.latestVotes =
    (ForkChoiceStore.blockVotes signed proposer).foldl (stageVote store') store.latestVotes
  newVotes : store'.latestNewVotes = store.latestNewVotes

/-- Tree, checkpoints and votes stay. -/
structure Kept (store store' : ForkChoiceStore) : Prop where
  tree : SameTree store store'
  justified : store'.latestJustified = store.latestJustified
  finalized : store'.latestFinalized = store.latestFinalized
  votes : store'.latestVotes = store.latestVotes
  newVotes : store'.latestNewVotes = store.latestNewVotes

private theorem Pruned.of_kept {old pruned store' : ForkChoiceStore} (h : Pruned old pruned)
    (kept : Kept pruned store') (headed : Headed store') : Pruned old store' where
  trimmed := h.trimmed.congr kept.tree
  finalized := kept.finalized.trans h.finalized
  justified := by rw [kept.justified, kept.tree.nodeIndices, h.justified]
  headed := headed
  votes := by
    rw [kept.votes, kept.newVotes, kept.tree.nodeIndices]
    exact h.votes

/-- What an import does to the adopted store: prune it, if finality moved to a stored block. -/
inductive Settled (moved : Prop) (adopted store' : ForkChoiceStore) : Prop where
  | kept (stays : ¬ (moved ∧ adopted.latestFinalized.root ∈ adopted.blocks))
      (kept : Kept adopted store')
  | pruned (moves : moved) (stored : adopted.latestFinalized.root ∈ adopted.blocks)
      (pruned : Pruned adopted store')

/-- Where the head found is stored, the import's own head is not needed. -/
theorem importHead_of_stored {head : Bytes32} (stored : head ∈ store.blocks) (root : Bytes32)
    (slot : Nat) : store.importHead head root slot = store.moveHead head := by
  obtain ⟨found, hfound⟩ := exists_blockSlot stored
  rw [ForkChoiceStore.importHead, hfound]
  rfl

/-- The last part of an import: look the head up and settle it. -/
theorem finish_spec (consistent : Consistent rank store) (stored : store.head ∈ store.blocks)
    (root : Bytes32) (slot : Nat) :
    ∃ store', (do
        let head ← store.findHead
        (store.importHead head root slot).settleHead store.head) = some store' ∧
      Consistent rank store' ∧ Kept store store' ∧ Headed store' := by
  obtain ⟨head, hfound⟩ := consistent.findHead_returns
  have hstored := consistent.findHead_stored stored hfound
  have hconsistent := consistent.moveHead head
  obtain ⟨store', hsettle, hview⟩ := hconsistent.skeleton.settleHead_spec store.head
  refine ⟨store', ?_, hconsistent.of_sameView hview, ?_,
    (headed_moveHead hfound hstored).of_sameView hview⟩
  · rw [hfound]
    show (store.importHead head root slot).settleHead store.head = some store'
    rw [importHead_of_stored hstored]
    exact hsettle
  · have hrevoted := (Revoted.moveHead consistent hfound).trans (.of_sameView hview)
    obtain ⟨newHead, newSlot, hmove, _⟩ := moveHead_eq store head
    refine ⟨hrevoted.tree, hrevoted.justified, hrevoted.finalized, ?_, ?_⟩
    · rw [hview.votes, hmove]
    · rw [hview.newVotes, hmove]

section Import

variable (consistent : Consistent rank store)
  (nonzero : signed.message.block.hashTreeRoot ssz ≠ Bytes32.zero)
  (below : signed.message.block.parentRoot ≠ Bytes32.zero →
    rank signed.message.block.parentRoot < rank (signed.message.block.hashTreeRoot ssz))
  (link : signed.message.block.hashTreeRoot ssz ∈ store.nodeIndices →
    store.parents.lookup (signed.message.block.hashTreeRoot ssz) =
      some signed.message.block.parentRoot)
  (postState : State) (proposer : Bool)

include consistent nonzero below link

/-- The first stage returns; head and finalized checkpoint wait for the second one. -/
theorem adopt_spec :
    ∃ entered voted,
      (store.recordBlock ssz signed postState).insertProtoNode
          (signed.message.block.hashTreeRoot ssz) signed.message.block.parentRoot
          signed.message.block.slot signed.message.block.proposerIndex = some entered ∧
      (ForkChoiceStore.blockVotes signed proposer).foldlM (fun store attestation =>
          store.applyAttestationVotes attestation .active) entered = some voted ∧
      Consistent rank (voted.adoptCheckpoints postState) ∧
      Adopted ssz signed postState proposer store (voted.adoptCheckpoints postState) ∧
      (voted.adoptCheckpoints postState).head = store.head ∧
      voted.latestFinalized = store.latestFinalized := by
  obtain ⟨entered, henter, hconsistent, hentered⟩ :
      ∃ entered, (store.recordBlock ssz signed postState).insertProtoNode _ _ _ _ = some entered ∧
        _ ∧ _ := insert_spec consistent nonzero below link
  obtain ⟨voted, hvote, hconsistent, hvoted⟩ :=
    applyActiveAll_spec hconsistent (ForkChoiceStore.blockVotes signed proposer)
  obtain ⟨previousJustified, hadopt⟩ := adoptCheckpoints_eq voted postState
  have hblocks : (voted.adoptCheckpoints postState).blocks = entered.blocks := by
    rw [hadopt]
    exact hvoted.tree.blocks
  refine ⟨entered, voted, henter, hvote, ?_, ⟨hblocks.trans hentered.blocks, ?_, ?_, ?_, ?_, ?_, ?_⟩,
    ?_, hvoted.finalized.trans hentered.finalized⟩
  · rw [hadopt]
    exact hconsistent.congr ⟨rfl, rfl, rfl, rfl, rfl, .refl _⟩ rfl rfl rfl
  · rw [hadopt]
    exact hvoted.tree.states.trans hentered.states
  · rw [hadopt]
    exact hvoted.tree.parents.trans hentered.parents
  · rw [hadopt, ← hentered.justified, ← hvoted.justified]
  · rw [hadopt, ← hentered.finalized, ← hvoted.finalized]
  · rw [stageVote_congr hblocks, ← hentered.votes, hadopt]
    exact hvoted.votes
  · rw [hadopt]
    exact hvoted.newVotes.trans hentered.newVotes
  · rw [hadopt]
    exact hvoted.head.trans hentered.head

/-- An import returns and leaves a consistent store with its head looked up. -/
theorem import_spec (headed : Headed store) :
    ∃ adopted store', store.importMatching ssz signed postState proposer = some store' ∧
      Adopted ssz signed postState proposer store adopted ∧ Consistent rank adopted ∧
      Settled (postState.latestFinalized.slot > store.latestFinalized.slot) adopted store' ∧
      Consistent rank store' ∧ Headed store' := by
  obtain ⟨entered, voted, henter, hvote, hadopted, hmaps, hhead, hfinalized⟩ :=
    adopt_spec consistent nonzero below link postState proposer
  have hstored : (voted.adoptCheckpoints postState).head ∈
      (voted.adoptCheckpoints postState).blocks := by
    rw [hhead, hmaps.blocks, AList.mem_insert]
    exact .inr headed.stored
  have hslot : voted.latestFinalized.slot = store.latestFinalized.slot := by rw [hfinalized]
  set adopted := voted.adoptCheckpoints postState with hadoptedEq
  -- the store whose head is looked up: the adopted one, or what the prune leaves of it
  obtain ⟨settled, hprune, hsettled, hhead, hstage⟩ : ∃ settled,
      (if postState.latestFinalized.slot > voted.latestFinalized.slot
        then adopted.pruneFinalizedHistory else some adopted) = some settled ∧
      Consistent rank settled ∧ settled.head ∈ settled.blocks ∧
      ∀ store', Kept settled store' → Headed store' →
        Settled (postState.latestFinalized.slot > store.latestFinalized.slot) adopted store' := by
    rw [hslot]
    by_cases hmoved : postState.latestFinalized.slot > store.latestFinalized.slot
    · rw [if_pos hmoved]
      by_cases hfinal : adopted.latestFinalized.root ∈ adopted.blocks
      · obtain ⟨pruned, hprune, hconsistent, hpruned⟩ := prune_spec hadopted hfinal
        exact ⟨pruned, hprune, hconsistent, hpruned.headed.stored,
          fun store' hkept hheaded => .pruned hmoved hfinal (hpruned.of_kept hkept hheaded)⟩
      · exact ⟨adopted, prune_of_unknown hfinal, hadopted, hstored,
          fun store' hkept _ => .kept (fun h => hfinal h.2) hkept⟩
    · rw [if_neg hmoved]
      exact ⟨adopted, rfl, hadopted, hstored,
        fun store' hkept _ => .kept (fun h => hmoved h.1) hkept⟩
  obtain ⟨store', hfinish, hconsistent', hkept, hheaded⟩ := finish_spec hsettled hhead
    (signed.message.block.hashTreeRoot ssz) signed.message.block.slot
  refine ⟨adopted, store', ?_, hmaps, hadopted, hstage store' hkept hheaded, hconsistent', hheaded⟩
  rw [ForkChoiceStore.importMatching]
  simp only [henter, hvote, Option.bind_eq_bind, Option.bind_some, decide_eq_true_eq]
  rw [← hadoptedEq]
  by_cases hmoved : postState.latestFinalized.slot > voted.latestFinalized.slot
  · rw [if_pos hmoved] at hprune ⊢
    rw [hprune]
    exact hfinish
  · rw [if_neg hmoved] at hprune ⊢
    cases hprune
    exact hfinish

end Import

end Peam
