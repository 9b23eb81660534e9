import Peam.CheckpointSync
import Peam.Signing

/-!
# The fork choice behind the tasks

The tasks of `src/node/tasks.rs` are modelled against what they ask of a fork choice store
(`ForkChoiceApi`). Here the store of `src/fork_choice.rs` answers. The attestations of a pending
pool reach it in the order of a hash map, which `order` stands for.

Where a loop of the model did not end, a call would have no answer; the laws show that this does not
happen on a reachable store, and the answer given for it here is the store as it was.
-/

namespace Peam

open Calls (Outcome)

variable (ssz : Ssz)

/-- `placeholder_signed_block`. -/
def placeholderSignedBlock (block : Block) : Outcome SignedBlockWithAttestation := do
  let proposerIndex := block.proposerIndex
  let limit := validatorRegistryLimit
  Outcome.failIf (proposerIndex ≥ limit)
    s!"proposer validator index {proposerIndex} exceeds registry limit {limit}"
  return selfVoting ssz block

/-- The store as the tasks see it. -/
def forkChoiceApi (order : List Attestation → List Attestation) :
    ForkChoiceApi ForkChoiceStore where
  latestJustified := (·.latestJustified)
  latestFinalized := (·.latestFinalized)
  head := (·.head)
  headSlot := (·.headSlot)
  checkpointForRoot := ForkChoiceStore.checkpointForRoot
  attestationTarget store finalizedSlot := (store.attestationTarget finalizedSlot).join
  proposalHeadWithPending store pendingVotes :=
    let next := (store.getProposalHeadWithPending (order pendingVotes)).getD store
    (next.head, next)
  importPreview store block postState := do
    let preview ← placeholderSignedBlock ssz block
    (store.importBlockInternal ssz preview postState false).getD (.ok store)

end Peam
