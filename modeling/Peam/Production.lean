import Peam.Duties

/-!
# The block production task

A pass of `spawn_block_production_task` with everything it shares with the other tasks: the live
state, the file store, the fork choice and the pending pool. The block is built on the state stored
for the fork choice's head, and imported against the live state. An import that fails on the parent
puts the attestations back without their proofs and is tried once more.

What is published is the signed block; the network task and the encoding are left out. A fork choice
that does not take the block is left as it was, as after an error of `on_block`.
-/

namespace Peam

open Calls (Failure)

/-- The cells block production reads and writes. -/
structure ProducerCells where
  live : State
  store : FileStore
  forkChoice : Option ForkChoiceStore
  pending : List PendingBlockAttestation

/-- How an attempt at a proposal ends: no block was produced, the store refused it, or it was
imported. -/
inductive ProposalResult where
  | skipped
  | refused (e : Failure) (signed : SignedBlockWithAttestation)
  | imported (signed : SignedBlockWithAttestation)

/-- `load_proposal_pre_state`. -/
def FileStore.loadProposalPreState (store : FileStore) (live : State)
    (proposalHeadRoot : Option Bytes32) : State :=
  ((proposalHeadRoot <|> store.live.head).bind store.getState).getD live

/-- The one error of an import that is retried. -/
def parentMismatch : Failure := .err "block parent root does not match latest header root"

namespace ProducerCells

/-- `requeue_block_attestations`. -/
def requeueBlockAttestations (cells : ProducerCells) (attestations : List Attestation) :
    ProducerCells :=
  { cells with pending := cells.pending ++ attestations.map fun attestation => ⟨attestation, none⟩ }

/-- The state the next proposal is built on. -/
def preState (cells : ProducerCells) : State :=
  cells.store.loadProposalPreState cells.live (cells.forkChoice.map (·.head))

section Task

variable (ssz : Ssz) (order : List Attestation → List Attestation) {K : Type}
  (node : SigningNode K)

/-- The fork choice after an import: a first block starts it. -/
def nextForkChoice (cells : ProducerCells) (signed : SignedBlockWithAttestation)
    (postState : State) : Option ForkChoiceStore :=
  match cells.forkChoice with
  | none => (ForkChoiceStore.new ssz signed postState).toOption
  | some fc =>
    match fc.onBlock ssz signed postState with
    | some (.ok next) => some next
    | _ => some fc

/-- A block in `handle_gossip_event`: the fork choice is shown the block's stored post-state. -/
def handleGossipBlock (verifier : SignatureVerifier) (cells : ProducerCells)
    (signed : SignedBlockWithAttestation) : ProducerCells :=
  let root := signed.message.block.hashTreeRoot ssz
  match cells.store.putSignedBlockInner ssz verifier root signed cells.live with
  | .error _ => cells
  | .ok (store, live) =>
    let cells := { cells with store, live }
    { cells with
      forkChoice := cells.nextForkChoice ssz signed ((store.getState root).getD live) }

/-- One turn of the attempt loop, up to its result. -/
def attempt (cells : ProducerCells) (slot : Nat) : ProposalResult × ProducerCells :=
  let produced := (produceBlockWithSignatures ssz (forkChoiceApi ssz order) node cells.preState slot
    cells.forkChoice cells.pending).1
  let cells := { cells with pending := [] }
  match produced with
  | none => (.skipped, cells)
  | some (signed, postState) =>
    match cells.store.putPrevalidatedSignedBlock ssz (signed.message.block.hashTreeRoot ssz) signed
      cells.live postState with
    | .error e => (.refused e signed, cells)
    | .ok (store, live) =>
      let cells := { cells with store, live }
      (.imported signed, { cells with forkChoice := cells.nextForkChoice ssz signed live })

/-- The attempt loop, with the attempts left. -/
def attempts (slot : Nat) :
    Nat → ProducerCells → Option SignedBlockWithAttestation × ProducerCells
  | 0, cells => (none, cells)
  | left + 1, cells =>
    match cells.attempt ssz order node slot with
    | (.skipped, cells) => (none, cells)
    | (.imported signed, cells) => (some signed, cells)
    | (.refused e signed, cells) =>
      if e = parentMismatch then
        attempts slot left
          (cells.requeueBlockAttestations signed.message.block.body.attestations.items)
      else (none, cells)

/-- The loop body of `spawn_block_production_task`: the block it publishes, and the cells after. -/
def pass (cells : ProducerCells) (now : Option Nat) :
    Option SignedBlockWithAttestation × ProducerCells :=
  match now with
  | none => (none, cells)
  | some now =>
    let slot := slotIndexFromUnixMillis node.genesisTimeSecs now
    let validatorCount := cells.live.validators.items.length
    if validatorCount = 0 then (none, cells)
    else if slot ≤ cells.live.slot then (none, cells)
    -- "Avoid proposing on stale state that is multiple slots behind."
    else if slot ≠ cells.live.slot + 1 then (none, cells)
    else if slot % validatorCount ≠ node.localIndex then (none, cells)
    else cells.attempts ssz order node slot 2

end Task

end ProducerCells

end Peam
