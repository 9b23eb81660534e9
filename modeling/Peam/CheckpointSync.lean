import Peam.FileStore
import Peam.ForkChoice

/-!
# Starting from a checkpoint

`src/checkpoint_sync.rs` and the seeding of store and fork choice in `src/node/mod.rs`. A node that
starts from a downloaded state has no block to go with it. It builds one from the state's header,
with the default body, and seeds everything under that block's root.

The download itself is left out. Debug output of a root is the ssz crate's (`debugRoot`). A failed
seed ends the start of the node, so what it wrote before is not modelled.
-/

namespace Peam

open Calls (Outcome)
open Calls.Outcome (failIf)

section Check

variable (ssz : Ssz) (debugRoot : Bytes32 → String)

/-- One pass of the validator loop of `verify_checkpoint_state`. -/
def verifyCheckpointValidator (expectedGenesis : State) (entry : Validator × Nat) :
    Outcome Unit :=
  let (validator, idx) := entry
  match expectedGenesis.validators.items[idx]? with
  | none => Outcome.err s!"missing genesis validator {idx}"
  | some expected => do
    failIf (validator.pubkey ≠ expected.pubkey)
      s!"checkpoint validator pubkey mismatch at index {idx}"
    failIf (validator.index ≠ idx)
      s!"checkpoint validator index mismatch at {idx}: expected {idx}, got {validator.index}"

/-- `verify_checkpoint_state`. -/
def verifyCheckpointState (state expectedGenesis : State) : Outcome Unit := do
  let count := state.validators.items.length
  let expectedCount := expectedGenesis.validators.items.length
  let time := state.config.genesisTime
  let expectedTime := expectedGenesis.config.genesisTime
  failIf (count = 0) "checkpoint state has empty validator registry"
  failIf (count ≠ expectedCount)
    s!"checkpoint validator count {count} does not match genesis {expectedCount}"
  failIf (time ≠ expectedTime)
    s!"checkpoint genesis_time {time} does not match config {expectedTime}"
  forM state.validators.items.zipIdx (verifyCheckpointValidator expectedGenesis)
  let latestSlot := state.slot
  let header := state.latestBlockHeader
  let headerSlot := header.slot
  failIf (headerSlot > latestSlot)
    s!"checkpoint header slot {headerSlot} is ahead of state slot {latestSlot}"
  let justified := state.latestJustified
  let finalized := state.latestFinalized
  failIf (finalized.slot > latestSlot) "checkpoint finalized slot is in the future"
  failIf (justified.slot < finalized.slot)
    "checkpoint justified slot is before finalized slot"
  failIf (justified.slot = finalized.slot ∧ justified.root ≠ finalized.root)
    "checkpoint justified/finalized roots mismatch at same slot"
  let headerRoot := header.hashTreeRoot ssz
  failIf (finalized.slot = headerSlot ∧ finalized.root ≠ headerRoot)
    "checkpoint finalized root does not match header root"
  failIf (justified.slot = headerSlot ∧ justified.root ≠ headerRoot)
    "checkpoint justified root does not match header root"
  let originalStateRoot := header.stateRoot
  let computedRoot := { state with latestBlockHeader := header.staged }.hashTreeRoot ssz
  let computedText := debugRoot computedRoot
  let originalText := debugRoot originalStateRoot
  failIf (originalStateRoot ≠ Bytes32.zero ∧ originalStateRoot ≠ computedRoot)
    s!"checkpoint state_root mismatch: expected {computedText}, got {originalText}"

end Check

section Anchor

variable (ssz : Ssz)

/-- `build_anchor_block`: the state's header with the default body. -/
def buildAnchorBlock (state : State) : Block where
  slot := state.latestBlockHeader.slot
  proposerIndex := state.latestBlockHeader.proposerIndex
  parentRoot := state.latestBlockHeader.parentRoot
  stateRoot :=
    if state.latestBlockHeader.stateRoot = Bytes32.zero then state.hashTreeRoot ssz
    else state.latestBlockHeader.stateRoot
  body := ⟨SszList.empty⟩

/-- A signed block without signatures, whose proposer votes for the block itself. -/
def selfVoting (block : Block) : SignedBlockWithAttestation :=
  let checkpoint : Checkpoint := ⟨block.hashTreeRoot ssz, block.slot⟩
  { message :=
      { block
        proposerAttestation :=
          { aggregationBits := singleBit block.proposerIndex
            data :=
              { slot := block.slot, head := checkpoint, target := checkpoint,
                source := checkpoint } } }
    signature := { attestationSignatures := SszList.empty, proposerSignature := 0#24896 } }

/-- `build_anchor_signed_block`. -/
def buildAnchorSignedBlock (anchorBlock : Block) : Outcome SignedBlockWithAttestation := do
  let proposerIndex := anchorBlock.proposerIndex
  let limit := validatorRegistryLimit
  failIf (proposerIndex ≥ limit)
    s!"checkpoint proposer index {proposerIndex} exceeds registry limit {limit}"
  return selfVoting ssz anchorBlock

/-- `normalize_genesis_anchor_roots`. -/
def normalizeGenesisAnchorRoots (state : State) (anchorRoot : Bytes32) : State :=
  if state.slot ≠ 0 then state
  else
    { state with
      latestJustified :=
        if state.latestJustified.slot = 0 ∧ state.latestJustified.root = Bytes32.zero then
          { state.latestJustified with root := anchorRoot }
        else state.latestJustified
      latestFinalized :=
        if state.latestFinalized.slot = 0 ∧ state.latestFinalized.root = Bytes32.zero then
          { state.latestFinalized with root := anchorRoot }
        else state.latestFinalized }

/-- `seed_anchor_store_and_fork_choice`: the store, the state and the fork choice it leaves. -/
def seedAnchorStoreAndForkChoice (store : FileStore) (state : State) :
    Outcome (FileStore × State × ForkChoiceStore) := do
  let anchorBlock := buildAnchorBlock ssz state
  let anchorRoot := anchorBlock.hashTreeRoot ssz
  let state := normalizeGenesisAnchorRoots state anchorRoot
  let signedAnchor ← buildAnchorSignedBlock ssz anchorBlock
  let store := store.putAnchorSignedBlock anchorRoot signedAnchor state
  let store := store.setHead anchorRoot
  let store := store.setFinalizedCheckpoint ⟨anchorRoot, anchorBlock.slot⟩
  let store := store.setJustified anchorRoot
  let forkChoice ← ForkChoiceStore.new ssz signedAnchor state
  return (store, state, forkChoice.overrideCheckpointRoots anchorRoot)

/-- The checkpoint branch of `Node::load`, before the seed: a header without a state root gets
one. -/
def fillStateRoot (state : State) : State :=
  if state.latestBlockHeader.stateRoot = Bytes32.zero then
    { state with
      latestBlockHeader :=
        { state.latestBlockHeader with
          stateRoot :=
            { state with latestBlockHeader := state.latestBlockHeader.staged }.hashTreeRoot ssz } }
  else state

/-- The checkpoint branch of `Node::load` once the state is there: check it, then seed from it. -/
def startFromCheckpoint (debugRoot : Bytes32 → String) (store : FileStore)
    (checkpointState expectedGenesis : State) : Outcome (FileStore × State × ForkChoiceStore) := do
  verifyCheckpointState ssz debugRoot checkpointState expectedGenesis
  match seedAnchorStoreAndForkChoice ssz store (fillStateRoot ssz checkpointState) with
  | .error (.err err) => Outcome.err s!"checkpoint sync fork choice init failed: {err}"
  | .error (.panicked text) => .error (.panicked text)
  | .ok seeded => .ok seeded

end Anchor

end Peam
