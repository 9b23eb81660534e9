import Peam.Slot

/-!
# Containers

The records of `src/containers/` and their hash tree roots. A root is built from the parameter
`Ssz` exactly as the source builds it, so which fields a root commits to can be read off here: a
validator's `balance` is in no root, and a block's root is the root of its header.

`State` is the state of one chain. `generateGenesis` is the only way this development starts a run.
-/

namespace Peam

open Packed (Byte)
open Calls (Outcome)

/-! ## Limits -/

def historicalRootsLimit : Nat := 262144
def validatorRegistryLimit : Nat := 4096
def justificationValidatorsLimit : Nat := 1073741824
def attestationsLimit : Nat := 4096
def proofMaxBytes : Nat := 1048576

/-! ## Records -/

/-- `ValidatorIndex::is_proposer_for`: proposers take turns by slot. -/
def isProposerFor (index : Nat) (slot : Nat) (numValidators : Nat) : Bool :=
  if numValidators = 0 then false else slot % numValidators == index

structure Config where
  genesisTime : Nat
  deriving DecidableEq

@[ext]
structure Checkpoint where
  root : Bytes32
  slot : Nat
  deriving DecidableEq

structure Validator where
  pubkey : Bytes52
  index : Nat
  balance : Nat
  deriving DecidableEq

abbrev Validators := LimitedList Validator validatorRegistryLimit

structure AttestationData where
  slot : Nat
  head : Checkpoint
  target : Checkpoint
  source : Checkpoint
  deriving DecidableEq

structure Attestation where
  aggregationBits : BitList validatorRegistryLimit
  data : AttestationData
  deriving DecidableEq

/-- `ByteList<LIMIT>`. Only the checked decoder enforces the limit. -/
structure ByteList (limit : Nat) where
  data : List Byte
  deriving DecidableEq

structure AggregatedSignatureProof where
  participants : BitList validatorRegistryLimit
  proofData : ByteList proofMaxBytes
  deriving DecidableEq

structure BlockHeader where
  slot : Nat
  proposerIndex : Nat
  parentRoot : Bytes32
  stateRoot : Bytes32
  bodyRoot : Bytes32
  deriving DecidableEq

structure BlockBody where
  attestations : SszList Attestation attestationsLimit
  deriving DecidableEq

structure Block where
  slot : Nat
  proposerIndex : Nat
  parentRoot : Bytes32
  stateRoot : Bytes32
  body : BlockBody
  deriving DecidableEq

structure BlockWithAttestation where
  block : Block
  proposerAttestation : Attestation
  deriving DecidableEq

structure BlockSignatures where
  attestationSignatures : SszList AggregatedSignatureProof attestationsLimit
  proposerSignature : Bytes3112
  deriving DecidableEq

structure SignedBlockWithAttestation where
  message : BlockWithAttestation
  signature : BlockSignatures
  deriving DecidableEq

/-- The consensus state. -/
structure State where
  config : Config
  slot : Nat
  latestBlockHeader : BlockHeader
  latestJustified : Checkpoint
  latestFinalized : Checkpoint
  historicalBlockHashes : LimitedList Bytes32 historicalRootsLimit
  justifiedSlots : BitList historicalRootsLimit
  validators : Validators
  justificationsRoots : LimitedList Bytes32 historicalRootsLimit
  justificationsValidators : BitList justificationValidatorsLimit
  deriving DecidableEq

/-! ## Hash tree roots -/

variable (ssz : Ssz)

def Config.hashTreeRoot (config : Config) : Bytes32 := uint64Root config.genesisTime

def Checkpoint.hashTreeRoot (checkpoint : Checkpoint) : Bytes32 :=
  ssz.hashNodes checkpoint.root (uint64Root checkpoint.slot)

/-- `Bytes52`: the first 32 bytes, then the last 20 padded with zeros on the right. -/
def pubkeyRoot (pubkey : Bytes52) : Bytes32 :=
  ssz.hashNodes ((pubkey >>> 160).setWidth 256) (pubkey.setWidth 256 <<< 96)

/-- A validator's root leaves `balance` out. -/
def Validator.hashTreeRoot (validator : Validator) : Bytes32 :=
  ssz.hashNodes (pubkeyRoot ssz validator.pubkey) (uint64Root validator.index)

def AttestationData.hashTreeRoot (data : AttestationData) : Bytes32 :=
  ssz.hashNodes
    (ssz.hashNodes (uint64Root data.slot) (data.head.hashTreeRoot ssz))
    (ssz.hashNodes (data.target.hashTreeRoot ssz) (data.source.hashTreeRoot ssz))

def BitList.hashTreeRoot {limit : Nat} (bits : BitList limit) : Bytes32 :=
  ssz.bitListRoot limit bits.data bits.len

def Attestation.hashTreeRoot (att : Attestation) : Bytes32 :=
  ssz.hashNodes (att.aggregationBits.hashTreeRoot ssz) (att.data.hashTreeRoot ssz)

def BlockHeader.hashTreeRoot (header : BlockHeader) : Bytes32 :=
  ssz.merkleizeTreeRoot
    [uint64Root header.slot, uint64Root header.proposerIndex, header.parentRoot,
      header.stateRoot, header.bodyRoot]

def BlockBody.hashTreeRoot (body : BlockBody) : Bytes32 :=
  ssz.listRoot attestationsLimit (body.attestations.items.map (·.hashTreeRoot ssz))

def Block.header (block : Block) : BlockHeader where
  slot := block.slot
  proposerIndex := block.proposerIndex
  parentRoot := block.parentRoot
  stateRoot := block.stateRoot
  bodyRoot := block.body.hashTreeRoot ssz

def Block.hashTreeRoot (block : Block) : Bytes32 :=
  ssz.merkleizeTreeRoot
    [uint64Root block.slot, uint64Root block.proposerIndex, block.parentRoot,
      block.stateRoot, block.body.hashTreeRoot ssz]

def State.hashTreeRoot (state : State) : Bytes32 :=
  ssz.merkleize
    [state.config.hashTreeRoot,
      uint64Root state.slot,
      state.latestBlockHeader.hashTreeRoot ssz,
      state.latestJustified.hashTreeRoot ssz,
      state.latestFinalized.hashTreeRoot ssz,
      ssz.listRoot historicalRootsLimit state.historicalBlockHashes.items,
      state.justifiedSlots.hashTreeRoot ssz,
      ssz.listRoot validatorRegistryLimit
        (state.validators.items.map (·.hashTreeRoot ssz)),
      ssz.listRoot historicalRootsLimit state.justificationsRoots.items,
      state.justificationsValidators.hashTreeRoot ssz]

/-! ## Genesis -/

/-- `EMPTY_BLOCK_BODY_ROOT_BYTES`. -/
def emptyBlockBodyRoot : Bytes32 :=
  0xdba9671bac9513c9482f1416a53aabd2c6ce90d5a5f865ce5a55c775325c9136#256

/-- The genesis state before its header carries a state root. -/
def genesisDraft (genesisTime : Nat) (validators : Validators) :
    State where
  config := { genesisTime }
  slot := 0
  latestBlockHeader :=
    { slot := 0, proposerIndex := 0, parentRoot := Bytes32.zero, stateRoot := Bytes32.zero,
      bodyRoot := emptyBlockBodyRoot }
  latestJustified := { root := Bytes32.zero, slot := 0 }
  latestFinalized := { root := Bytes32.zero, slot := 0 }
  historicalBlockHashes := LimitedList.empty
  justifiedSlots := BitList.default
  validators
  justificationsRoots := LimitedList.empty
  justificationsValidators := BitList.default

/-- `State::generate_genesis`. -/
def generateGenesis (genesisTime : Nat) (validators : Validators) :
    State :=
  let draft := genesisDraft genesisTime validators
  { draft with
    latestBlockHeader :=
      { draft.latestBlockHeader with stateRoot := draft.hashTreeRoot ssz } }

/-! ## Structural checks of a signed block -/

/-- The scan of `single_set_bit` over the indices left, with the bit found so far. The loop stops
at the first index past the bytes, and returns nothing at a second set bit. -/
def singleSetBitScan (data : List Byte) : List Nat → Option Nat → Option Nat
  | [], found => found
  | i :: rest, found =>
    if i / 8 ≥ data.length then found
    else if (data.getD (i / 8) 0#8).getLsbD (i % 8) then
      if found.isSome then none else singleSetBitScan data rest (some i)
    else singleSetBitScan data rest found

/-- `single_set_bit`. -/
def singleSetBit (bits : BitList validatorRegistryLimit) : Option Nat :=
  singleSetBitScan bits.data (List.range bits.len) none

/-- `set_bits`: the indices of the set bits, in ascending order. -/
def setBits (bits : BitList validatorRegistryLimit) : List Nat :=
  (List.range bits.len).filter bits.get

/-- The bit list of `vec![false; i + 1]` with its last bit set. -/
def singleBit (i : Nat) : BitList validatorRegistryLimit :=
  ⟨Packed.setBit (List.replicate (i / 8 + 1) 0#8) i, i + 1⟩

/-- The first index, counted from `idx`, at which a proof names other participants than its
attestation. -/
def participantsMismatch : Nat → List (Attestation × AggregatedSignatureProof) → Option Nat
  | _, [] => none
  | idx, (attestation, proof) :: rest =>
    if proof.participants ≠ attestation.aggregationBits then some idx
    else participantsMismatch (idx + 1) rest

/-- `SignedBlockWithAttestation::validate_basic`. -/
def SignedBlockWithAttestation.validateBasic (signed : SignedBlockWithAttestation) :
    Outcome Unit := do
  let block := signed.message.block
  let sigs := signed.signature.attestationSignatures.items
  let atts := block.body.attestations.items
  Outcome.failIf (sigs.length ≠ atts.length)
    s!"attestation signatures count {sigs.length} does not match attestations {atts.length}"
  match participantsMismatch 0 (atts.zip sigs) with
  | some idx => Outcome.err s!"attestation aggregate participants mismatch at index {idx}"
  | none =>
    let proposerAttestation := signed.message.proposerAttestation
    Outcome.failIf (proposerAttestation.data.slot ≠ block.slot)
      "proposer attestation slot does not match block slot"
    match singleSetBit proposerAttestation.aggregationBits with
    | none => Outcome.err "proposer attestation must have exactly one participant"
    | some proposerBit =>
      Outcome.failIf (proposerBit ≠ block.proposerIndex)
        "proposer attestation does not match proposer index"

end Peam
