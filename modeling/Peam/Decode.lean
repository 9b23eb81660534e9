import Peam.Containers

/-!
# Decoders

The SSZ decoders of `src/containers/`. Every slice, `copy_from_slice` and indexed write of the
source is a call that may panic, so a decoder that trusts an offset panics where the program does.

A container has two decoders. `decodeSsz` trusts its input; `decodeSszChecked` is the one for bytes
of a peer. But the elements of a list are always read by the trusting decoder of their type, and the
checked decoder of an attestation only looks at the length first.

`SszCodec` is the crate `peam-ssz`: how its list decoder cuts a byte string into elements, its bit
lists, and its own element type `Bytes32`. The cut is a list of sub-slices and an optional error
after them, so a list that fails half way has handed out its first elements.
-/

namespace Peam

open Packed (Byte)
open Calls (Outcome)
open Calls.Outcome (slice failIf sliceFrom)

/-- The decoders of `peam-ssz`. The flag says whether the checked variant is called. -/
structure SszCodec extends Ssz where
  /-- The sub-slices a list decoder hands out in order, from the element's `fixed_len_opt` and the
  limit, and the error it stops with after them, at the limit for instance. -/
  elements : Bool → Option Nat → Nat → List Byte → List (List Byte) × Option String
  /-- `BitList::decode_ssz` and its checked variant. -/
  bitList : Bool → (limit : Nat) → List Byte → Outcome (BitList limit)
  /-- `Bytes32::decode_ssz`, as the element decoder of a list of roots. -/
  bytes32 : List Byte → Outcome Bytes32

instance : Coe SszCodec Ssz := ⟨SszCodec.toSsz⟩

/-- What the results assume of the crate: its own decoders of bit lists and roots do not panic.
Nothing is assumed of the sub-slices a list is cut into. -/
structure SszCodec.Lawful (codec : SszCodec) : Prop where
  bitList_total : ∀ checked limit bytes, Outcome.Total (codec.bitList checked limit bytes)
  bytes32_total : ∀ bytes, Outcome.Total (codec.bytes32 bytes)

/-! ## Words and arrays -/

/-- `from_slice` of the fixed byte arrays: the first `len` bytes. -/
def fromSlice (len width : Nat) (bytes : List Byte) : Outcome (BitVec width) := do
  let prefixBytes ← slice bytes 0 len
  .ok (BitVec.ofNat width (natOfBytes prefixBytes))

def Bytes32.fromSlice : List Byte → Outcome Bytes32 := Peam.fromSlice 32 256
def Bytes52.fromSlice : List Byte → Outcome Bytes52 := Peam.fromSlice 52 416
def Bytes3112.fromSlice : List Byte → Outcome Bytes3112 := Peam.fromSlice 3112 24896

/-- `u32::from_le_bytes` over `&bytes[lo..lo + 4]`, the reading of every offset. -/
def readU32 (bytes : List Byte) (lo : Nat) : Outcome Nat := do
  let word ← slice bytes lo (lo + 4)
  let buf ← Outcome.copyFromSlice 4 word
  .ok (natOfLeBytes buf)

def Uint64.decodeSsz (bytes : List Byte) : Outcome Nat := do
  let buf ← Outcome.copyFromSlice 8 bytes
  .ok (natOfLeBytes buf)

def Slot.decodeSsz (bytes : List Byte) : Outcome Nat := Uint64.decodeSsz bytes
def ValidatorIndex.decodeSsz (bytes : List Byte) : Outcome Nat := Uint64.decodeSsz bytes

/-- The checked decoder of a record of fixed size: the length decides. -/
def decodeFixedChecked {α : Type} (name : String) (fixedLen : Nat)
    (decode : List Byte → Outcome α) (bytes : List Byte) : Outcome α := do
  failIf (bytes.length ≠ fixedLen) s!"{name} expects {fixedLen} bytes, got {bytes.length}"
  decode bytes

def Slot.decodeSszChecked : List Byte → Outcome Nat :=
  decodeFixedChecked "Slot" 8 Slot.decodeSsz

/-! ## Records of fixed size -/

def Config.decodeSsz (bytes : List Byte) : Outcome Config := do
  let genesisTime ← Uint64.decodeSsz bytes
  .ok { genesisTime }

def Config.decodeSszChecked : List Byte → Outcome Config :=
  decodeFixedChecked "Config" 8 Config.decodeSsz

def Checkpoint.decodeSsz (bytes : List Byte) : Outcome Checkpoint := do
  let root ← slice bytes 0 32 >>= Bytes32.fromSlice
  let slot ← slice bytes 32 40 >>= Slot.decodeSsz
  .ok { root, slot }

def Checkpoint.decodeSszChecked : List Byte → Outcome Checkpoint :=
  decodeFixedChecked "Checkpoint" 40 Checkpoint.decodeSsz

/-- A validator is read without a balance. As the element of a list it has no fixed length. -/
def Validator.decodeSsz (bytes : List Byte) : Outcome Validator := do
  let pubkey ← slice bytes 0 52 >>= Bytes52.fromSlice
  let index ← slice bytes 52 60 >>= ValidatorIndex.decodeSsz
  .ok { pubkey, index, balance := 0 }

def BlockHeader.decodeSsz (bytes : List Byte) : Outcome BlockHeader := do
  let slot ← slice bytes 0 8 >>= Slot.decodeSsz
  let proposerIndex ← slice bytes 8 16 >>= ValidatorIndex.decodeSsz
  let parentRoot ← slice bytes 16 48 >>= Bytes32.fromSlice
  let stateRoot ← slice bytes 48 80 >>= Bytes32.fromSlice
  let bodyRoot ← slice bytes 80 112 >>= Bytes32.fromSlice
  .ok { slot, proposerIndex, parentRoot, stateRoot, bodyRoot }

def BlockHeader.decodeSszChecked : List Byte → Outcome BlockHeader :=
  decodeFixedChecked "BlockHeader" 112 BlockHeader.decodeSsz

/-- `AttestationData::fixed_len()`. -/
def attestationDataLen : Nat := 8 + 40 * 3

def AttestationData.decodeSsz (bytes : List Byte) : Outcome AttestationData := do
  let slot ← slice bytes 0 8 >>= Slot.decodeSsz
  let head ← slice bytes 8 48 >>= Checkpoint.decodeSsz
  let target ← slice bytes 48 88 >>= Checkpoint.decodeSsz
  let source ← slice bytes 88 128 >>= Checkpoint.decodeSsz
  .ok { slot, head, target, source }

def AttestationData.decodeSszChecked : List Byte → Outcome AttestationData :=
  decodeFixedChecked "AttestationData" attestationDataLen AttestationData.decodeSsz

/-! ## Lists -/

/-- The element decoder applied to the sub-slices of a list, in order, until one fails. -/
def decodeElements {α : Type} (decode : List Byte → Outcome α) :
    List (List Byte) → Outcome (List α)
  | [] => .ok []
  | piece :: rest => do
    let item ← decode piece
    let items ← decodeElements decode rest
    .ok (item :: items)

variable (codec : SszCodec)

/-- `SszList::decode_ssz` and `SszList::decode_ssz_checked`. The checked one stops at the limit; the
trusting one does not look at it. -/
def SszList.decode {α : Type} (decode : List Byte → Outcome α) (checked : Bool)
    (fixedLen : Option Nat) (limit : Nat) (bytes : List Byte) : Outcome (SszList α limit) := do
  let pieces := codec.elements checked fixedLen limit bytes
  let items ← decodeElements decode pieces.1
  match pieces.2 with
  | some text => Outcome.err text
  | none => .ok ⟨items⟩

/-- The decoders of a state's lists. A state keeps its lists within their limits, so a longer one is
an error here in the trusting variant too. -/
def LimitedList.decode {α : Type} (decode : List Byte → Outcome α) (checked : Bool)
    (fixedLen : Option Nat) (limit : Nat) (bytes : List Byte) :
    Outcome (LimitedList α limit) := do
  let list ← SszList.decode codec decode checked fixedLen limit bytes
  LimitedList.new codec.toSsz limit list.items

/-! ## Attestations and proofs -/

/-- Trusts the offset: it ends the data and starts the bits. -/
def Attestation.decodeSsz (bytes : List Byte) : Outcome Attestation := do
  let offset ← readU32 bytes 0
  let data ← slice bytes 4 offset >>= AttestationData.decodeSsz
  let aggregationBits ←
    sliceFrom bytes offset >>= codec.bitList false validatorRegistryLimit
  .ok { aggregationBits, data }

/-- The checked decoder looks at the length and never at the offset. -/
def Attestation.decodeSszChecked (bytes : List Byte) : Outcome Attestation := do
  failIf (bytes.length < 4 + attestationDataLen) "Attestation missing offset table"
  Attestation.decodeSsz codec bytes

def ByteList.decodeSsz (limit : Nat) (bytes : List Byte) : Outcome (ByteList limit) :=
  .ok { data := bytes }

def AggregatedSignatureProof.decodeSsz (bytes : List Byte) :
    Outcome AggregatedSignatureProof := do
  let offBits ← readU32 bytes 0
  let offProof ← readU32 bytes 4
  let participants ←
    slice bytes offBits offProof >>= codec.bitList false validatorRegistryLimit
  let proofData ← sliceFrom bytes offProof >>= ByteList.decodeSsz proofMaxBytes
  .ok { participants, proofData }

/-- A gossiped vote of one validator. -/
structure SignedAttestation where
  validatorId : Nat
  message : AttestationData
  signature : Bytes3112
  deriving DecidableEq

/-- A gossiped aggregate. -/
structure SignedAggregatedAttestation where
  data : AttestationData
  proof : AggregatedSignatureProof
  deriving DecidableEq

def SignedAttestation.decodeSsz (bytes : List Byte) : Outcome SignedAttestation := do
  let validatorId ← slice bytes 0 8 >>= Uint64.decodeSsz
  let message ← slice bytes 8 136 >>= AttestationData.decodeSsz
  let signature ← slice bytes 136 (136 + 3112) >>= Bytes3112.fromSlice
  .ok { validatorId, message, signature }

def SignedAttestation.decodeSszChecked : List Byte → Outcome SignedAttestation :=
  decodeFixedChecked "SignedAttestation" (8 + 128 + 3112) SignedAttestation.decodeSsz

def SignedAggregatedAttestation.decodeSsz (bytes : List Byte) :
    Outcome SignedAggregatedAttestation := do
  let data ← slice bytes 0 attestationDataLen >>= AttestationData.decodeSsz
  let offProof ← readU32 bytes attestationDataLen
  let proof ← sliceFrom bytes offProof >>= AggregatedSignatureProof.decodeSsz codec
  .ok { data, proof }

def SignedAggregatedAttestation.decodeSszChecked (bytes : List Byte) :
    Outcome SignedAggregatedAttestation := do
  let minLen := attestationDataLen + 4
  failIf (bytes.length < minLen)
    s!"SignedAggregatedAttestation expects at least {minLen} bytes, got {bytes.length}"
  let offProof ← readU32 bytes attestationDataLen
  failIf (offProof < minLen ∨ offProof > bytes.length)
    s!"SignedAggregatedAttestation invalid proof offset {offProof} for length {bytes.length}"
  SignedAggregatedAttestation.decodeSsz codec bytes

/-! ## Blocks -/

def BlockBody.decodeSsz (bytes : List Byte) : Outcome BlockBody := do
  let offset ← readU32 bytes 0
  let attestations ← sliceFrom bytes offset >>=
    SszList.decode codec (Attestation.decodeSsz codec) false none attestationsLimit
  .ok { attestations }

def BlockBody.decodeSszChecked (bytes : List Byte) : Outcome BlockBody := do
  failIf (bytes.length < 4) "BlockBody missing offset table"
  let offset ← readU32 bytes 0
  failIf (offset ≠ 4 ∨ offset > bytes.length) "BlockBody offset is invalid"
  let attestations ← sliceFrom bytes offset >>=
    SszList.decode codec (Attestation.decodeSsz codec) true none attestationsLimit
  .ok { attestations }

def Block.decodeSsz (bytes : List Byte) : Outcome Block := do
  let slot ← slice bytes 0 8 >>= Slot.decodeSsz
  let proposerIndex ← slice bytes 8 16 >>= ValidatorIndex.decodeSsz
  let parentRoot ← slice bytes 16 48 >>= Bytes32.fromSlice
  let stateRoot ← slice bytes 48 80 >>= Bytes32.fromSlice
  let offset ← readU32 bytes 80
  let body ← sliceFrom bytes offset >>= BlockBody.decodeSsz codec
  .ok { slot, proposerIndex, parentRoot, stateRoot, body }

def Block.decodeSszChecked (bytes : List Byte) : Outcome Block := do
  failIf (bytes.length < 8 + 8 + 32 + 32 + 4) "Block missing offset table"
  let slot ← slice bytes 0 8 >>= Slot.decodeSsz
  let proposerIndex ← slice bytes 8 16 >>= ValidatorIndex.decodeSsz
  let parentRoot ← slice bytes 16 48 >>= Bytes32.fromSlice
  let stateRoot ← slice bytes 48 80 >>= Bytes32.fromSlice
  let offset ← readU32 bytes 80
  failIf (offset ≠ 84 ∨ offset > bytes.length) "Block offset is invalid"
  let body ← sliceFrom bytes offset >>= BlockBody.decodeSszChecked codec
  .ok { slot, proposerIndex, parentRoot, stateRoot, body }

/-! ## The signed block

The message has two layouts. The first has an offset for the block and one for the proposer's
attestation; the layout of the `ream` client carries the validator's index and the attestation data
inline. Bytes that do not fit the first are tried as the second. -/

/-- `proposer_attestation_from_ream_parts`: the one participant is rebuilt from its index. -/
def proposerAttestationFromReamParts (validatorId : Nat) (data : AttestationData) :
    Outcome Attestation := do
  let index := validatorId
  failIf (index ≥ validatorRegistryLimit)
    s!"proposer validator index {index} exceeds registry limit {validatorRegistryLimit}"
  let bitLen := index + 1
  let byteLen := (bitLen + 7) / 8
  let bits ← Outcome.update (List.replicate byteLen 0#8) (index / 8)
    fun byte => byte ||| (1#8 <<< (index % 8))
  .ok { aggregationBits := { data := bits, len := bitLen }, data }

def decodeReamBlockWithAttestation (bytes : List Byte) (checked : Bool) :
    Outcome BlockWithAttestation := do
  let proposerFixedLen := 8 + attestationDataLen
  let fixedLen := 4 + proposerFixedLen
  failIf (bytes.length < fixedLen) "BlockWithAttestation (ream) missing fixed section"
  let offBlock ← readU32 bytes 0
  failIf (checked ∧ (offBlock ≠ fixedLen ∨ offBlock > bytes.length))
    "BlockWithAttestation (ream) offset is invalid"
  failIf (offBlock < fixedLen ∨ offBlock > bytes.length)
    "BlockWithAttestation (ream) offset is out of bounds"
  let idBytes ← slice bytes 4 12
  failIf (idBytes.length ≠ 8) "BlockWithAttestation (ream) validator_id missing"
  let validatorId := natOfLeBytes idBytes
  let attestationData ← slice bytes 12 (12 + attestationDataLen) >>=
    if checked then AttestationData.decodeSszChecked else AttestationData.decodeSsz
  let proposerAttestation ← proposerAttestationFromReamParts validatorId attestationData
  let block ← sliceFrom bytes offBlock >>=
    if checked then Block.decodeSszChecked codec else Block.decodeSsz codec
  .ok { block, proposerAttestation }

def BlockWithAttestation.decodeSsz (bytes : List Byte) : Outcome BlockWithAttestation := do
  failIf (bytes.length < 8) "BlockWithAttestation missing offset table"
  let offBlock ← readU32 bytes 0
  let offProposer ← readU32 bytes 4
  if offBlock ≤ offProposer ∧ offProposer ≤ bytes.length then
    let block ← slice bytes offBlock offProposer >>= Block.decodeSsz codec
    let proposerAttestation ←
      sliceFrom bytes offProposer >>= Attestation.decodeSsz codec
    .ok { block, proposerAttestation }
  else decodeReamBlockWithAttestation codec bytes false

def BlockWithAttestation.decodeSszChecked (bytes : List Byte) :
    Outcome BlockWithAttestation := do
  failIf (bytes.length < 8) "BlockWithAttestation missing offset table"
  let offBlock ← readU32 bytes 0
  let offProposer ← readU32 bytes 4
  if offBlock ≠ 8 ∨ offProposer < offBlock ∨ offProposer > bytes.length then
    decodeReamBlockWithAttestation codec bytes true
  else
    let block ← slice bytes offBlock offProposer >>= Block.decodeSszChecked codec
    let proposerAttestation ←
      sliceFrom bytes offProposer >>= Attestation.decodeSszChecked codec
    .ok { block, proposerAttestation }

def BlockSignatures.decodeSsz (bytes : List Byte) : Outcome BlockSignatures := do
  let offSigs ← readU32 bytes 0
  let proposerSignature ← slice bytes 4 (4 + 3112) >>= Bytes3112.fromSlice
  let attestationSignatures ← sliceFrom bytes offSigs >>=
    SszList.decode codec (AggregatedSignatureProof.decodeSsz codec) false none attestationsLimit
  .ok { attestationSignatures, proposerSignature }

def BlockSignatures.decodeSszChecked (bytes : List Byte) : Outcome BlockSignatures := do
  failIf (bytes.length < 4 + 3112) "BlockSignatures missing offset table"
  let offSigs ← readU32 bytes 0
  failIf (offSigs ≠ 4 + 3112 ∨ offSigs > bytes.length)
    "BlockSignatures offsets are invalid"
  let proposerSignature ← slice bytes 4 (4 + 3112) >>= Bytes3112.fromSlice
  let attestationSignatures ← sliceFrom bytes offSigs >>=
    SszList.decode codec (AggregatedSignatureProof.decodeSsz codec) true none attestationsLimit
  .ok { attestationSignatures, proposerSignature }

def SignedBlockWithAttestation.decodeSsz (bytes : List Byte) :
    Outcome SignedBlockWithAttestation := do
  let offMsg ← readU32 bytes 0
  let offSig ← readU32 bytes 4
  let message ← slice bytes offMsg offSig >>= BlockWithAttestation.decodeSsz codec
  let signature ← sliceFrom bytes offSig >>= BlockSignatures.decodeSsz codec
  .ok { message, signature }

def SignedBlockWithAttestation.decodeSszChecked (bytes : List Byte) :
    Outcome SignedBlockWithAttestation := do
  failIf (bytes.length < 8) "SignedBlockWithAttestation missing offset table"
  let offMsg ← readU32 bytes 0
  let offSig ← readU32 bytes 4
  failIf (offMsg ≠ 8 ∨ offSig < offMsg ∨ offSig > bytes.length)
    "SignedBlockWithAttestation offsets are invalid"
  let message ← slice bytes offMsg offSig >>= BlockWithAttestation.decodeSszChecked codec
  let signature ← sliceFrom bytes offSig >>= BlockSignatures.decodeSszChecked codec
  .ok { message, signature }

/-! ## The state -/

/-- The loop over the five offsets of a state: each lies in the variable part, at or after the one
before it. -/
def checkStateOffsets (fixedEnd scope : Nat) : Nat → List Nat → Outcome Unit
  | _, [] => .ok ()
  | prev, b :: rest => do
    failIf (b < fixedEnd ∨ b < prev ∨ b > scope) "State offsets are invalid"
    checkStateOffsets fixedEnd scope b rest

/-- `State::decode_ssz_checked`. -/
def State.decodeSszChecked (bytes : List Byte) : Outcome State := do
  let fixedLen := 8 + 8 + 112 + 40 + 40 + 4 * 5
  failIf (bytes.length < fixedLen) "State input shorter than fixed section"
  let config ← slice bytes 0 8 >>= Config.decodeSszChecked
  let slot ← slice bytes 8 16 >>= Slot.decodeSszChecked
  let latestBlockHeader ← slice bytes 16 128 >>= BlockHeader.decodeSszChecked
  let latestJustified ← slice bytes 128 168 >>= Checkpoint.decodeSszChecked
  let latestFinalized ← slice bytes 168 208 >>= Checkpoint.decodeSszChecked
  let b0 ← readU32 bytes 208
  let b1 ← readU32 bytes 212
  let b2 ← readU32 bytes 216
  let b3 ← readU32 bytes 220
  let b4 ← readU32 bytes 224
  let scope := bytes.length
  failIf (b0 ≠ fixedLen) "State first offset must equal fixed section length"
  checkStateOffsets fixedLen scope fixedLen [b0, b1, b2, b3, b4]
  let historicalBlockHashes ← slice bytes b0 b1 >>=
    LimitedList.decode codec codec.bytes32 true (some 32) historicalRootsLimit
  let justifiedSlots ← slice bytes b1 b2 >>= codec.bitList true historicalRootsLimit
  let validators ← slice bytes b2 b3 >>=
    LimitedList.decode codec Validator.decodeSsz true none validatorRegistryLimit
  let justificationsRoots ← slice bytes b3 b4 >>=
    LimitedList.decode codec codec.bytes32 true (some 32) historicalRootsLimit
  let justificationsValidators ←
    slice bytes b4 scope >>= codec.bitList true justificationValidatorsLimit
  .ok
    { config, slot, latestBlockHeader, latestJustified, latestFinalized, historicalBlockHashes,
      justifiedSlots, validators, justificationsRoots, justificationsValidators }

end Peam
