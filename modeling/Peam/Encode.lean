import Peam.Decode
import Peam.FileStore

/-!
# Encoders

The SSZ encoders of `src/containers/` for a signed block and the blob envelope of
`src/storage/storage_utils.rs`, down to the read that `get_signed_block` makes of the bytes a put
has written.

An encoder writes each field at its offset; the fields cover the buffer and do not overlap, so the
result is the list of the written parts, in order. An offset is cast to `u32` where the source casts
it: `leBytes 4` keeps the low four bytes.

The message of a signed block is always written in the layout of the `ream` client, with the
validator's index inline where the other layout has its second offset.
-/

namespace Peam

open Packed (Byte)
open Calls (Outcome)

/-- The encoders of `peam-ssz`, beside its decoders. -/
structure SszEncoder extends SszCodec where
  /-- `SszList::encode_ssz`, from the encodings of elements without a fixed length. -/
  encodeElements : List (List Byte) → List Byte
  /-- `BitList::encode_ssz`. -/
  encodeBitList : (limit : Nat) → BitList limit → List Byte

instance : Coe SszEncoder SszCodec := ⟨SszEncoder.toSszCodec⟩

/-- `as_ref()` of a fixed byte array. -/
def asRef (len : Nat) {width : Nat} (array : BitVec width) : List Byte :=
  (leBytes len array.toNat).reverse

/-! ## Records of fixed size -/

def Checkpoint.encodeSsz (checkpoint : Checkpoint) : List Byte :=
  [asRef 32 checkpoint.root, leBytes 8 checkpoint.slot].flatten

def AttestationData.encodeSsz (data : AttestationData) : List Byte :=
  [leBytes 8 data.slot, data.head.encodeSsz, data.target.encodeSsz, data.source.encodeSsz].flatten

variable (codec : SszEncoder)

/-! ## Attestations and proofs -/

def Attestation.encodeSsz (att : Attestation) : List Byte :=
  let dataBytes := att.data.encodeSsz
  let fixedLen := 4 + dataBytes.length
  [leBytes 4 fixedLen, dataBytes, codec.encodeBitList _ att.aggregationBits].flatten

/-- `ByteList::encode_ssz`. -/
def ByteList.encodeSsz {limit : Nat} (list : ByteList limit) : List Byte := list.data

def AggregatedSignatureProof.encodeSsz (proof : AggregatedSignatureProof) : List Byte :=
  let bits := codec.encodeBitList _ proof.participants
  let fixedLen := 8
  [leBytes 4 fixedLen, leBytes 4 (fixedLen + bits.length), bits,
    proof.proofData.encodeSsz].flatten

/-! ## The signed block -/

def BlockBody.encodeSsz (body : BlockBody) : List Byte :=
  let attestations := codec.encodeElements (body.attestations.items.map (·.encodeSsz codec))
  [leBytes 4 4, attestations].flatten

def Block.encodeSsz (block : Block) : List Byte :=
  let fixedLen := 8 + 8 + 32 + 32 + 4
  [leBytes 8 block.slot, leBytes 8 block.proposerIndex, asRef 32 block.parentRoot,
    asRef 32 block.stateRoot, leBytes 4 fixedLen, block.body.encodeSsz codec].flatten

/-- The length of the fixed part of a message: offset, validator index and attestation data. -/
def messageFixedLen : Nat := 4 + 8 + attestationDataLen

/-- Without exactly one participant there is no validator index to write. -/
def BlockWithAttestation.encodeSsz (message : BlockWithAttestation) : Outcome (List Byte) :=
  match singleSetBit message.proposerAttestation.aggregationBits with
  | none => .error (.panicked "proposer attestation must have exactly one participant")
  | some proposerIndex =>
    .ok [leBytes 4 messageFixedLen, leBytes 8 proposerIndex,
      message.proposerAttestation.data.encodeSsz, message.block.encodeSsz codec].flatten

def BlockSignatures.encodeSsz (signatures : BlockSignatures) : List Byte :=
  let fixedLen := 4 + 3112
  [leBytes 4 fixedLen, asRef 3112 signatures.proposerSignature,
    codec.encodeElements
      (signatures.attestationSignatures.items.map (·.encodeSsz codec))].flatten

def SignedBlockWithAttestation.encodeSsz (signed : SignedBlockWithAttestation) :
    Outcome (List Byte) := do
  let msg ← signed.message.encodeSsz codec
  let sig := signed.signature.encodeSsz codec
  let fixedLen := 8
  .ok [leBytes 4 fixedLen, leBytes 4 (fixedLen + msg.length), msg, sig].flatten

/-! ## The blob envelope -/

/-- `BLOB_MAGIC`, the text `LEANSTRG`. -/
def blobMagic : List Byte := [0x4C#8, 0x45#8, 0x41#8, 0x4E#8, 0x53#8, 0x54#8, 0x52#8, 0x47#8]

/-- `BLOB_VERSION`. -/
def blobVersion : Byte := 1#8

/-- `BLOB_KIND_SIGNED_BLOCK`. -/
def blobKindSignedBlock : Byte := 3#8

/-- `BLOB_HEADER_LEN`. -/
def blobHeaderLen : Nat := 8 + 1 + 1 + 4 + 32

/-- `encode_blob`; the checksum is `Sha256::digest`. -/
def encodeBlob (digest : List Byte → Bytes32) (kind : Byte) (payload : List Byte) : List Byte :=
  [blobMagic, [blobVersion], [kind], leBytes 4 payload.length, asRef 32 (digest payload),
    payload].flatten

/-- `decode_blob_offset`. The checksum is not looked at. -/
def decodeBlobOffset (expectedKind : Byte) (bytes : List Byte) : Option Nat :=
  if bytes.length < blobHeaderLen then none
  else if (bytes.take 8).drop 0 ≠ blobMagic then none
  else if bytes[8]? ≠ some blobVersion then none
  else if bytes[9]? ≠ some expectedKind then none
  else
    let payloadLen := natOfLeBytes ((bytes.take 14).drop 10)
    if bytes.length ≠ blobHeaderLen + payloadLen then none else some blobHeaderLen

/-- `decode_signed_block_safe`: an error becomes `None`, a panic stays one. -/
def decodeSignedBlockSafe (bytes : List Byte) : Outcome (Option SignedBlockWithAttestation) :=
  match SignedBlockWithAttestation.decodeSsz codec.toSszCodec bytes with
  | .ok signed => .ok (some signed)
  | .error (.err _) => .ok none
  | .error (.panicked text) => .error (.panicked text)

/-- The blob a put writes for a signed block. -/
def SignedBlockWithAttestation.blob (digest : List Byte → Bytes32)
    (signed : SignedBlockWithAttestation) : Outcome (List Byte) := do
  let payload ← signed.encodeSsz codec
  .ok (encodeBlob digest blobKindSignedBlock payload)

/-- `load_signed_block_by_root` on the bytes of the row. -/
def loadSignedBlockBlob (bytes : List Byte) : Outcome (Option SignedBlockWithAttestation) :=
  match decodeBlobOffset blobKindSignedBlock bytes with
  | none => .ok none
  | some off => Outcome.sliceFrom bytes off >>= decodeSignedBlockSafe codec

/-- `get_signed_block` down to the bytes: the row holds the blob of the block that was put. -/
def FileStore.readSignedBlock (digest : List Byte → Bytes32) (store : FileStore)
    (root : Bytes32) : Outcome (Option SignedBlockWithAttestation) :=
  match store.signedRow root with
  | none => .ok none
  | some written => written.blob codec digest >>= loadSignedBlockBlob codec

end Peam
