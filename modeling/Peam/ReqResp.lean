import Peam.Decode

/-!
# Request and response payloads

The decoders behind `LeanRequestMessage::decode_ssz` and `LeanResponseMessage::decode_ssz`
(`src/networking/reqresp_messages.rs`, `src/containers/req_resp.rs`). They run on the payload of a
peer, and every one of them is the trusting variant. A blocks response is tried as a bare signed
block first and as a list of them second, a request for roots as a container first and as a bare
list second; the second attempt is made only when the first returned an error.
-/

namespace Peam

open Packed (Byte)
open Calls (Outcome)

inductive LeanSupportedProtocol where
  | blocksByRangeV1
  | blocksByRootV1
  | statusV1
  deriving DecidableEq

def maxBlocksPerRequest : Nat := 1024
def maxBlocksPerRootRequest : Nat := 1024

structure Status where
  finalizedRoot : Bytes32
  finalizedSlot : Nat
  headRoot : Bytes32
  headSlot : Nat
  deriving DecidableEq

structure BlocksByRangeRequest where
  startSlot : Nat
  count : Nat
  step : Nat
  deriving DecidableEq

def Status.decodeSsz (bytes : List Byte) : Outcome Status := do
  let finalizedRoot ← Outcome.slice bytes 0 32 >>= Bytes32.fromSlice
  let finalizedSlot ← Outcome.slice bytes 32 40 >>= Uint64.decodeSsz
  let headRoot ← Outcome.slice bytes 40 72 >>= Bytes32.fromSlice
  let headSlot ← Outcome.slice bytes 72 80 >>= Uint64.decodeSsz
  .ok { finalizedRoot, finalizedSlot, headRoot, headSlot }

def BlocksByRangeRequest.decodeSsz (bytes : List Byte) : Outcome BlocksByRangeRequest := do
  let startSlot ← Outcome.slice bytes 0 8 >>= Uint64.decodeSsz
  let count ← Outcome.slice bytes 8 16 >>= Uint64.decodeSsz
  let step ← Outcome.slice bytes 16 24 >>= Uint64.decodeSsz
  .ok { startSlot, count, step }

/-- `if let Ok(a) = first { return Ok(a) }` before `second`: an error is dropped, a panic is not. -/
def orOnError {α : Type} (first second : Outcome α) : Outcome α :=
  match first with
  | .error (.err _) => second
  | other => other

section Containers

variable (codec : SszCodec)

/-- A container with one list behind one offset. The family of the two responses and the request
for roots, each with its element and limit. -/
def decodeOneList {α : Type} (decode : List Byte → Outcome α) (fixedLen : Option Nat)
    (limit : Nat) (bytes : List Byte) : Outcome (SszList α limit) := do
  let offset ← readU32 bytes 0
  Outcome.sliceFrom bytes offset >>= SszList.decode codec decode false fixedLen limit

/-- `BlocksByRootRequest::decode_ssz`. -/
def BlocksByRootRequest.decodeSsz : List Byte → Outcome (SszList Bytes32 maxBlocksPerRootRequest) :=
  decodeOneList codec codec.bytes32 (some 32) maxBlocksPerRootRequest

/-- `BlocksByRootResponse::decode_ssz`. -/
def BlocksByRootResponse.decodeSsz :
    List Byte → Outcome (SszList SignedBlockWithAttestation maxBlocksPerRequest) :=
  decodeOneList codec (SignedBlockWithAttestation.decodeSsz codec) none maxBlocksPerRequest

/-- `BlocksByRangeResponse::decode_ssz`. -/
def BlocksByRangeResponse.decodeSsz :
    List Byte → Outcome (SszList SignedBlockWithAttestation maxBlocksPerRequest) :=
  decodeOneList codec (SignedBlockWithAttestation.decodeSsz codec) none maxBlocksPerRequest

def decodeBlocksByRootRequestCompat (data : List Byte) :
    Outcome (SszList Bytes32 maxBlocksPerRootRequest) :=
  orOnError (BlocksByRootRequest.decodeSsz codec data)
    (SszList.decode codec codec.bytes32 false (some 32) maxBlocksPerRootRequest data)

/-- The two response decoders differ in the name in their errors. -/
def decodeBlocksResponseCompat (name : String)
    (decodeList : List Byte → Outcome (SszList SignedBlockWithAttestation maxBlocksPerRequest))
    (data : List Byte) : Outcome SignedBlockWithAttestation :=
  orOnError (SignedBlockWithAttestation.decodeSsz codec data) <|
    match decodeList data with
    | .ok blocks =>
      match blocks.items with
      | first :: _ => .ok first
      | [] => Outcome.err s!"empty {name} response payload"
    | .error (.err _) => Outcome.err s!"unsupported {name} response payload"
    | .error (.panicked text) => .error (.panicked text)

def decodeBlocksByRootResponseCompat : List Byte → Outcome SignedBlockWithAttestation :=
  decodeBlocksResponseCompat codec "BlocksByRoot" (BlocksByRootResponse.decodeSsz codec)

def decodeBlocksByRangeResponseCompat : List Byte → Outcome SignedBlockWithAttestation :=
  decodeBlocksResponseCompat codec "BlocksByRange" (BlocksByRangeResponse.decodeSsz codec)

inductive LeanRequestMessage where
  | status (status : Status)
  | blocksByRange (request : BlocksByRangeRequest)
  | blocksByRoot (roots : SszList Bytes32 maxBlocksPerRootRequest)
  deriving DecidableEq

inductive LeanResponseMessage where
  | status (status : Status)
  | blocksByRange (block : SignedBlockWithAttestation)
  | blocksByRoot (block : SignedBlockWithAttestation)
  deriving DecidableEq

def LeanRequestMessage.decodeSsz (protocol : LeanSupportedProtocol) (data : List Byte) :
    Outcome LeanRequestMessage :=
  match protocol with
  | .statusV1 => LeanRequestMessage.status <$> Status.decodeSsz data
  | .blocksByRangeV1 => LeanRequestMessage.blocksByRange <$> BlocksByRangeRequest.decodeSsz data
  | .blocksByRootV1 =>
    LeanRequestMessage.blocksByRoot <$> decodeBlocksByRootRequestCompat codec data

def LeanResponseMessage.decodeSsz (protocol : LeanSupportedProtocol) (data : List Byte) :
    Outcome LeanResponseMessage :=
  match protocol with
  | .statusV1 => LeanResponseMessage.status <$> Status.decodeSsz data
  | .blocksByRangeV1 =>
    LeanResponseMessage.blocksByRange <$> decodeBlocksByRangeResponseCompat codec data
  | .blocksByRootV1 =>
    LeanResponseMessage.blocksByRoot <$> decodeBlocksByRootResponseCompat codec data

end Containers

end Peam
