import Peam.Stream

/-!
# Writing requests and responses

The writing half of `LeanReqRespCodec` (`src/networking/p2p.rs`). A response is one chunk for each
payload on the block protocols and a single chunk elsewhere; a chunk is the code, the payload's
length and the payload as a snappy frame stream. An empty response is no bytes at all.

The frame encoder of `snap` is a parameter, and the stream takes what it is given: what was written
is the trace, so an error in a later chunk leaves the earlier ones sent.
-/

namespace Peam

open Packed (Byte)
open Streams
open Traces (Traced)

/-- The calls out of the writer. -/
structure SnapEncoder extends SnapLib where
  /-- `snap::raw::Encoder::compress`, which the frame encoder uses for its chunks. -/
  compress : List Byte → List Byte
  /-- `write_all` and `flush` of a `FrameEncoder`, and the bytes it holds then. -/
  frameEncode : List Byte → Except IoError (List Byte)

/-- The loop of `encode_uvi_len`, with the turns left. -/
def encodeUviLenFrom : Nat → Nat → List Byte
  | 0, _ => []
  | left + 1, value =>
    let byte := BitVec.ofNat 8 (value % 128)
    if value / 128 ≠ 0 then (byte ||| 0x80#8) :: encodeUviLenFrom left (value / 128)
    else [byte]

/-- `encode_uvi_len`. A `usize` is used up after ten turns. -/
def encodeUviLen (value : Nat) : List Byte := encodeUviLenFrom 10 value

/-- The bytes written, and how the writing ended. -/
abbrev Written := Traced Byte (Except IoError Unit)

section Codec

variable (snap : SnapEncoder)

/-- `snappy_frame_compress`. -/
def snappyFrameCompress (payload : List Byte) : Except IoError (List Byte) :=
  snap.frameEncode payload

/-- The length and the frames of a payload, after the given bytes. -/
def frameAfter (front payload : List Byte) : Except IoError (List Byte) :=
  match snappyFrameCompress snap payload with
  | .error e => .error e
  | .ok compressed => .ok (front ++ encodeUviLen payload.length ++ compressed)

/-- Build one frame and write it whole. -/
def writeFramed (framed : Except IoError (List Byte)) : Written :=
  match framed with
  | .error e => ⟨[], .error e⟩
  | .ok bytes => ⟨bytes, .ok ()⟩

/-- The loop over the payloads of a streamed response. -/
def writeChunks : List (List Byte) → Written
  | [] => ⟨[], .ok ()⟩
  | payload :: rest =>
    match frameAfter snap [0#8] payload with
    | .error e => ⟨[], .error e⟩
    | .ok framed => ⟨framed ++ (writeChunks rest).events, (writeChunks rest).value⟩

/-- `b"invalid request"`. -/
def invalidRequest : List Byte := "invalid request".toList.map fun c => BitVec.ofNat 8 c.toNat

/-- `LeanReqRespCodec::write_response`. -/
def writeResponse (response : LeanResponse) : Written :=
  if response.responseCode ≠ 0#8 then
    writeFramed (frameAfter snap [response.responseCode] (response.payloads.headD invalidRequest))
  else if response.payloads.isEmpty then ⟨[], .ok ()⟩
  else if streamsBlocks response.protocol then writeChunks snap response.payloads
  else writeFramed (frameAfter snap [0#8] (response.payloads.headD []))

end Codec

end Peam
