import Peam.Lib.Reader
import Peam.ReqResp

/-!
# Request and response framing

The reading half of `LeanReqRespCodec` (`src/networking/p2p.rs`): a request is a length and one
frame stream up to the end, a response a code, a length and as many snappy frames as the length
asks for. A peer chooses every byte, and the stream may also break off with an error.

The trace counts the buffers the codec sizes itself: those of a declared length, of a frame's length
and of a decompressed frame. Vectors that grow by appending what was received are left out. The
`snap` crate and the lossy text of an error payload are parameters.
-/

namespace Peam

open Packed (Byte)
open Streams
open Streams.Reading

/-- The calls out of the codec. -/
structure SnapLib where
  /-- `snap::raw::decompress_len`. -/
  decompressLen : List Byte → Except String Nat
  /-- `Decoder::decompress` into a buffer of the given length. -/
  decompress : List Byte → Nat → Except String (List Byte)
  /-- `read_exact` of a `FrameDecoder` into a buffer of the given length. -/
  frameReadExact : List Byte → Nat → Except IoError (List Byte)
  /-- `String::from_utf8_lossy`. -/
  utf8Lossy : List Byte → String

/-! ## Lengths -/

/-- One byte of a varint. `checked_shl` checks the shift only, so high bits are lost. -/
def uviStep (value shift : Nat) (byte : Byte) : Except IoError Nat :=
  let low := byte.toNat % 128
  if shift ≥ 64 then .error ⟨.invalidData, "invalid varint length"⟩
  else
    let shifted := low * 2 ^ shift % 2 ^ 64
    if value + shifted ≥ 2 ^ 64 then .error ⟨.invalidData, "varint length overflow"⟩
    else .ok (value + shifted)

/-- The loop of `decode_uvi_len`, at index `idx`. -/
def decodeUviLenFrom (value shift idx : Nat) : List Byte → Except IoError (Nat × Nat)
  | [] => .error ⟨.unexpectedEof, "incomplete varint length"⟩
  | byte :: rest =>
    match uviStep value shift byte with
    | .error e => .error e
    | .ok value =>
      if byte.toNat < 128 then .ok (value, idx + 1)
      else decodeUviLenFrom value (shift + 7) (idx + 1) rest

/-- `decode_uvi_len`: the length and the number of bytes it took. -/
def decodeUviLen (bytes : List Byte) : Except IoError (Nat × Nat) := decodeUviLenFrom 0 0 0 bytes

/-- The loop of `read_uvi_len_async`, with the bytes it may still take. -/
def readUviLenFrom (value shift : Nat) : Nat → Reading Nat
  | 0 => failWith .invalidData "varint length too long"
  | left + 1 => do
    let buf ← readExact 1
    let byte := buf.headD 0#8
    let value ← lift (uviStep value shift byte)
    if byte.toNat < 128 then pure value
    else readUviLenFrom value (shift + 7) left

/-- `read_uvi_len_async`. -/
def readUviLenAsync : Reading Nat := readUviLenFrom 0 0 10

/-! ## Frames -/

inductive ChunkType where
  | compressed
  | uncompressed
  | skipped
  | unskippable
  deriving DecidableEq

/-- The match on the chunk type. -/
def chunkType (byte : Byte) : ChunkType :=
  if byte = 0x00#8 then .compressed
  else if byte = 0x01#8 then .uncompressed
  else if 0x80 ≤ byte.toNat then .skipped
  else .unskippable

section Frames

variable (lib : SnapLib)

/-- What a chunk of at least one byte adds to the output. -/
def chunkData (expectedLen : Nat) (out : List Byte) (type : ChunkType) (chunk : List Byte) :
    Reading (List Byte) :=
  match type with
  | .skipped => pure []
  | .unskippable => failWith .invalidData "snappy reserved unskippable chunk"
  | .uncompressed =>
    if chunk.length < 4 then failWith .invalidData "snappy uncompressed chunk too short"
    else if out.length + (chunk.drop 4).length > expectedLen then
      failWith .invalidData "snappy output exceeds expected length"
    else pure (chunk.drop 4)
  | .compressed =>
    if chunk.length < 4 then failWith .invalidData "snappy compressed chunk too short"
    else
      match lib.decompressLen (chunk.drop 4) with
      | .error err => failWith .invalidData s!"snappy length decode failed: {err}"
      | .ok decodedLen => do
        if out.length + decodedLen > expectedLen then
          failWith .invalidData "snappy output exceeds expected length"
        else
          allocate decodedLen
          match lib.decompress (chunk.drop 4) decodedLen with
          | .error err => failWith .invalidData s!"snappy decompress failed: {err}"
          | .ok decoded => pure decoded

/-- One turn of the frame loop: the output after it. -/
def readFrame (expectedLen : Nat) (out : List Byte) : Reading (List Byte) := do
  let header ← readExact 4
  let len := (header.getD 1 0#8).toNat + (header.getD 2 0#8).toNat * 2 ^ 8 +
    (header.getD 3 0#8).toNat * 2 ^ 16
  if len = 0 then pure out
  else
    allocate len
    let chunk ← readExact len
    let data ← chunkData lib expectedLen out (chunkType (header.getD 0 0#8)) chunk
    if (out ++ data).length > expectedLen then
      failWith .invalidData "snappy output exceeds expected length"
    else pure (out ++ data)

/-- The frame loop, with the turns left. -/
def readFrames (expectedLen : Nat) : Nat → Bool → List Byte → Reading (List Byte)
  | 0, _, _ => fail .unended
  | left + 1, sawAnyChunk, out =>
    if out.length < expectedLen ∨ sawAnyChunk = false then do
      let out ← readFrame lib expectedLen out
      readFrames expectedLen left true out
    else if out.length ≠ expectedLen then
      failWith .invalidData "snappy output length mismatch"
    else pure out

/-- `read_snappy_frame_exact`. A turn takes four bytes at least, which bounds the turns. -/
def readSnappyFrameExact (expectedLen : Nat) : Reading (List Byte) := do
  reserve expectedLen
  withBytesLeft fun count => readFrames lib expectedLen (count + 2) false []

/-- The code byte and the length before a response chunk; none at the end of the stream. -/
def readResponseHeader : Reading (Option (Byte × Nat)) := do
  match ← orEof (readExact 1) with
  | none => pure none
  | some codeBuf =>
    let expectedLen ← readUviLenAsync
    pure (some (codeBuf.headD 0#8, expectedLen))

/-- `read_response_chunk`. -/
def readResponseChunk : Reading (Option (Byte × List Byte)) := do
  match ← readResponseHeader with
  | none => pure none
  | some (responseCode, expectedLen) =>
    let payload ← readSnappyFrameExact lib expectedLen
    pure (some (responseCode, payload))

/-- `snappy_frame_decompress`. -/
def snappyFrameDecompress (payload : List Byte) (expectedLen : Nat) : Reading (List Byte) := do
  reserve expectedLen
  lift (lib.frameReadExact payload expectedLen)

end Frames

/-! ## Requests and responses -/

structure LeanRequest where
  protocol : String
  payload : List Byte

structure LeanResponse where
  protocol : String
  responseCode : Byte
  payloads : List (List Byte)

/-- `LeanSupportedProtocol::parse_protocol_id`. -/
def parseProtocolId (protocol : String) : Option LeanSupportedProtocol :=
  match (protocol.toList.dropWhile (· = '/')).splitOn '/' |>.map String.ofList with
  | ["leanconsensus", "req", name, "1", "ssz_snappy"] =>
    if name = "blocks_by_range" then some .blocksByRangeV1
    else if name = "blocks_by_root" then some .blocksByRootV1
    else if name = "status" then some .statusV1
    else none
  | _ => none

/-- Whether a response is read chunk by chunk up to the end. -/
def streamsBlocks (protocol : String) : Bool :=
  parseProtocolId protocol = some .blocksByRootV1 ∨ parseProtocolId protocol = some .blocksByRangeV1

section Codec

variable (lib : SnapLib)

/-- `LeanReqRespCodec::read_request`. -/
def readRequest (protocol : String) : Reading LeanRequest := do
  let buf ← readToEnd
  let (len, prefixLen) ← lift (decodeUviLen buf)
  let payload ← snappyFrameDecompress lib (buf.drop prefixLen) len
  pure { protocol, payload }

/-- The chunk loop of `read_response`, with the turns left. Chunks with another code than success
are skipped. -/
def readChunks : Nat → List (List Byte) → Reading (List (List Byte))
  | 0, _ => fail .unended
  | left + 1, payloads => do
    match ← readResponseChunk lib with
    | none => pure payloads
    | some (responseCode, payload) =>
      readChunks left (if responseCode ≠ 0#8 then payloads else payloads ++ [payload])

/-- `LeanReqRespCodec::read_response`. -/
def readResponse (protocol : String) : Reading LeanResponse :=
  if streamsBlocks protocol then do
    let payloads ← withBytesLeft fun count => readChunks lib (count + 1) []
    pure { protocol, responseCode := 0#8, payloads }
  else do
    match ← readResponseChunk lib with
    | none => pure { protocol, responseCode := 0#8, payloads := [] }
    | some (responseCode, payload) =>
      if responseCode ≠ 0#8 then
        let code := responseCode.toNat
        let detail := lib.utf8Lossy payload
        failWith .invalidData
          s!"non-success reqresp response code={code} protocol={protocol} detail={detail}"
      else pure { protocol, responseCode, payloads := [payload] }

end Codec

end Peam
