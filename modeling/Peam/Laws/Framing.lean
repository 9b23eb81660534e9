import Peam.Framing
import Peam.Laws.Encode
import Peam.Laws.Stream

/-!
# A response is read back chunk by chunk

Nothing marks the end of a chunk's frames: the reader has to stop at the declared length. It does,
because every data chunk carries something, so the length is reached by the last one and not before.
`Consumes` states it for each part, with whatever follows left in place, and the parts compose.

`SnapEncoder.Framed` is what is assumed of the `snap` crate.
-/

namespace Peam

open Packed (Byte)
open Streams
open Streams.Reading

variable {value shift : Nat} {payloads : List (List Byte)}

/-! ## Lengths -/

/-- A byte adds its seven bits. -/
theorem uviStep_eq {value shift low : Nat} {byte : Byte} (hlow : byte.toNat % 128 = low)
    (hshift : shift < 64) (hsum : value + low * 2 ^ shift < 2 ^ 64) :
    uviStep value shift byte = .ok (value + low * 2 ^ shift) := by
  unfold uviStep
  rw [hlow]
  dsimp only
  rw [if_neg (Nat.not_le.mpr hshift), Nat.mod_eq_of_lt (by omega), if_neg (by omega)]

private theorem toNat_last (value : Nat) : (BitVec.ofNat 8 (value % 128)).toNat = value % 128 := by
  rw [BitVec.toNat_ofNat]
  omega

private theorem toNat_marked (value : Nat) :
    (BitVec.ofNat 8 (value % 128) ||| 0x80#8).toNat = value % 128 + 128 := by
  have hlt : value % 128 < 128 := Nat.mod_lt _ (by decide)
  generalize value % 128 = low at hlt
  interval_cases low <;> rfl

private theorem readUviLenFrom_turn {acc shift left low result : Nat} {byte : Byte}
    {back : List Byte}
    (hlow : byte.toNat % 128 = low) (hshift : shift < 64) (hsum : acc + low * 2 ^ shift < 2 ^ 64)
    (hback : Consumes
      (if byte.toNat < 128 then pure (acc + low * 2 ^ shift)
        else readUviLenFrom (acc + low * 2 ^ shift) (shift + 7) left) back result) :
    Consumes (readUviLenFrom acc shift (left + 1)) (byte :: back) result := by
  have hread : Consumes (readExact 1) [byte] [byte] := Consumes.readExact rfl
  exact hread.bind ((Consumes.lift (uviStep_eq hlow hshift hsum)).skip hback)

private theorem readUviLenFrom_last {acc : Nat} (left : Nat) (hvalue : value < 128)
    (hshift : shift < 64) (hsum : acc + value * 2 ^ shift < 2 ^ 64) :
    Consumes (readUviLenFrom acc shift (left + 1)) (encodeUviLenFrom (left + 1) value)
      (acc + value * 2 ^ shift) := by
  have hlow : value % 128 = value := Nat.mod_eq_of_lt hvalue
  rw [encodeUviLenFrom, if_neg (by omega)]
  apply @readUviLenFrom_turn acc shift left value
  · rw [toNat_last, Nat.mod_mod, hlow]
  · exact hshift
  · exact hsum
  · rw [if_pos (by rw [toNat_last]; omega)]
    exact Consumes.pure _

/-- **The varint loop reads back what the writer's loop wrote**, on top of what was read before. -/
theorem readUviLenFrom_encode {acc left : Nat} (hvalue : value < 128 ^ (left + 1))
    (hshift : shift < 64) (hsum : acc + value * 2 ^ shift < 2 ^ 64) :
    Consumes (readUviLenFrom acc shift (left + 1)) (encodeUviLenFrom (left + 1) value)
      (acc + value * 2 ^ shift) := by
  induction left generalizing value acc shift with
  | zero => exact readUviLenFrom_last 0 (by simpa using hvalue) hshift hsum
  | succ left ih =>
    by_cases hlast : value < 128
    · exact readUviLenFrom_last (left + 1) hlast hshift hsum
    · -- the value is its low seven bits and the rest, seven places further up
      have hsplit : value * 2 ^ shift =
          value % 128 * 2 ^ shift + value / 128 * 2 ^ (shift + 7) := by
        calc value * 2 ^ shift
            = (value % 128 + value / 128 * 128) * 2 ^ shift := by
              rw [Nat.mul_comm (value / 128), Nat.mod_add_div]
          _ = value % 128 * 2 ^ shift + value / 128 * 2 ^ (shift + 7) := by
              rw [Nat.add_mul, Nat.mul_assoc, Nat.pow_add, Nat.mul_comm 128]
      have hrest : value / 128 < 128 ^ (left + 1) := by
        rw [Nat.pow_succ] at hvalue
        exact Nat.div_lt_of_lt_mul (by omega)
      have hshift' : shift + 7 < 64 := by
        by_contra hlarge
        have hpow : 2 ^ 64 ≤ 2 ^ (shift + 7) := Nat.pow_le_pow_right (by decide) (by omega)
        have hone : 1 * 2 ^ (shift + 7) ≤ value / 128 * 2 ^ (shift + 7) :=
          Nat.mul_le_mul_right _ (by omega)
        omega
      rw [encodeUviLenFrom, if_pos (by omega), hsplit, ← Nat.add_assoc]
      apply @readUviLenFrom_turn acc shift (left + 1) (value % 128)
      · rw [toNat_marked]
        omega
      · exact hshift
      · omega
      · rw [if_neg (by rw [toNat_marked]; omega)]
        exact ih hrest hshift' (by omega)

/-- `read_uvi_len_async` takes exactly the bytes of `encode_uvi_len`. -/
theorem readUviLenAsync_encode (hvalue : value < 2 ^ 64) :
    Consumes readUviLenAsync (encodeUviLen value) value := by
  have hread : Consumes (readUviLenFrom 0 0 10) (encodeUviLenFrom 10 value)
      (0 + value * 2 ^ 0) := by
    apply readUviLenFrom_encode
    · exact hvalue.trans (by decide)
    · decide
    · omega
  rw [Nat.zero_add, Nat.pow_zero, Nat.mul_one] at hread
  exact hread

/-! ## Frames -/

/-- A data chunk of a frame stream: four bytes of checksum, and the data as it is or compressed. -/
structure DataChunk where
  compressed : Bool
  checksum : List Byte
  data : List Byte
  checksum_length : checksum.length = 4
  nonempty : data ≠ []
  small : data.length ≤ 65536

variable {snap : SnapEncoder}

def DataChunk.body (snap : SnapEncoder) (chunk : DataChunk) : List Byte :=
  chunk.checksum ++ if chunk.compressed then snap.compress chunk.data else chunk.data

/-- The type, the length on three bytes, and the body. -/
def DataChunk.bytes (snap : SnapEncoder) (chunk : DataChunk) : List Byte :=
  (if chunk.compressed then 0x00#8 else 0x01#8) :: leBytes 3 (chunk.body snap).length ++
    chunk.body snap

/-- The stream identifier chunk. -/
def streamIdentifier : List Byte :=
  0xff#8 :: leBytes 3 6 ++ [0x73#8, 0x4e#8, 0x61#8, 0x50#8, 0x70#8, 0x59#8]

/-- **What is assumed of `snap`.** The frames of a payload that is not empty are the stream
identifier and data chunks whose contents are the payload; a compressed chunk fits its length field,
and raw decompression inverts raw compression. -/
structure SnapEncoder.Framed (snap : SnapEncoder) : Prop where
  frames : ∀ payload ≠ [], ∃ chunks : List DataChunk,
    snap.frameEncode payload =
        .ok (streamIdentifier ++ (chunks.map (DataChunk.bytes snap)).flatten) ∧
      (chunks.map DataChunk.data).flatten = payload
  compress_fits : ∀ data, data.length ≤ 65536 → (snap.compress data).length + 4 < 2 ^ 24
  decompressLen_compress : ∀ data, data.length ≤ 65536 →
    snap.decompressLen (snap.compress data) = .ok data.length
  decompress_compress : ∀ data, data.length ≤ 65536 →
    snap.decompress (snap.compress data) data.length = .ok data

private theorem frameLen_header (type : Byte) {len : Nat} (hlen : len < 2 ^ 24) :
    ((type :: leBytes 3 len).getD 1 0#8).toNat +
      ((type :: leBytes 3 len).getD 2 0#8).toNat * 2 ^ 8 +
      ((type :: leBytes 3 len).getD 3 0#8).toNat * 2 ^ 16 = len := by
  have hbytes : leBytes 3 len = [BitVec.ofNat 8 (len >>> (8 * 0)), BitVec.ofNat 8 (len >>> (8 * 1)),
      BitVec.ofNat 8 (len >>> (8 * 2))] := rfl
  rw [hbytes]
  simp only [List.getD_cons_succ, List.getD_cons_zero, BitVec.toNat_ofNat,
    Nat.shiftRight_eq_div_pow]
  omega

section Frame

variable {lib : SnapLib} {expectedLen : Nat} {out : List Byte}

private theorem readFrame_consumes {type : Byte} {body data : List Byte} (hbody : body ≠ [])
    (hlen : body.length < 2 ^ 24)
    (hdata : Consumes (chunkData lib expectedLen out (chunkType type) body) [] data)
    (hroom : (out ++ data).length ≤ expectedLen) :
    Consumes (readFrame lib expectedLen out) (type :: leBytes 3 body.length ++ body)
      (out ++ data) := by
  have hheader : Consumes (readExact 4) (type :: leBytes 3 body.length)
      (type :: leBytes 3 body.length) := Consumes.readExact rfl
  have hpos : body.length ≠ 0 := fun h => hbody (List.eq_nil_of_length_eq_zero h)
  have hchunk : Consumes (readExact body.length) body body := Consumes.readExact rfl
  have hmax : body.length ≤ maxBuffer := hlen.le.trans (by decide)
  unfold readFrame
  apply hheader.bind
  dsimp only
  rw [frameLen_header type hlen, if_neg hpos]
  apply (Consumes.allocate hmax).skip
  apply hchunk.last
  apply hdata.skip
  rw [if_neg (Nat.not_lt.mpr hroom)]
  exact Consumes.pure _

private theorem readFrame_streamIdentifier :
    Consumes (readFrame lib expectedLen []) streamIdentifier [] := by
  apply @readFrame_consumes lib expectedLen [] 0xff#8
    [0x73#8, 0x4e#8, 0x61#8, 0x50#8, 0x70#8, 0x59#8] []
  · exact List.cons_ne_nil _ _
  · decide
  · exact Consumes.pure _
  · exact Nat.zero_le _

end Frame

private theorem chunkData_body (framed : snap.Framed) (chunk : DataChunk) {expectedLen : Nat}
    {out : List Byte} (hroom : (out ++ chunk.data).length ≤ expectedLen) :
    Consumes (chunkData snap.toSnapLib expectedLen out
      (chunkType (if chunk.compressed then 0x00#8 else 0x01#8)) (chunk.body snap)) []
      chunk.data := by
  have hdrop : (chunk.body snap).drop 4 =
      if chunk.compressed then snap.compress chunk.data else chunk.data :=
    List.drop_left' chunk.checksum_length
  have hfour : ¬ (chunk.body snap).length < 4 := by
    rw [DataChunk.body, List.length_append, chunk.checksum_length]
    omega
  rw [List.length_append] at hroom
  cases hkind : chunk.compressed with
  | false =>
    rw [hkind] at hdrop
    simp only [Bool.false_eq_true, if_false] at hdrop
    show Consumes (chunkData _ _ _ .uncompressed _) [] _
    rw [chunkData, if_neg hfour, hdrop, if_neg (Nat.not_lt.mpr hroom)]
    exact Consumes.pure _
  | true =>
    rw [hkind] at hdrop
    simp only [if_true] at hdrop
    show Consumes (chunkData _ _ _ .compressed _) [] _
    have hmax : chunk.data.length ≤ maxBuffer := chunk.small.trans (by decide)
    rw [chunkData, if_neg hfour, hdrop, framed.decompressLen_compress _ chunk.small]
    dsimp only
    rw [if_neg (Nat.not_lt.mpr hroom), framed.decompress_compress _ chunk.small]
    exact (Consumes.allocate hmax).skip (Consumes.pure _)

private theorem readFrame_chunk (framed : snap.Framed) (chunk : DataChunk) {expectedLen : Nat}
    {out : List Byte} (hroom : (out ++ chunk.data).length ≤ expectedLen) :
    Consumes (readFrame snap.toSnapLib expectedLen out) (chunk.bytes snap)
      (out ++ chunk.data) := by
  have hlen : (chunk.body snap).length < 2 ^ 24 := by
    rw [DataChunk.body, List.length_append, chunk.checksum_length]
    have hcompressed := framed.compress_fits _ chunk.small
    have hsmall := chunk.small
    split <;> omega
  have hbody : chunk.body snap ≠ [] := by
    intro hnil
    have hchecksum := chunk.checksum_length
    rw [(List.append_eq_nil_iff.mp hnil).1] at hchecksum
    cases hchecksum
  exact readFrame_consumes hbody hlen (chunkData_body framed chunk hroom) hroom

/-- **The frame loop stops exactly at the last chunk.** Every chunk carries something, so the
declared length is not reached before. -/
theorem readFrames_chunks (framed : snap.Framed) (chunks : List DataChunk) {expectedLen left : Nat}
    {out : List Byte} (hleft : chunks.length < left)
    (hlen : (out ++ (chunks.map DataChunk.data).flatten).length = expectedLen) :
    Consumes (readFrames snap.toSnapLib expectedLen left true out)
      (chunks.map (DataChunk.bytes snap)).flatten
      (out ++ (chunks.map DataChunk.data).flatten) := by
  induction chunks generalizing left out with
  | nil =>
    obtain ⟨left, rfl⟩ := Nat.exists_eq_succ_of_ne_zero (Nat.ne_of_gt hleft)
    simp only [List.map_nil, List.flatten_nil, List.append_nil] at hlen ⊢
    rw [readFrames, if_neg (by simp [hlen]), if_neg (not_not.mpr hlen)]
    exact Consumes.pure _
  | cons chunk rest ih =>
    obtain ⟨left, rfl⟩ := Nat.exists_eq_succ_of_ne_zero (Nat.ne_of_gt (Nat.zero_lt_of_lt hleft))
    have hpos : 0 < chunk.data.length := List.length_pos_iff.mpr chunk.nonempty
    simp only [List.map_cons, List.flatten_cons, List.length_append] at hlen
    have hroom : (out ++ chunk.data).length ≤ expectedLen := by
      rw [List.length_append]
      omega
    have hmore : out.length < expectedLen ∨ true = false := .inl (by omega)
    simp only [List.map_cons, List.flatten_cons, ← List.append_assoc]
    rw [readFrames, if_pos hmore]
    apply (readFrame_chunk framed chunk hroom).bind
    apply ih
    · simpa using hleft
    · simp only [List.length_append]
      omega

private theorem length_le_frames (snap : SnapEncoder) (chunks : List DataChunk) :
    chunks.length ≤ (chunks.map (DataChunk.bytes snap)).flatten.length := by
  induction chunks with
  | nil => exact Nat.zero_le _
  | cons chunk rest ih =>
    rw [List.map_cons, List.flatten_cons, List.length_append, List.length_cons, DataChunk.bytes,
      List.cons_append, List.length_cons]
    omega

/-- **Reading the frames of a payload**, with the length declared before them. -/
theorem readSnappyFrameExact_frames (framed : snap.Framed) {payload bytes : List Byte}
    (hpayload : payload ≠ []) (hsmall : payload.length < 2 ^ 63)
    (hbytes : snap.frameEncode payload = .ok bytes) :
    Consumes (readSnappyFrameExact snap.toSnapLib payload.length) bytes payload := by
  obtain ⟨chunks, hframes, hdata⟩ := framed.frames payload hpayload
  rw [hbytes] at hframes
  obtain rfl := Except.ok.inj hframes
  have hmax : payload.length ≤ maxBuffer := Nat.le_sub_one_of_lt hsmall
  apply (Consumes.reserve hmax).skip
  apply Consumes.withBytesLeft
  intro count hleft
  have hcount := length_le_frames snap chunks
  rw [List.length_append] at hleft
  rw [readFrames, if_pos (.inr rfl)]
  apply readFrame_streamIdentifier.bind
  have hrest := @readFrames_chunks snap framed chunks payload.length (count + 1) [] (by omega)
    (by rw [List.nil_append, hdata])
  rwa [List.nil_append, hdata] at hrest

/-! ## Responses -/

private theorem readResponseChunk_frame (framed : snap.Framed) {code : Byte}
    {payload bytes : List Byte} (hpayload : payload ≠ []) (hsmall : payload.length < 2 ^ 63)
    (hframe : frameAfter snap [code] payload = .ok bytes) :
    Consumes (readResponseChunk snap.toSnapLib) bytes (some (code, payload)) := by
  unfold frameAfter snappyFrameCompress at hframe
  split at hframe
  · cases hframe
  · next compressed hcompressed =>
    obtain rfl := Except.ok.inj hframe
    have hcode : Consumes (readExact 1) [code] [code] := Consumes.readExact rfl
    have hlen := readUviLenAsync_encode (hsmall.trans (by decide))
    have hheader : Consumes readResponseHeader ([code] ++ encodeUviLen payload.length)
        (some (code, payload.length)) :=
      hcode.orEof.bind (hlen.last (Consumes.pure _))
    have hframes := readSnappyFrameExact_frames framed hpayload hsmall hcompressed
    exact hheader.bind (hframes.last (Consumes.pure _))

private theorem frameAfter_returns (framed : snap.Framed) (front : List Byte) {payload : List Byte}
    (hpayload : payload ≠ []) : ∃ bytes, frameAfter snap front payload = .ok bytes := by
  obtain ⟨chunks, hframes, -⟩ := framed.frames payload hpayload
  unfold frameAfter snappyFrameCompress
  rw [hframes]
  exact ⟨_, rfl⟩

/-- The chunks of a streamed response, each read as its payload. -/
theorem writeChunks_returns (framed : snap.Framed)
    (hpayloads : ∀ payload ∈ payloads, payload ≠ [] ∧ payload.length < 2 ^ 63) :
    ∃ chunks, writeChunks snap payloads = ⟨chunks.flatten, .ok ()⟩ ∧
      List.Forall₂ (fun payload chunk =>
        Consumes (readResponseChunk snap.toSnapLib) chunk (some (0#8, payload)))
        payloads chunks := by
  induction payloads with
  | nil => exact ⟨[], rfl, .nil⟩
  | cons payload rest ih =>
    obtain ⟨⟨hpayload, hsmall⟩, hrest⟩ := List.forall_mem_cons.mp hpayloads
    obtain ⟨bytes, hbytes⟩ := frameAfter_returns framed [0#8] hpayload
    obtain ⟨chunks, hchunks, hread⟩ := ih hrest
    refine ⟨bytes :: chunks, ?_, .cons (readResponseChunk_frame framed hpayload hsmall hbytes) hread⟩
    rw [writeChunks, hbytes, hchunks]
    rfl

private theorem readResponseChunk_end (lib : SnapLib) :
    (readResponseChunk lib ⟨[], none⟩).value = .ok (none, ⟨[], none⟩) := rfl

private theorem length_pos_of_consumes {lib : SnapLib} {chunk : List Byte} {read : Byte × List Byte}
    (h : Consumes (readResponseChunk lib) chunk (some read)) : 0 < chunk.length := by
  rw [List.length_pos_iff]
  rintro rfl
  have hend := readResponseChunk_end lib
  rw [← List.append_nil ([] : List Byte), h [] none] at hend
  cases hend

/-- The chunk loop collects the payloads in order, up to the end of the stream. -/
theorem readChunks_payloads {lib : SnapLib} {chunks : List (List Byte)}
    (hread : List.Forall₂ (fun payload chunk =>
      Consumes (readResponseChunk lib) chunk (some (0#8, payload))) payloads chunks) {left : Nat}
    (hleft : payloads.length < left) (before : List (List Byte)) :
    (readChunks lib left before ⟨chunks.flatten, none⟩).value =
      .ok (before ++ payloads, ⟨[], none⟩) := by
  induction hread generalizing left before with
  | nil =>
    obtain ⟨left, rfl⟩ := Nat.exists_eq_succ_of_ne_zero (Nat.ne_of_gt hleft)
    rw [readChunks, List.append_nil]
    exact value_bind (readResponseChunk_end lib)
  | @cons payload chunk payloads chunks hchunk _ ih =>
    obtain ⟨left, rfl⟩ := Nat.exists_eq_succ_of_ne_zero (Nat.ne_of_gt (Nat.zero_lt_of_lt hleft))
    rw [readChunks, List.flatten_cons, value_bind (hchunk chunks.flatten none)]
    dsimp only
    rw [if_neg (not_not.mpr rfl), ih (by simpa using hleft), List.append_assoc]
    rfl

private theorem length_le_flatten {lib : SnapLib} {chunks : List (List Byte)}
    (hread : List.Forall₂ (fun payload chunk =>
      Consumes (readResponseChunk lib) chunk (some (0#8, payload))) payloads chunks) :
    payloads.length ≤ chunks.flatten.length := by
  induction hread with
  | nil => exact Nat.zero_le _
  | cons hchunk _ ih =>
    have hpos := length_pos_of_consumes hchunk
    rw [List.flatten_cons, List.length_append, List.length_cons]
    omega

/-- **The framing of responses.** On a block protocol what `write_response` wrote for a list of
payloads is a chunk for each, every one consumed exactly, and `read_response` returns the list; on
the status protocol it returns the single payload. -/
theorem readResponse_writeResponse (framed : snap.Framed) (protocol : String)
    (payloads : List (List Byte))
    (hpayloads : ∀ payload ∈ payloads, payload ≠ [] ∧ payload.length < 2 ^ 63) :
    (streamsBlocks protocol = true → ∃ chunks : List (List Byte),
      writeResponse snap { protocol, responseCode := 0#8, payloads } =
          ⟨chunks.flatten, .ok ()⟩ ∧
        List.Forall₂ (fun payload chunk =>
          Consumes (readResponseChunk snap.toSnapLib) chunk (some (0#8, payload)))
          payloads chunks ∧
        (readResponse snap.toSnapLib protocol ⟨chunks.flatten, none⟩).value =
          .ok ({ protocol, responseCode := 0#8, payloads }, ⟨[], none⟩)) ∧
    (parseProtocolId protocol = some .statusV1 → ∀ payload, payloads = [payload] →
      ∃ bytes, writeResponse snap { protocol, responseCode := 0#8, payloads } =
          ⟨bytes, .ok ()⟩ ∧
        (readResponse snap.toSnapLib protocol ⟨bytes, none⟩).value =
          .ok ({ protocol, responseCode := 0#8, payloads }, ⟨[], none⟩)) := by
  refine ⟨fun blocks => ?_, fun status payload hsingle => ?_⟩
  · obtain ⟨chunks, hchunks, hread⟩ := writeChunks_returns framed hpayloads
    refine ⟨chunks, ?_, hread, ?_⟩
    · unfold writeResponse
      rw [if_neg (not_not.mpr rfl)]
      cases payloads with
      | nil => exact hchunks
      | cons payload rest =>
        rw [if_neg (by simp), if_pos blocks]
        exact hchunks
    · have hloop : (withBytesLeft (fun count => readChunks snap.toSnapLib (count + 1) [])
          ⟨chunks.flatten, none⟩).value = .ok (payloads, ⟨[], none⟩) :=
        readChunks_payloads hread (Nat.lt_succ_of_le (length_le_flatten hread)) []
      rw [readResponse, if_pos blocks]
      exact value_bind hloop
  · subst hsingle
    obtain ⟨hpayload, hsmall⟩ := hpayloads payload List.mem_cons_self
    obtain ⟨bytes, hbytes⟩ := frameAfter_returns framed [0#8] hpayload
    have hstream : streamsBlocks protocol = false := by
      unfold streamsBlocks
      rw [status]
      decide
    refine ⟨bytes, ?_, ?_⟩
    · unfold writeResponse
      rw [if_neg (not_not.mpr rfl), if_neg (by simp), hstream, if_neg Bool.false_ne_true]
      show writeFramed (frameAfter snap [0#8] payload) = _
      rw [hbytes]
      rfl
    · have hchunk := readResponseChunk_frame framed hpayload hsmall hbytes [] none
      rw [List.append_nil] at hchunk
      rw [readResponse, hstream, if_neg Bool.false_ne_true, value_bind hchunk]
      rfl

/-- A `snap` that stores every byte of a payload in a chunk of its own. -/
def storedChunk (byte : Byte) : DataChunk where
  compressed := false
  checksum := List.replicate 4 0#8
  data := [byte]
  checksum_length := rfl
  nonempty := List.cons_ne_nil _ _
  small := by simp

def storingSnap : SnapEncoder where
  toSnapLib := { plainSnap with
    decompressLen := fun bytes => .ok bytes.length
    decompress := fun bytes _ => .ok bytes }
  compress := id
  frameEncode payload := .ok (streamIdentifier ++ (payload.map fun byte =>
    0x01#8 :: leBytes 3 5 ++ List.replicate 4 0#8 ++ [byte]).flatten)

private theorem storingSnap_framed : storingSnap.Framed where
  frames payload _ := by
    refine ⟨payload.map storedChunk, ?_, ?_⟩
    · rw [List.map_map]
      rfl
    · rw [List.map_map]
      show (payload.map fun byte => [byte]).flatten = payload
      rw [← List.flatMap_def, List.flatMap_singleton']
  compress_fits data hsmall := by
    show data.length + 4 < 2 ^ 24
    omega
  decompressLen_compress _ _ := rfl
  decompress_compress _ _ := rfl

def rangeProtocol : String := "/leanconsensus/req/blocks_by_range/1/ssz_snappy"

/-- The law at a response of two payloads. -/
theorem readResponse_writeResponse_two :
    ∃ chunks : List (List Byte),
      writeResponse storingSnap
          { protocol := rangeProtocol, responseCode := 0#8, payloads := [[1#8, 2#8], [3#8]] } =
        ⟨chunks.flatten, .ok ()⟩ ∧
      (readResponse storingSnap.toSnapLib rangeProtocol ⟨chunks.flatten, none⟩).value =
        .ok ({ protocol := rangeProtocol, responseCode := 0#8, payloads := [[1#8, 2#8], [3#8]] },
          ⟨[], none⟩) := by
  obtain ⟨chunks, hwritten, -, hread⟩ :=
    (readResponse_writeResponse storingSnap_framed rangeProtocol [[1#8, 2#8], [3#8]]
      (by decide)).1 (by decide +kernel)
  exact ⟨chunks, hwritten, hread⟩

end Peam
