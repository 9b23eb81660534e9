import Mathlib.Algebra.Order.BigOperators.Group.List
import Peam.Stream

/-!
# What a peer can make the codec ask for

Every buffer the codec asks for is paid by bytes it has received, at a fixed rate, except the one of
a declared length, which is asked for at once and pays for itself (`readRequest_pays`,
`readResponse_pays`). Nothing compares a declared length with a maximum. So a read is bounded exactly
if every length the stream declares is (`reads_bounded_iff`), and a few bytes suffice to ask for
gigabytes, or to panic (`declaredLength_unbounded`).
-/

namespace Peam

open Packed (Byte)
open Streams
open Streams.Reading

variable {len : Nat} {protocol : String}

/-- What `snap` documents: a decompressed length is a `u32`. -/
structure SnapLib.Lawful (lib : SnapLib) : Prop where
  decompressLen_lt : ∀ bytes len, lib.decompressLen bytes = .ok len → len < 2 ^ 32

/-- Buffers paid for by a received byte: a frame's header of four covers the frame and what it
decompresses to. -/
def bufferRate : Nat := 2 ^ 31

variable {lib : SnapLib} {rate credit : Nat} {stream : Stream}

/-! ## Lengths -/

private theorem readUviLenFrom_pays (value shift left : Nat) :
    Pays rate credit (readUviLenFrom value shift left) stream fun _ rest _ =>
      rest.bytes.length ≤ stream.bytes.length := by
  induction left generalizing value shift credit stream with
  | zero => exact Pays.failWith
  | succ left ih =>
    apply Pays.bind (Pays.readExact 1)
    intro buf rest credit' h
    apply Pays.bind (Pays.lift _)
    intro value' rest' credit'' h'
    obtain ⟨-, rfl, -⟩ := h'
    split
    · apply Pays.pure
      omega
    · apply Pays.weaken (ih value' (shift + 7))
      intro _ after left' hle
      exact ⟨left', le_rfl, by omega⟩

private theorem readUviLenFrom_quiet (value shift left : Nat) :
    Quiet (readUviLenFrom value shift left) := by
  induction left generalizing value shift with
  | zero => exact Quiet.fail _
  | succ left ih =>
    apply Quiet.bind (Quiet.readExact 1)
    intro buf
    apply Quiet.bind (Quiet.lift _)
    intro value'
    split
    · exact Quiet.pure _
    · exact ih _ _

/-! ## Frames -/

private theorem chunkData_pays (lawful : lib.Lawful) (expectedLen : Nat) (out : List Byte)
    (type : ChunkType) (chunk : List Byte) (covered : 2 ^ 32 ≤ credit) :
    Pays rate credit (chunkData lib expectedLen out type chunk) stream fun _ rest _ =>
      rest = stream := by
  cases type with
  | skipped => exact Pays.pure rfl
  | unskippable => exact Pays.failWith
  | uncompressed =>
    unfold chunkData
    dsimp only
    split
    · exact Pays.failWith
    split
    · exact Pays.failWith
    exact Pays.pure rfl
  | compressed =>
    unfold chunkData
    dsimp only
    split
    · exact Pays.failWith
    split
    · exact Pays.failWith
    next decodedLen hlen =>
    have hsmall := lawful.decompressLen_lt _ _ hlen
    split
    · exact Pays.failWith
    apply Pays.bind (Pays.allocate (by unfold maxBuffer; omega) (by omega))
    intro _ rest credit' h
    obtain ⟨-, rfl⟩ := h
    split
    · exact Pays.failWith
    · exact Pays.pure rfl

private theorem chunkData_quiet (expectedLen : Nat) (out : List Byte) (type : ChunkType)
    (chunk : List Byte) : Quiet (chunkData lib expectedLen out type chunk) := by
  cases type with
  | skipped => exact Quiet.pure _
  | unskippable => exact Quiet.fail _
  | uncompressed =>
    unfold chunkData
    dsimp only
    split
    · exact Quiet.fail _
    split
    · exact Quiet.fail _
    exact Quiet.pure _
  | compressed =>
    unfold chunkData
    dsimp only
    split
    · exact Quiet.fail _
    split
    · exact Quiet.fail _
    split
    · exact Quiet.fail _
    apply Quiet.bind (Quiet.allocate _)
    intro _
    split
    · exact Quiet.fail _
    · exact Quiet.pure _

private theorem frameLen_lt (header : List Byte) :
    (header.getD 1 0#8).toNat + (header.getD 2 0#8).toNat * 2 ^ 8 +
      (header.getD 3 0#8).toNat * 2 ^ 16 < 2 ^ 24 := by
  have h1 := (header.getD 1 0#8).isLt
  have h2 := (header.getD 2 0#8).isLt
  have h3 := (header.getD 3 0#8).isLt
  omega

/-- The four bytes of a frame's header pay for the turn. -/
theorem readFrame_pays (lawful : lib.Lawful) (enough : bufferRate ≤ rate) (expectedLen : Nat)
    (out : List Byte) :
    Pays rate credit (readFrame lib expectedLen out) stream fun _ rest _ =>
      rest.bytes.length + 4 ≤ stream.bytes.length := by
  unfold bufferRate at enough
  apply Pays.bind (Pays.readExact 4)
  intro header rest credit' h
  obtain ⟨hcredit, -, hrest⟩ := h
  have hlen := frameLen_lt header
  dsimp only
  generalize (header.getD 1 0#8).toNat + (header.getD 2 0#8).toNat * 2 ^ 8 +
    (header.getD 3 0#8).toNat * 2 ^ 16 = len at hlen ⊢
  split
  · apply Pays.pure
    omega
  · apply Pays.bind (Pays.allocate (by unfold maxBuffer; omega) (by omega))
    intro _ rest' credit'' h
    obtain ⟨hcredit', rfl⟩ := h
    apply Pays.bind (Pays.readExact len)
    intro chunk rest'' credit''' h
    obtain ⟨hcredit'', -, hrest'⟩ := h
    apply Pays.bind (chunkData_pays lawful _ _ _ _ (by omega))
    intro data after left hafter
    subst hafter
    split
    · exact Pays.failWith
    · apply Pays.pure
      omega

private theorem readFrame_quiet (expectedLen : Nat) (out : List Byte) :
    Quiet (readFrame lib expectedLen out) := by
  apply Quiet.bind (Quiet.readExact 4)
  intro header
  dsimp only
  split
  · exact Quiet.pure _
  · apply Quiet.bind (Quiet.allocate _)
    intro _
    apply Quiet.bind (Quiet.readExact _)
    intro chunk
    apply Quiet.bind (chunkData_quiet _ _ _ _)
    intro data
    split
    · exact Quiet.fail _
    · exact Quiet.pure _

/-- The loop ends within its bound, since every turn takes bytes off the stream. -/
theorem readFrames_pays (lawful : lib.Lawful) (enough : bufferRate ≤ rate) (expectedLen left : Nat)
    (sawAnyChunk : Bool) (out : List Byte) (bound : stream.bytes.length + 2 ≤ left) :
    Pays rate credit (readFrames lib expectedLen left sawAnyChunk out) stream fun _ rest _ =>
      rest.bytes.length ≤ stream.bytes.length := by
  induction left generalizing sawAnyChunk out credit stream with
  | zero => omega
  | succ left ih =>
    unfold readFrames
    split
    · apply Pays.bind (readFrame_pays lawful enough expectedLen out)
      intro out' rest credit' hrest
      apply Pays.weaken (ih true out' (by omega))
      intro _ after left' hle
      exact ⟨left', le_rfl, by omega⟩
    split
    · exact Pays.failWith
    · exact Pays.pure le_rfl

private theorem readFrames_quiet (expectedLen left : Nat) (sawAnyChunk : Bool) (out : List Byte) :
    Quiet (readFrames lib expectedLen left sawAnyChunk out) := by
  induction left generalizing sawAnyChunk out with
  | zero => exact Quiet.fail _
  | succ left ih =>
    unfold readFrames
    split
    · exact Quiet.bind (readFrame_quiet _ _) fun out' => ih true out'
    split
    · exact Quiet.fail _
    · exact Quiet.pure _

/-! ## Chunks -/

private theorem readSnappyFrameExact_pays (lawful : lib.Lawful) (enough : bufferRate ≤ rate)
    (expectedLen : Nat) :
    Pays rate credit (readSnappyFrameExact lib expectedLen) stream fun _ rest _ =>
      rest.bytes.length ≤ stream.bytes.length := by
  apply Pays.bind Pays.reserve
  intro _ rest credit' h
  obtain ⟨-, rfl⟩ := h
  apply Pays.withBytesLeft
  exact readFrames_pays lawful enough expectedLen _ false [] le_rfl

private theorem readResponseHeader_pays :
    Pays rate credit readResponseHeader stream fun header rest _ =>
      header.isSome = true → rest.bytes.length < stream.bytes.length := by
  have code : Pays rate credit (orEof (readExact 1)) stream fun codeBuf rest _ =>
      codeBuf.isSome = true → rest.bytes.length + 1 = stream.bytes.length := by
    apply Pays.orEof
    · apply Pays.weaken (Pays.readExact 1)
      intro buf rest left h
      exact ⟨left, le_rfl, fun _ => h.2.2⟩
    · intro h
      cases h
  apply Pays.bind code
  intro codeBuf rest credit' h
  cases codeBuf with
  | none =>
    apply Pays.pure
    intro h
    cases h
  | some codeBuf =>
    have hrest := h rfl
    apply Pays.bind (readUviLenFrom_pays 0 0 10)
    intro expectedLen rest' credit'' hle
    apply Pays.pure
    intro _
    omega

private theorem readResponseHeader_quiet : Quiet readResponseHeader := by
  apply Quiet.bind (Quiet.orEof (Quiet.readExact 1))
  intro codeBuf
  cases codeBuf with
  | none => exact Quiet.pure _
  | some codeBuf => exact Quiet.bind (readUviLenFrom_quiet _ _ _) fun _ => Quiet.pure _

private theorem readResponseChunk_pays (lawful : lib.Lawful) (enough : bufferRate ≤ rate) :
    Pays rate credit (readResponseChunk lib) stream fun chunk rest _ =>
      chunk.isSome = true → rest.bytes.length < stream.bytes.length := by
  apply Pays.bind readResponseHeader_pays
  intro header rest credit' h
  cases header with
  | none =>
    apply Pays.pure
    intro h
    cases h
  | some header =>
    have hrest := h rfl
    apply Pays.bind (readSnappyFrameExact_pays lawful enough header.2)
    intro payload rest' credit'' hle
    apply Pays.pure
    intro _
    omega

private theorem declared_readResponseChunk (stream : Stream) :
    declared (readResponseChunk lib stream).events =
      match (readResponseHeader stream).value with
      | .ok (some (_, expectedLen), _) => [expectedLen]
      | _ => [] := by
  unfold readResponseChunk
  rw [declared_bind, readResponseHeader_quiet stream, List.nil_append]
  cases (readResponseHeader stream).value with
  | error e => rfl
  | ok result =>
    obtain ⟨header, rest⟩ := result
    cases header with
    | none => rfl
    | some header =>
      obtain ⟨code, expectedLen⟩ := header
      dsimp only
      rw [declared_bind_quiet fun _ => Quiet.pure _, readSnappyFrameExact,
        declared_bind_quiet fun _ => Quiet.withBytesLeft fun _ => readFrames_quiet _ _ _ _]
      rfl

private theorem readResponseChunk_marks (stream : Stream) :
    Marks (readResponseChunk lib stream) := by
  apply Marks.bind (Marks.of_quiet readResponseHeader_quiet)
  intro header rest _
  cases header with
  | none => exact Marks.of_quiet (Quiet.pure _)
  | some header =>
    apply Marks.bind
    · apply Marks.bind (Marks.reserve _)
      intro _ rest' _
      exact Marks.of_quiet (Quiet.withBytesLeft fun _ => readFrames_quiet _ _ _ _)
    · intro payload rest' _
      exact Marks.of_quiet (Quiet.pure _)

/-! ## The two readers -/

private theorem readRequest_pays (protocol : String) :
    Pays rate credit (readRequest lib protocol) stream fun _ _ _ => True := by
  apply Pays.bind Pays.readToEnd
  intro buf rest credit' _
  apply Pays.bind (Pays.lift _)
  intro len rest' credit'' _
  have payload : Pays rate credit'' (snappyFrameDecompress lib (buf.drop len.2) len.1) rest'
      fun _ _ _ => True := by
    apply Pays.bind Pays.reserve
    intro _ rest'' credit''' _
    apply Pays.weaken (Pays.lift _)
    intro _ _ left _
    exact ⟨left, le_rfl, trivial⟩
  apply Pays.bind payload
  intro payload after left _
  exact Pays.pure trivial

private theorem readChunks_pays (lawful : lib.Lawful) (enough : bufferRate ≤ rate) (left : Nat)
    (payloads : List (List Byte)) (bound : stream.bytes.length + 1 ≤ left) :
    Pays rate credit (readChunks lib left payloads) stream fun _ _ _ => True := by
  induction left generalizing payloads credit stream with
  | zero => omega
  | succ left ih =>
    apply Pays.bind (readResponseChunk_pays lawful enough)
    intro chunk rest credit' h
    cases chunk with
    | none => exact Pays.pure trivial
    | some chunk =>
      have hrest := h rfl
      exact ih _ (by omega)

private theorem readResponse_pays (lawful : lib.Lawful) (enough : bufferRate ≤ rate)
    (protocol : String) :
    Pays rate credit (readResponse lib protocol) stream fun _ _ _ => True := by
  unfold readResponse
  split
  · apply Pays.bind (Pays.withBytesLeft (readChunks_pays lawful enough _ [] le_rfl))
    intro payloads rest credit' _
    exact Pays.pure trivial
  · apply Pays.bind (readResponseChunk_pays lawful enough)
    intro chunk rest credit' _
    cases chunk with
    | none => exact Pays.pure trivial
    | some chunk =>
      dsimp only
      split
      · exact Pays.failWith
      · exact Pays.pure trivial

private theorem readRequest_marks (protocol : String) (stream : Stream) :
    Marks (readRequest lib protocol stream) := by
  apply Marks.bind (Marks.of_quiet Quiet.readToEnd)
  intro buf rest _
  apply Marks.bind (Marks.of_quiet (Quiet.lift _))
  intro len rest' _
  apply Marks.bind
  · apply Marks.bind (Marks.reserve _)
    intro _ rest'' _
    exact Marks.of_quiet (Quiet.lift _)
  · intro payload after _
    exact Marks.of_quiet (Quiet.pure _)

private theorem readChunks_marks (left : Nat) (payloads : List (List Byte)) (stream : Stream) :
    Marks (readChunks lib left payloads stream) := by
  induction left generalizing payloads stream with
  | zero => exact Marks.of_quiet (Quiet.fail _)
  | succ left ih =>
    apply Marks.bind (readResponseChunk_marks stream)
    intro chunk rest _
    cases chunk with
    | none => exact Marks.of_quiet (Quiet.pure _)
    | some chunk => exact ih _ _

private theorem readResponse_marks (protocol : String) (stream : Stream) :
    Marks (readResponse lib protocol stream) := by
  unfold readResponse
  split
  · apply Marks.bind (readChunks_marks _ _ _)
    intro payloads rest _
    exact Marks.of_quiet (Quiet.pure _)
  · apply Marks.bind (readResponseChunk_marks stream)
    intro chunk rest _
    cases chunk with
    | none => exact Marks.of_quiet (Quiet.pure _)
    | some chunk =>
      dsimp only
      split
      · exact Marks.of_quiet (Quiet.fail _)
      · exact Marks.of_quiet (Quiet.pure _)

/-! ## Declared lengths -/

/-- A length the chunks of a stream declare, in a header the reader gets to. -/
inductive Declares (lib : SnapLib) : Stream → Nat → Prop where
  | here {stream rest : Stream} {code : Byte} {len : Nat} :
      (readResponseHeader stream).value = .ok (some (code, len), rest) → Declares lib stream len
  | later {stream rest : Stream} {chunk : Byte × List Byte} {len : Nat} :
      (readResponseChunk lib stream).value = .ok (some chunk, rest) → Declares lib rest len →
        Declares lib stream len

/-- A length a response declares: any chunk's where blocks are streamed, else the first chunk's. -/
def ResponseDeclares (lib : SnapLib) (protocol : String) (stream : Stream) (len : Nat) : Prop :=
  if streamsBlocks protocol then Declares lib stream len
  else ∃ code rest, (readResponseHeader stream).value = .ok (some (code, len), rest)

/-- The length a request declares. -/
def RequestDeclares (stream : Stream) (len : Nat) : Prop :=
  stream.ending = none ∧ ∃ prefixLen, decodeUviLen stream.bytes = .ok (len, prefixLen)

private theorem mem_declared_readResponseChunk :
    len ∈ declared (readResponseChunk lib stream).events ↔
      ∃ code rest, (readResponseHeader stream).value = .ok (some (code, len), rest) := by
  rw [declared_readResponseChunk]
  cases (readResponseHeader stream).value with
  | error e => simp
  | ok result =>
    obtain ⟨header, rest⟩ := result
    cases header with
    | none => simp
    | some header =>
      obtain ⟨code, expectedLen⟩ := header
      simp [eq_comm]

private theorem mem_declared_readRequest :
    len ∈ declared (readRequest lib protocol stream).events ↔ RequestDeclares stream len := by
  unfold readRequest RequestDeclares
  rw [declared_bind, Quiet.readToEnd stream, List.nil_append, Reading.readToEnd]
  cases stream.ending with
  | some e => simp
  | none =>
    dsimp only
    rw [declared_bind, Quiet.lift _ _, List.nil_append]
    cases decodeUviLen stream.bytes with
    | error e => simp [lift, Reading.fail]
    | ok result =>
      obtain ⟨length, prefixLen⟩ := result
      show len ∈ declared ((snappyFrameDecompress lib (stream.bytes.drop prefixLen) length >>=
        fun payload => pure (⟨protocol, payload⟩ : LeanRequest)) _).events ↔ _
      rw [declared_bind_quiet fun _ => Quiet.pure _, snappyFrameDecompress,
        declared_bind_quiet fun _ => Quiet.lift _]
      simp [reserve, eq_comm]

private theorem mem_declared_readChunks (lawful : lib.Lawful) {left : Nat}
    {payloads : List (List Byte)} (bound : stream.bytes.length + 1 ≤ left) :
    len ∈ declared (readChunks lib left payloads stream).events ↔ Declares lib stream len := by
  induction left generalizing payloads stream with
  | zero => omega
  | succ left ih =>
    have pays := @readResponseChunk_pays lib bufferRate 0 stream lawful le_rfl
    have first : len ∈ declared (readResponseChunk lib stream).events → Declares lib stream len := by
      intro h
      obtain ⟨code, rest, hheader⟩ := mem_declared_readResponseChunk.mp h
      exact .here hheader
    rw [readChunks, declared_bind, List.mem_append]
    constructor
    · intro h
      rcases h with h | h
      · exact first h
      · cases hvalue : (readResponseChunk lib stream).value with
        | error e =>
          rw [hvalue] at h
          cases h
        | ok result =>
          obtain ⟨chunk, rest⟩ := result
          rw [hvalue] at h
          cases chunk with
          | none => cases h
          | some chunk =>
            obtain ⟨_, hshorter⟩ := pays.returned hvalue
            have hlt := hshorter rfl
            exact .later hvalue ((ih (by omega)).mp h)
    · intro h
      cases h with
      | here hheader => exact .inl (mem_declared_readResponseChunk.mpr ⟨_, _, hheader⟩)
      | later hvalue hlater =>
        obtain ⟨_, hshorter⟩ := pays.returned hvalue
        have hlt := hshorter rfl
        rw [hvalue]
        exact .inr ((ih (by omega)).mpr hlater)

private theorem mem_declared_readResponse (lawful : lib.Lawful) :
    len ∈ declared (readResponse lib protocol stream).events ↔
      ResponseDeclares lib protocol stream len := by
  unfold readResponse ResponseDeclares
  split
  · rw [declared_bind_quiet fun _ => Quiet.pure _]
    exact mem_declared_readChunks lawful le_rfl
  · rw [declared_bind_quiet]
    · exact mem_declared_readResponseChunk
    · intro chunk
      cases chunk with
      | none => exact Quiet.pure _
      | some chunk =>
        dsimp only
        split
        · exact Quiet.fail _
        · exact Quiet.pure _

/-! ## Bounded reads -/

/-- The read returns or fails with an error, a declared length above the maximum gets no buffer, and
the buffers are within a multiple of what was received and a maximum for each chunk. -/
structure BoundedRead {β : Type} (max rate : Nat) (ran : Ran β) : Prop where
  ends : (∃ a, ran.value = .ok a) ∨ ∃ e, ran.value = .error (.io e)
  refuses : ∀ before after len, ran.events = before ++ .declared len :: after → max < len →
    Event.requested len ∉ after
  paid : requested ran.events ≤
    rate * received ran.events + max * (declared ran.events).length

/-- A run that pays and marks is bounded exactly if its declared lengths are. -/
theorem boundedRead_iff {α : Type} {x : Reading α} {max : Nat}
    (pays : Pays rate 0 x stream fun _ _ _ => True) (marks : Marks (x stream)) :
    BoundedRead max rate (x stream) ↔
      ∀ len ∈ declared (x stream).events, len ≤ max ∧ len ≤ maxBuffer := by
  constructor
  · intro bounded len hmem
    constructor
    · obtain ⟨before, after, hevents⟩ := marks.reserved len hmem
      by_contra hlarge
      exact bounded.refuses before _ len hevents (by omega) List.mem_cons_self
    · by_contra hlarge
      obtain ⟨text, htext⟩ := marks.panicked len hmem (by omega)
      rcases bounded.ends with ⟨a, h⟩ | ⟨e, h⟩
      · cases htext.symm.trans h
      · cases htext.symm.trans h
  · intro small
    have hpaid : requested (x stream).events ≤ earned rate (x stream).events ∧
        ((∃ a, (x stream).value = .ok a) ∨ ∃ e, (x stream).value = .error (.io e)) := by
      unfold Pays at pays
      cases hvalue : (x stream).value with
      | ok result =>
        rw [hvalue] at pays
        obtain ⟨left, hle, -⟩ := pays
        exact ⟨by omega, .inl ⟨result, rfl⟩⟩
      | error e =>
        rw [hvalue] at pays
        cases e with
        | io e => exact ⟨by simpa using pays, .inr ⟨e, rfl⟩⟩
        | panicked text =>
          obtain ⟨-, len, hmem, hlarge⟩ := pays
          have := (small len hmem).2
          omega
        | unended => exact absurd pays id
    refine ⟨hpaid.2, ?_, ?_⟩
    · intro before after len hevents hlarge
      have hmem : len ∈ declared (x stream).events := by
        rw [mem_declared, hevents]
        exact List.mem_append_right _ List.mem_cons_self
      have := (small len hmem).1
      omega
    · have hsum : (declared (x stream).events).sum ≤ (declared (x stream).events).length * max :=
        List.sum_le_card_nsmul _ max fun len hmem => (small len hmem).1
      rw [Nat.mul_comm] at hsum
      have := hpaid.1
      unfold earned at this
      omega

/-- **What a peer can make the codec ask for.** A read is bounded exactly if the lengths the stream
declares are at most the maximum, and at most what a buffer can have. -/
theorem reads_bounded_iff (lawful : lib.Lawful) (enough : bufferRate ≤ rate) (max : Nat)
    (protocol : String) (stream : Stream) :
    (BoundedRead max rate (readRequest lib protocol stream) ↔
      ∀ len, RequestDeclares stream len → len ≤ max ∧ len ≤ maxBuffer) ∧
    (BoundedRead max rate (readResponse lib protocol stream) ↔
      ∀ len, ResponseDeclares lib protocol stream len → len ≤ max ∧ len ≤ maxBuffer) := by
  constructor
  · rw [boundedRead_iff (readRequest_pays protocol) (readRequest_marks protocol stream)]
    exact forall_congr' fun len => imp_congr_left mem_declared_readRequest
  · rw [boundedRead_iff (readResponse_pays lawful enough protocol)
      (readResponse_marks protocol stream)]
    exact forall_congr' fun len => imp_congr_left (mem_declared_readResponse lawful)

/-! ## Three streams -/

/-- A `snap` without compression. -/
def plainSnap : SnapLib where
  decompressLen _ := .ok 0
  decompress _ len := .ok (List.replicate len 0#8)
  frameReadExact bytes len := .ok ((bytes ++ List.replicate len 0#8).take len)
  utf8Lossy _ := ""

private theorem plainSnap_lawful : plainSnap.Lawful where
  decompressLen_lt _ len h := by
    cases h
    decide

def statusProtocol : String := "/leanconsensus/req/status/1/ssz_snappy"

/-- The maximum of the default configuration, 10 MiB. -/
def defaultMaxReqrespBytes : Nat := 10 * 1024 * 1024

/-- A status response of three bytes in an uncompressed frame. -/
def threeBytes : Streams.Stream :=
  ⟨[0#8, 3#8, 1#8, 7#8, 0#8, 0#8, 0#8, 0#8, 0#8, 0#8, 5#8, 6#8, 7#8], none⟩

/-- The law at a stream of three bytes. -/
theorem reads_bounded_threeBytes :
    BoundedRead defaultMaxReqrespBytes bufferRate
      (readResponse plainSnap statusProtocol threeBytes) := by
  apply (reads_bounded_iff plainSnap_lawful le_rfl _ statusProtocol threeBytes).2.mpr
  intro len declares
  rw [ResponseDeclares, if_neg (by decide +kernel)] at declares
  obtain ⟨code, rest, hheader⟩ := declares
  have hvalue : (readResponseHeader threeBytes).value.map (·.1) = .ok (some (0#8, 3)) := by
    decide +kernel
  rw [hheader] at hvalue
  cases hvalue
  decide

/-- A declared length of `2^63`. -/
def hugeRequest : Streams.Stream := ⟨List.replicate 9 0x80#8 ++ [1#8], none⟩

/-- A code and a declared length of `2^32`, and nothing more. -/
def sixBytes : Streams.Stream := ⟨[0#8, 0x80#8, 0x80#8, 0x80#8, 0x80#8, 0x10#8], none⟩

/-- **Nothing bounds a declared length.** Ten bytes of a request panic the reader, and six bytes of a
response ask for four gigabytes. -/
theorem declaredLength_unbounded :
    plainSnap.Lawful ∧
    (readRequest plainSnap statusProtocol hugeRequest).value.map (fun _ => ()) =
      .error (.panicked "capacity overflow") ∧
    ¬ BoundedRead defaultMaxReqrespBytes bufferRate
      (readRequest plainSnap statusProtocol hugeRequest) ∧
    requested (readResponse plainSnap statusProtocol sixBytes).events = 2 ^ 32 ∧
    received (readResponse plainSnap statusProtocol sixBytes).events = 6 ∧
    ¬ BoundedRead defaultMaxReqrespBytes bufferRate
      (readResponse plainSnap statusProtocol sixBytes) := by
  have hpanic : (readRequest plainSnap statusProtocol hugeRequest).value.map (fun _ => ()) =
      .error (.panicked "capacity overflow") := by
    decide +kernel
  have hevents : (readResponse plainSnap statusProtocol sixBytes).events =
      List.replicate 6 (.received 1) ++ .declared (2 ^ 32) :: [.requested (2 ^ 32), .received 0] := by
    decide +kernel
  refine ⟨plainSnap_lawful, hpanic, ?_, by decide +kernel, by decide +kernel, ?_⟩
  · intro bounded
    rcases bounded.ends with ⟨a, h⟩ | ⟨e, h⟩
    · rw [h] at hpanic
      cases hpanic
    · rw [h] at hpanic
      cases hpanic
  · intro bounded
    exact bounded.refuses _ _ _ hevents (by decide) List.mem_cons_self

end Peam
