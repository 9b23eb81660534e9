import Peam.MessageCodec
import Peam.Laws.Acceptance
import Peam.Laws.Encode
import Peam.Laws.ReqResp

/-!
# Which messages the compatibility decoders read back

Each of the two decoders makes a second attempt only if the first one is an error, and the first one
trusts its input: it may as well panic, or return something else.

A container of roots is always told apart. Bare roots are if the first four bytes of the first root,
taken for an offset, are zero (`RootsApart`): a list of roots is read from any number of bytes. A
bare block is as the trusting decoder reads it (`Recovered`), and in a response the other blocks
have to be readable besides (`Readable`), since the whole list is decoded first.
-/

namespace Peam

open Packed
open Calls (Outcome)
open Calls.Outcome (bind_ok sliceFrom slice_ok total_ok slice slice_part bind_error)

variable {bytes : List Byte}

/-- The layout of the lists in a message. Roots stand side by side, and bytes behind the last whole
root are dropped; other elements stand behind a table of ascending offsets, the first of which is the
length of the table. -/
structure StateEncoder.ListLawful (codec : StateEncoder) : Prop where
  encodeRoots : ∀ roots, codec.encodeRoots roots = (roots.map (asRef 32)).flatten
  bytes32 : ∀ {bytes : List Byte}, bytes.length = 32 → codec.bytes32 bytes = Bytes32.fromSlice bytes
  cut : ∀ (limit : Nat) (bytes : List Byte), codec.elements false (some 32) limit bytes =
    (chunks 32 (bytes.length / 32) bytes, none)
  table : ∀ piece rest, ∃ bytes,
    codec.encodeElements (piece :: rest) = leBytes 4 (4 * (rest.length + 1)) ++ bytes
  ascending : ∀ {limit : Nat} {bytes : List Byte} {pieces : List (List Byte)},
    codec.elements false none limit bytes = (pieces, none) →
      ∀ {k tableLen word next : Nat}, readU32 bytes 0 = .ok tableLen → 4 * (k + 2) ≤ tableLen →
        readU32 bytes (4 * k) = .ok word → readU32 bytes (4 * (k + 1)) = .ok next → word ≤ next

/-! ## The two attempts -/

variable {α : Type} {pieces : List (List Byte)}

private theorem orOnError_eq_ok {first second : Outcome α} {a : α} :
    orOnError first second = .ok a ↔
      first = .ok a ∨ (∃ text, first = Outcome.err text) ∧ second = .ok a := by
  cases first with
  | ok b => exact ⟨.inl, fun h => h.elim id fun ⟨⟨_, h⟩, _⟩ => (nomatch h)⟩
  | error failure =>
    cases failure with
    | err text =>
      exact ⟨fun h => .inr ⟨⟨text, rfl⟩, h⟩, fun h => h.elim nofun And.right⟩
    | panicked text => exact ⟨nofun, fun h =>
        h.elim nofun fun ⟨⟨_, h⟩, _⟩ => (nomatch h)⟩

variable {decode : List Byte → Outcome α}

private theorem SszList.decode_stopped {codec : SszCodec} {checked : Bool}
    {fixedLen : Option Nat} {limit : Nat}
    (stops : (codec.elements checked fixedLen limit bytes).2 ≠ none) (list : SszList α limit) :
    SszList.decode codec decode checked fixedLen limit bytes ≠ .ok list := by
  intro read
  obtain ⟨items, -, read⟩ := bind_ok.mp read
  cases hstop : (codec.elements checked fixedLen limit bytes).2 with
  | none => exact stops hstop
  | some text =>
    rw [hstop] at read
    cases read

/-! ## Requests -/

/-- The bare concatenation of the roots. -/
def bareRoots (roots : List Bytes32) : List Byte :=
  (roots.map (asRef 32)).flatten

private theorem length_flatten_of_forall {len : Nat} (h : ∀ piece ∈ pieces, piece.length = len) :
    pieces.flatten.length = len * pieces.length := by
  induction pieces with
  | nil => rfl
  | cons piece rest ih =>
    rw [List.forall_mem_cons] at h
    rw [List.flatten_cons, List.length_append, h.1, ih h.2, List.length_cons, Nat.mul_succ,
      Nat.add_comm]

private theorem length_asRef_of_mem {roots : List Bytes32} :
    ∀ piece ∈ roots.map (asRef 32), piece.length = 32 := by
  intro piece hpiece
  obtain ⟨root, -, rfl⟩ := List.mem_map.mp hpiece
  exact length_asRef 32 root

private theorem length_bareRoots (roots : List Bytes32) :
    (bareRoots roots).length = 32 * roots.length := by
  rw [bareRoots, length_flatten_of_forall length_asRef_of_mem, List.length_map]

/-- There is a first root, and its first four bytes are zero. -/
structure RootsApart (roots : List Bytes32) : Prop where
  nonempty : roots ≠ []
  leading : offsetAt (bareRoots roots) 0 = 0

private theorem length_chunks (len n : Nat) (bytes : List Byte) :
    (chunks len n bytes).length = n := by
  induction n generalizing bytes with
  | zero => rfl
  | succ n ih => rw [chunks, List.length_cons, ih]

private theorem length_of_mem_chunks {len n : Nat} (room : len * n ≤ bytes.length)
    {piece : List Byte} (h : piece ∈ chunks len n bytes) : piece.length = len := by
  induction n generalizing bytes with
  | zero => cases h
  | succ n ih =>
    rw [Nat.mul_succ] at room
    rcases List.mem_cons.mp h with rfl | h
    · rw [List.length_take]
      omega
    · exact ih (by rw [List.length_drop]; omega) h

private theorem chunks_flatten {len : Nat} (h : ∀ piece ∈ pieces, piece.length = len) :
    chunks len pieces.length pieces.flatten = pieces := by
  induction pieces with
  | nil => rfl
  | cons piece rest ih =>
    rw [List.forall_mem_cons] at h
    rw [List.flatten_cons, List.length_cons, chunks, List.take_left' h.1, List.drop_left' h.1,
      ih h.2]

private theorem length_decodeElements {items : List α}
    (h : decodeElements decode pieces = .ok items) : items.length = pieces.length := by
  induction pieces generalizing items with
  | nil =>
    cases h
    rfl
  | cons piece rest ih =>
    obtain ⟨item, -, h⟩ := bind_ok.mp h
    obtain ⟨others, hothers, heq⟩ := bind_ok.mp h
    cases heq
    exact congrArg (· + 1) (ih hothers)

private theorem decodeElements_returns {decode : List Byte → Outcome α}
    (reads : ∀ piece ∈ pieces, ∃ a, decode piece = .ok a) :
    ∃ items, decodeElements decode pieces = .ok items := by
  induction pieces with
  | nil => exact ⟨[], rfl⟩
  | cons piece rest ih =>
    obtain ⟨item, hitem⟩ := reads piece List.mem_cons_self
    obtain ⟨items, hitems⟩ := ih fun other h => reads other (List.mem_cons_of_mem _ h)
    exact ⟨item :: items, by rw [decodeElements, hitem, hitems]; rfl⟩

section Requests

variable {codec : StateEncoder}

/-- What the first attempt makes of bare roots, when the first four bytes are an offset into
them. -/
theorem decodeRequest_first {roots : SszList Bytes32 maxBlocksPerRootRequest}
    (nonempty : roots.items ≠ [])
    (inside : offsetAt (bareRoots roots.items) 0 ≤ 32 * roots.items.length) :
    BlocksByRootRequest.decodeSsz codec (bareRoots roots.items) =
      SszList.decode codec codec.bytes32 false (some 32) maxBlocksPerRootRequest
        ((bareRoots roots.items).drop (offsetAt (bareRoots roots.items) 0)) := by
  have hlen := length_bareRoots roots.items
  have hpos : 0 < roots.items.length := List.length_pos_iff.mpr nonempty
  have hslice : sliceFrom (bareRoots roots.items) (offsetAt (bareRoots roots.items) 0) =
      .ok ((bareRoots roots.items).drop (offsetAt (bareRoots roots.items) 0)) := by
    rw [sliceFrom, slice_ok ⟨by omega, Nat.le_refl _⟩, List.take_length]
  rw [BlocksByRootRequest.decodeSsz, decodeOneList, readU32_eq (by omega)]
  simp only [bind, Except.bind, hslice]

variable (lists : codec.ListLawful)

include lists

private theorem decode_bareRoots {limit : Nat} (list : SszList Bytes32 limit) :
    SszList.decode codec codec.bytes32 false (some 32) limit (bareRoots list.items) =
      .ok list := by
  have hcut : codec.elements false (some 32) limit (bareRoots list.items) =
      (list.items.map (asRef 32), none) := by
    have hchunks := chunks_flatten (@length_asRef_of_mem list.items)
    rw [List.length_map] at hchunks
    rw [lists.cut, length_bareRoots, Nat.mul_div_cancel_left _ (by decide), bareRoots, hchunks]
  have hitems : decodeElements codec.bytes32 (list.items.map (asRef 32)) = .ok list.items := by
    simpa only [List.map_id] using decodeElements_map (f := id) fun root _ =>
      (lists.bytes32 (length_asRef 32 root)).trans (Bytes32.fromSlice_asRef root)
  rw [SszList.decode, hcut, hitems]
  rfl

/-- A list of roots is read from any bytes, one for each 32 of them. -/
theorem decode_roots (limit : Nat) (bytes : List Byte) :
    ∃ list : SszList Bytes32 limit, SszList.decode codec codec.bytes32 false (some 32) limit bytes =
      .ok list ∧ list.items.length = bytes.length / 32 := by
  obtain ⟨items, hitems⟩ := @decodeElements_returns _ (chunks 32 (bytes.length / 32) bytes)
    codec.bytes32 fun piece h => by
      have hlen := length_of_mem_chunks (by omega) h
      refine ⟨BitVec.ofNat 256 (natOfBytes ((piece.take 32).drop 0)), ?_⟩
      rw [lists.bytes32 hlen]
      exact bind_ok.mpr ⟨_, slice_ok ⟨Nat.zero_le _, hlen.ge⟩, rfl⟩
  refine ⟨⟨items⟩, ?_, (length_decodeElements hitems).trans (length_chunks ..)⟩
  rw [SszList.decode, lists.cut, hitems]
  rfl

/-- **A container reads back**, whatever its roots are. -/
theorem decodeRequest_container (roots : SszList Bytes32 maxBlocksPerRootRequest) :
    decodeBlocksByRootRequestCompat codec (BlocksByRootRequest.encodeSsz codec roots) =
      .ok roots := by
  refine orOnError_eq_ok.mpr (.inl ?_)
  refine readU32_part_bind (k := 0) rfl rfl (by decide) ?_
  refine Outcome.slice_part_bind (k := 1) rfl (by simp)
    (by simp [BlocksByRootRequest.encodeSsz]) ?_
  rw [lists.encodeRoots]
  exact decode_bareRoots lists roots

/-- **Which bare requests read back.** -/
theorem decodeRequest_bare_iff (lawful : codec.toSszCodec.Lawful)
    (roots : SszList Bytes32 maxBlocksPerRootRequest) :
    decodeBlocksByRootRequestCompat codec (bareRoots roots.items) = .ok roots ↔
      RootsApart roots.items := by
  have hlen := length_bareRoots roots.items
  constructor
  · intro read
    -- a read that returns does not panic
    have htotal := (total_rootRequest lawful (bareRoots roots.items)).mp
      (read ▸ total_ok roots)
    have nonempty : roots.items ≠ [] := by
      intro h
      rw [h] at htotal
      exact absurd htotal.1 (by decide)
    -- the first attempt returns the roots behind the offset
    obtain ⟨list, hlist, hcount⟩ := decode_roots lists maxBlocksPerRootRequest
      ((bareRoots roots.items).drop (offsetAt (bareRoots roots.items) 0))
    have hfirst := (@decodeRequest_first codec _ nonempty (by omega)).trans hlist
    rw [decodeBlocksByRootRequestCompat, hfirst] at read
    have hsame : list = roots := Except.ok.inj read
    rw [hsame, List.length_drop, hlen] at hcount
    have hpos : 0 < roots.items.length := List.length_pos_iff.mpr nonempty
    exact ⟨nonempty, by omega⟩
  · intro apart
    have hfirst := @decodeRequest_first codec _ apart.nonempty (by have := apart.leading; omega)
    rw [apart.leading, List.drop_zero] at hfirst
    exact orOnError_eq_ok.mpr (.inl (hfirst.trans (decode_bareRoots lists roots)))

end Requests

/-! ## A signed block -/

/-- The proposer's index is no offset into the message. -/
def IndexOutside (codec : SszEncoder) (i : Nat) (block : Block) : Prop :=
  i < 140 ∨ 140 + (block.encodeSsz codec).length < i

/-- The bytes of the block up to the index are read as a block, and those behind it as an
attestation. -/
structure SplitsAt (codec : SszEncoder) (i : Nat) (block : Block) : Prop where
  front : ∃ other,
    Block.decodeSsz codec ((block.encodeSsz codec).take (i - 140)) = .ok other
  back : ∃ att,
    Attestation.decodeSsz codec ((block.encodeSsz codec).drop (i - 140)) = .ok att

/-- The one participant is the last bit of its list, and its index is no offset into the
message. -/
def Recovered (codec : SszEncoder) (signed : SignedBlockWithAttestation) : Prop :=
  ∃ i, singleSetBit signed.message.proposerAttestation.aggregationBits = some i ∧
    signed.message.proposerAttestation.aggregationBits.len = i + 1 ∧
    IndexOutside codec i signed.message.block

/-- The trusting decoder returns some block, not always this one. -/
def Readable (codec : SszEncoder) (signed : SignedBlockWithAttestation) : Prop :=
  ∃ i, singleSetBit signed.message.proposerAttestation.aggregationBits = some i ∧
    (IndexOutside codec i signed.message.block ∨ SplitsAt codec i signed.message.block)

section Signed

variable {codec : SszEncoder}

private theorem get_of_singleSetBit {bits : BitList validatorRegistryLimit} {i : Nat}
    (single : singleSetBit bits = some i) : i < bits.len ∧ ∀ j, bits.get j = true ↔ j = i := by
  have hbits := singleSetBit_eq_some.mp single
  have hmem (j : Nat) : j ∈ setBits bits ↔ j < bits.len ∧ bits.get j = true := by
    rw [setBits, List.mem_filter, List.mem_range]
  have hget (j : Nat) : bits.get j = true ↔ j = i := by
    rw [← List.mem_singleton (a := j), ← hbits, hmem]
    refine ⟨fun h => ⟨?_, h⟩, And.right⟩
    rw [BitList.get, Bool.and_eq_true, decide_eq_true_iff] at h
    exact h.1
  exact ⟨((hmem i).mp (hbits ▸ List.mem_singleton_self i)).1, hget⟩

/-- The bytes of a signed block with the proposer `i`. -/
def bareBlock (codec : SszEncoder) (i : Nat) (signed : SignedBlockWithAttestation) : List Byte :=
  (signedParts
    (messageParts codec i signed.message.proposerAttestation.data signed.message.block).flatten
    (signed.signature.encodeSsz codec)).flatten

variable {signed : SignedBlockWithAttestation}

private theorem SignedBlockWithAttestation.encodeSsz_ok
    (h : signed.encodeSsz codec = .ok bytes) :
    ∃ i, singleSetBit signed.message.proposerAttestation.aggregationBits = some i ∧
      bytes = bareBlock codec i signed := by
  obtain ⟨msg, hmsg, h⟩ := bind_ok.mp h
  unfold BlockWithAttestation.encodeSsz at hmsg
  split at hmsg
  · cases hmsg
  · next i hsingle =>
    obtain rfl := Except.ok.inj hmsg
    exact ⟨i, hsingle, (Except.ok.inj h).symm⟩

private theorem SignedBlockWithAttestation.decodeSsz_bareBlock (lawful : codec.Lawful)
    (wellFormed : signed.WellFormed)
    (trips : codec.RoundTrips signed) (i : Nat) :
    SignedBlockWithAttestation.decodeSsz codec (bareBlock codec i signed) =
      (do
        let message ← BlockWithAttestation.decodeSsz codec
          (messageParts codec i signed.message.proposerAttestation.data
            signed.message.block).flatten
        .ok { message, signature := signed.signature }) := by
  let msg := (messageParts codec i signed.message.proposerAttestation.data
    signed.message.block).flatten
  have hlt := Block.length_encodeSsz_lt lawful wellFormed.count
    fun att hatt => (wellFormed.votes att hatt).2
  have hmsgLen : msg.length = 140 + (signed.message.block.encodeSsz codec).length :=
    length_messageParts ..
  have hoffMsg : readU32 (bareBlock codec i signed) 0 = .ok 8 :=
    readU32_part (k := 0) rfl rfl (by decide)
  have hoffSig : readU32 (bareBlock codec i signed) 4 = .ok (8 + msg.length) :=
    readU32_part (k := 1) rfl (by simp [signedParts]) (by omega)
  have hfront : slice (bareBlock codec i signed) 8 (8 + msg.length) = .ok msg :=
    slice_part (k := 2) rfl (by simp [signedParts]) rfl
  have hback : sliceFrom (bareBlock codec i signed) (8 + msg.length) =
      .ok (signed.signature.encodeSsz codec) :=
    slice_part (k := 3) rfl (by simp [signedParts, msg]; omega) (length_signedParts ..)
  have hsig := BlockSignatures.decodeSsz_encodeSsz (wellFormed.signature_readBack lawful trips)
  unfold SignedBlockWithAttestation.decodeSsz
  simp only [bind, Except.bind, hoffMsg, hoffSig, hfront, hback, hsig, msg]

private theorem SignedBlockWithAttestation.WellFormed.index_lt
    (wellFormed : signed.WellFormed) {i : Nat}
    (single : singleSetBit signed.message.proposerAttestation.aggregationBits = some i) :
    i < validatorRegistryLimit :=
  (get_of_singleSetBit single).1.trans_le wellFormed.proposerBits.inLimit

private theorem indexOutside_or_inside (codec : SszEncoder) (i : Nat) (block : Block) :
    IndexOutside codec i block ∨ 140 ≤ i ∧ i ≤ 140 + (block.encodeSsz codec).length := by
  unfold IndexOutside
  omega

variable (lawful : codec.Lawful) {signed : SignedBlockWithAttestation}
  (wellFormed : signed.WellFormed) (trips : codec.RoundTrips signed) {i : Nat}
  (single : singleSetBit signed.message.proposerAttestation.aggregationBits = some i)

include lawful wellFormed trips single

private theorem decodeSsz_outside (outside : IndexOutside codec i signed.message.block) :
    SignedBlockWithAttestation.decodeSsz codec (bareBlock codec i signed) =
      .ok
        { message :=
            { block := signed.message.block
              proposerAttestation :=
                { aggregationBits := singleBit i
                  data := signed.message.proposerAttestation.data } }
          signature := signed.signature } := by
  rw [SignedBlockWithAttestation.decodeSsz_bareBlock lawful wellFormed trips,
    BlockWithAttestation.decodeSsz_parts (wellFormed.index_lt single) wellFormed.proposerData
      (wellFormed.block_readBack trips) outside]
  rfl

/-- **Which signed blocks the trusting decoder recovers.** -/
theorem decodeSsz_eq_signed_iff :
    SignedBlockWithAttestation.decodeSsz codec (bareBlock codec i signed) =
        .ok signed ↔ Recovered codec signed := by
  constructor
  · intro read
    rcases indexOutside_or_inside codec i signed.message.block with outside | inside
    · have hsame := Except.ok.inj
        ((decodeSsz_outside lawful wellFormed trips single outside).symm.trans read)
      have hbits := congrArg (·.message.proposerAttestation.aggregationBits.len) hsame
      exact ⟨i, single, hbits.symm, outside⟩
    · rw [SignedBlockWithAttestation.decodeSsz_bareBlock lawful wellFormed trips] at read
      obtain ⟨message, hmessage, heq⟩ := bind_ok.mp read
      obtain rfl : message = signed.message := congrArg (·.message) (Except.ok.inj heq)
      exact absurd hmessage (BlockWithAttestation.decodeSsz_misread lawful
        (wellFormed.index_lt single) (wellFormed.block_readBack trips) inside _)
  · rintro ⟨j, hj, hlen, outside⟩
    obtain rfl : i = j := Option.some.inj (single.symm.trans hj)
    have hbits := wellFormed.proposerBits.eq_singleBit hlen (get_of_singleSetBit single).2
    rw [decodeSsz_outside lawful wellFormed trips single outside, ← hbits]

/-- **Which signed blocks it takes for a block at all.** -/
theorem decodeSsz_ok_iff :
    (∃ read, SignedBlockWithAttestation.decodeSsz codec (bareBlock codec i signed) =
        .ok read) ↔ Readable codec signed := by
  have hi := wellFormed.index_lt single
  constructor
  · rintro ⟨read, hread⟩
    rcases indexOutside_or_inside codec i signed.message.block with outside | inside
    · exact ⟨i, single, .inl outside⟩
    · rw [SignedBlockWithAttestation.decodeSsz_bareBlock lawful wellFormed trips,
        BlockWithAttestation.decodeSsz_inside hi inside] at hread
      obtain ⟨message, hmessage, -⟩ := bind_ok.mp hread
      obtain ⟨front, hfront, hmessage⟩ := bind_ok.mp hmessage
      obtain ⟨att, hatt, -⟩ := bind_ok.mp hmessage
      exact ⟨i, single, .inr ⟨⟨front, hfront⟩, att, hatt⟩⟩
  · rintro ⟨j, hj, hread⟩
    obtain rfl : i = j := Option.some.inj (single.symm.trans hj)
    rcases indexOutside_or_inside codec i signed.message.block with outside | inside
    · exact ⟨_, decodeSsz_outside lawful wellFormed trips single outside⟩
    · rcases hread with outside | ⟨⟨front, hfront⟩, att, hatt⟩
      · exact ⟨_, decodeSsz_outside lawful wellFormed trips single outside⟩
      · rw [SignedBlockWithAttestation.decodeSsz_bareBlock lawful wellFormed trips,
          BlockWithAttestation.decodeSsz_inside hi inside, hfront, hatt]
        exact ⟨_, rfl⟩

end Signed

/-! ## Responses -/

private theorem decodeElements_readable {codec : SszEncoder} (lawful : codec.Lawful)
    {blocks : List SignedBlockWithAttestation}
    (encoded : List.Forall₂ (fun signed piece => signed.encodeSsz codec = .ok piece) blocks pieces)
    (wellFormed : ∀ signed ∈ blocks, signed.WellFormed)
    (trips : ∀ signed ∈ blocks, codec.RoundTrips signed) :
    (∃ items, decodeElements (SignedBlockWithAttestation.decodeSsz codec) pieces =
        .ok items) ↔ ∀ signed ∈ blocks, Readable codec signed := by
  induction encoded with
  | nil => exact iff_of_true ⟨[], rfl⟩ fun _ h => (nomatch h)
  | @cons signed piece blocks pieces hpiece _ ih =>
    rw [List.forall_mem_cons] at wellFormed trips
    obtain ⟨i, single, rfl⟩ := SignedBlockWithAttestation.encodeSsz_ok hpiece
    rw [List.forall_mem_cons, ← ih wellFormed.2 trips.2,
      ← decodeSsz_ok_iff lawful wellFormed.1 trips.1 single]
    constructor
    · rintro ⟨items, hitems⟩
      obtain ⟨item, hitem, hitems⟩ := bind_ok.mp hitems
      obtain ⟨others, hothers, -⟩ := bind_ok.mp hitems
      exact ⟨⟨item, hitem⟩, others, hothers⟩
    · rintro ⟨⟨item, hitem⟩, others, hothers⟩
      rw [decodeElements, hitem, hothers]
      exact ⟨_, rfl⟩

variable {first : SignedBlockWithAttestation}

private theorem decodeBlocksResponseCompat_eq_ok {codec : SszCodec} {name : String}
    {decodeList : List Byte → Outcome (SszList SignedBlockWithAttestation maxBlocksPerRequest)}
    {data : List Byte} :
    decodeBlocksResponseCompat codec name decodeList data = .ok first ↔
      SignedBlockWithAttestation.decodeSsz codec data = .ok first ∨
        (∃ text, SignedBlockWithAttestation.decodeSsz codec data = Outcome.err text) ∧
          ∃ blocks rest, decodeList data = .ok blocks ∧ blocks.items = first :: rest := by
  rw [decodeBlocksResponseCompat, orOnError_eq_ok]
  refine or_congr_right (and_congr_right fun _ => ?_)
  cases decodeList data with
  | error failure =>
    cases failure with
    | err text => exact ⟨nofun, fun ⟨_, _, h, _⟩ => (nomatch h)⟩
    | panicked text => exact ⟨nofun, fun ⟨_, _, h, _⟩ => (nomatch h)⟩
  | ok blocks =>
    dsimp only
    constructor
    · intro h
      split at h
      · rename_i head rest hitems
        cases h
        exact ⟨blocks, rest, rfl, hitems⟩
      · cases h
    · rintro ⟨_, rest, heq, hitems⟩
      cases heq
      rw [hitems]

private theorem mapM_eq_ok {β : Type} {f : α → Outcome β} {items : List α} {out : List β} :
    items.mapM f = .ok out ↔ List.Forall₂ (fun item b => f item = .ok b) items out := by
  induction items generalizing out with
  | nil =>
    rw [List.mapM_nil, List.forall₂_nil_left_iff]
    exact ⟨fun h => (Except.ok.inj h).symm, fun h => h ▸ rfl⟩
  | cons item rest ih =>
    rw [List.mapM_cons, List.forall₂_cons_left_iff]
    constructor
    · intro h
      obtain ⟨b, hb, h⟩ := bind_ok.mp h
      obtain ⟨others, hothers, heq⟩ := bind_ok.mp h
      exact ⟨b, others, hb, ih.mp hothers, (Except.ok.inj heq).symm⟩
    · rintro ⟨b, others, hb, hothers, rfl⟩
      rw [hb, ih.mpr hothers]
      rfl

private theorem decodeMessage_table_err {codec : SszCodec} {tableLen : Nat}
    {bytes : List Byte} (hlen : bytes.length < tableLen)
    (hword : 4 ≤ bytes.length → readU32 bytes 0 = .ok tableLen) :
    ∃ text, BlockWithAttestation.decodeSsz codec bytes = Outcome.err text := by
  by_cases hshort : bytes.length < 8
  · exact ⟨_, bind_error.mpr (.inl (if_pos hshort))⟩
  have hsecond : readU32 bytes 4 = .ok (offsetAt bytes 4) := readU32_eq (by omega)
  by_cases hfixed : bytes.length < 4 + (8 + attestationDataLen)
  · refine ⟨"BlockWithAttestation (ream) missing fixed section", ?_⟩
    refine bind_error.mpr (.inr ⟨(), if_neg hshort, ?_⟩)
    refine bind_error.mpr (.inr ⟨tableLen, hword (by omega), ?_⟩)
    refine bind_error.mpr (.inr ⟨offsetAt bytes 4, hsecond, ?_⟩)
    rw [if_neg (by omega)]
    exact bind_error.mpr (.inl (if_pos hfixed))
  · refine ⟨"BlockWithAttestation (ream) offset is out of bounds", ?_⟩
    refine bind_error.mpr (.inr ⟨(), if_neg hshort, ?_⟩)
    refine bind_error.mpr (.inr ⟨tableLen, hword (by omega), ?_⟩)
    refine bind_error.mpr (.inr ⟨offsetAt bytes 4, hsecond, ?_⟩)
    rw [if_neg (by omega)]
    refine bind_error.mpr (.inr ⟨(), if_neg hfixed, ?_⟩)
    refine bind_error.mpr (.inr ⟨tableLen, hword (by omega), ?_⟩)
    refine bind_error.mpr (.inr ⟨(), if_neg fun h => Bool.noConfusion h.1, ?_⟩)
    exact bind_error.mpr (.inl (if_pos (Or.inr hlen)))

section Responses

variable {codec : StateEncoder} (lists : codec.ListLawful)

include lists

/-- A misread block is no list of blocks either: behind the offset 8 stand the words 140, the
index and 0. -/
theorem decodeResponse_bare_list {i : Nat}
    (hi : i < validatorRegistryLimit) (inside : 140 ≤ i)
    (blocks : SszList SignedBlockWithAttestation maxBlocksPerRequest) :
    BlocksByRootResponse.decodeSsz codec (bareBlock codec i signed) ≠
      .ok blocks := by
  let words : List (List Byte) :=
    [leBytes 4 140, leBytes 4 i, leBytes 4 (i / 256 ^ 4),
      signed.message.proposerAttestation.data.encodeSsz,
      signed.message.block.encodeSsz codec,
      signed.signature.encodeSsz codec]
  let front : List Byte := leBytes 4 8 ++ leBytes 4 (8 +
    (messageParts codec i signed.message.proposerAttestation.data
      signed.message.block).flatten.length)
  have hsplit : bareBlock codec i signed = front ++ words.flatten := by
    simp [bareBlock, signedParts, messageParts, front, words, leBytes_add 4 4 i, messageFixedLen,
      attestationDataLen]
  unfold validatorRegistryLimit at hi
  have hfirst : readU32 words.flatten 0 = .ok 140 := readU32_part (k := 0) rfl rfl (by decide)
  have hsecond : readU32 words.flatten 4 = .ok i :=
    readU32_part (k := 1) rfl (by simp [words]) (by omega)
  have hthird : readU32 words.flatten 8 = .ok 0 := by
    refine readU32_part (k := 2) ?_ (by simp [words]) (by decide)
    rw [← Nat.div_eq_of_lt (show i < 256 ^ 4 by omega)]
    rfl
  intro read
  obtain ⟨offset, hoffset, read⟩ := bind_ok.mp read
  have height : readU32 (bareBlock codec i signed) 0 = .ok 8 :=
    readU32_part (k := 0) rfl rfl (by decide)
  cases hoffset.symm.trans height
  obtain ⟨bytes, hbytes, read⟩ := bind_ok.mp read
  have hlast : sliceFrom (bareBlock codec i signed) 8 =
      .ok words.flatten := by
    rw [hsplit]
    exact Outcome.sliceFrom_last (by simp [front])
  obtain rfl := Except.ok.inj (hlast.symm.trans hbytes)
  refine SszList.decode_stopped (fun hstop => ?_) blocks read
  have hcut : codec.elements false none maxBlocksPerRequest words.flatten =
      ((codec.elements false none maxBlocksPerRequest words.flatten).1, none) :=
    Prod.ext rfl hstop
  have hdown := lists.ascending hcut (k := 1) hfirst (by decide) hsecond hthird
  omega

/-- **Which bare blocks read back.** -/
theorem decodeResponse_bare_iff (lawful : codec.toSszEncoder.Lawful)
    (wellFormed : signed.WellFormed)
    (trips : codec.toSszEncoder.RoundTrips signed) (hbytes : signed.encodeSsz codec = .ok bytes) :
    decodeBlocksByRootResponseCompat codec bytes = .ok signed ↔
      Recovered codec signed := by
  obtain ⟨i, single, rfl⟩ := SignedBlockWithAttestation.encodeSsz_ok hbytes
  rw [decodeBlocksByRootResponseCompat, decodeBlocksResponseCompat_eq_ok,
    decodeSsz_eq_signed_iff lawful wellFormed trips single, or_iff_left_iff_imp]
  rintro ⟨⟨text, herr⟩, blocks, rest, hlist, -⟩
  rcases indexOutside_or_inside codec i signed.message.block with outside | inside
  · rw [decodeSsz_outside lawful wellFormed trips single outside] at herr
    cases herr
  · exact absurd hlist
      (decodeResponse_bare_list lists (wellFormed.index_lt single) inside.1 blocks)

/-- A list of blocks is not taken for a block: the table of offsets stands where the message
should, and its first entry points behind it. -/
theorem decodeResponse_container_err (lawful : codec.toSszEncoder.Lawful) (piece : List Byte)
    (rest : List (List Byte)) (hcount : rest.length + 1 ≤ maxBlocksPerRequest) :
    ∃ text, SignedBlockWithAttestation.decodeSsz codec
      [leBytes 4 4, codec.encodeElements (piece :: rest)].flatten = Outcome.err text := by
  obtain ⟨tail, htail⟩ := lists.table piece rest
  have hlen : 4 * (rest.length + 1) ≤ (codec.encodeElements (piece :: rest)).length := by
    have hsum : ((piece :: rest).map (·.length + 4)).length * 4 ≤
        ((piece :: rest).map (·.length + 4)).sum := by
      refine List.card_nsmul_le_sum _ 4 fun size hsize => ?_
      obtain ⟨p, -, rfl⟩ := List.mem_map.mp hsize
      omega
    rw [List.length_map, List.length_cons] at hsum
    rw [lawful.length_elements]
    omega
  unfold maxBlocksPerRequest at hcount
  generalize hn : 4 * (rest.length + 1) = tableLen at htail hlen
  -- the bytes from the first offset to the second are the table without its last entry
  have hoffMsg : readU32 [leBytes 4 4, codec.encodeElements (piece :: rest)].flatten 0 = .ok 4 :=
    readU32_part (k := 0) rfl rfl (by decide)
  have hoffSig : readU32 [leBytes 4 4, codec.encodeElements (piece :: rest)].flatten 4 =
      .ok tableLen := by
    have hparts : [leBytes 4 4, codec.encodeElements (piece :: rest)].flatten =
        [leBytes 4 4, leBytes 4 tableLen, tail].flatten := by
      rw [htail]
      simp
    rw [hparts]
    exact readU32_part (k := 1) rfl (by simp) (by omega)
  have hslice : slice [leBytes 4 4, codec.encodeElements (piece :: rest)].flatten 4
      tableLen = .ok ((codec.encodeElements (piece :: rest)).take (tableLen - 4)) := by
    rw [List.flatten_cons, List.flatten_singleton]
    refine Outcome.slice_last (by simp) (by omega) ?_
    rw [length_leBytes]
    omega
  have hword : 4 ≤ ((codec.encodeElements (piece :: rest)).take (tableLen - 4)).length →
      readU32 ((codec.encodeElements (piece :: rest)).take (tableLen - 4)) 0 = .ok tableLen := by
    intro hroom
    rw [List.length_take] at hroom
    have hparts : (codec.encodeElements (piece :: rest)).take (tableLen - 4) =
        [leBytes 4 tableLen, tail.take (tableLen - 4 - 4)].flatten := by
      rw [htail, List.take_append, List.take_of_length_le (by rw [length_leBytes]; omega)]
      simp
    rw [hparts]
    exact readU32_part (k := 0) rfl rfl (by omega)
  obtain ⟨text, herr⟩ := @decodeMessage_table_err codec _ _
    (by rw [List.length_take]; omega) hword
  refine ⟨text, ?_⟩
  unfold SignedBlockWithAttestation.decodeSsz
  simp only [bind, Except.bind, hoffMsg, hoffSig, hslice, herr]
  rfl

/-- **Which responses give their first block.** -/
theorem decodeResponse_container_iff (lawful : codec.toSszEncoder.Lawful)
    {blocks : SszList SignedBlockWithAttestation maxBlocksPerRequest}
    (count : blocks.items.length ≤ maxBlocksPerRequest)
    (wellFormed : ∀ signed ∈ blocks.items, signed.WellFormed)
    (trips : ∀ signed ∈ blocks.items, codec.toSszEncoder.RoundTrips signed)
    {others : List SignedBlockWithAttestation}
    (hfirst : blocks.items = first :: others) {pieces : List (List Byte)}
    (hpieces : blocks.items.mapM (·.encodeSsz codec) = .ok pieces)
    (cut : codec.elements false none maxBlocksPerRequest (codec.encodeElements pieces) =
      (pieces, none)) :
    decodeBlocksByRootResponseCompat codec
        [leBytes 4 4, codec.encodeElements pieces].flatten = .ok first ↔
      Recovered codec first ∧ ∀ other ∈ others, Readable codec other := by
  rw [hfirst] at hpieces wellFormed trips count
  obtain ⟨piece, rest, hpiece, hrest, rfl⟩ := List.forall₂_cons_left_iff.mp (mapM_eq_ok.mp hpieces)
  have hcount : rest.length = others.length := hrest.length_eq.symm
  have herr := decodeResponse_container_err lists lawful piece rest (hcount ▸ count)
  have hnot : SignedBlockWithAttestation.decodeSsz codec
      [leBytes 4 4, codec.encodeElements (piece :: rest)].flatten ≠ .ok first := by
    obtain ⟨text, herr⟩ := herr
    rw [herr]
    exact nofun
  have hslice : sliceFrom [leBytes 4 4, codec.encodeElements (piece :: rest)].flatten 4 =
      .ok (codec.encodeElements (piece :: rest)) :=
    slice_part (k := 1) rfl (by simp) (by simp)
  have hlist : BlocksByRootResponse.decodeSsz codec
      [leBytes 4 4, codec.encodeElements (piece :: rest)].flatten = (do
        let items ← decodeElements (SignedBlockWithAttestation.decodeSsz codec)
          (piece :: rest)
        .ok ⟨items⟩) := by
    have hoffset : readU32 [leBytes 4 4, codec.encodeElements (piece :: rest)].flatten 0 =
        .ok 4 := readU32_part (k := 0) rfl rfl (by decide)
    rw [BlocksByRootResponse.decodeSsz, decodeOneList, hoffset]
    simp only [bind, Except.bind, hslice]
    rw [SszList.decode, cut]
    rfl
  rw [decodeBlocksByRootResponseCompat, decodeBlocksResponseCompat_eq_ok, or_iff_right hnot,
    and_iff_right herr, hlist]
  obtain ⟨i, single, hbytes⟩ := SignedBlockWithAttestation.encodeSsz_ok hpiece
  have hfirstIff := decodeSsz_eq_signed_iff lawful (wellFormed first List.mem_cons_self)
    (trips first List.mem_cons_self) single
  rw [← hbytes] at hfirstIff
  have hothersIff := decodeElements_readable lawful hrest
    (fun signed h => wellFormed signed (List.mem_cons_of_mem first h))
    (fun signed h => trips signed (List.mem_cons_of_mem first h))
  rw [← hfirstIff, ← hothersIff]
  constructor
  · rintro ⟨read, tail, hread, hitems⟩
    obtain ⟨items, hdecode, hlist⟩ := bind_ok.mp hread
    obtain ⟨head, hhead, hdecode⟩ := bind_ok.mp hdecode
    obtain ⟨behind, hbehind, heq⟩ := bind_ok.mp hdecode
    cases heq
    rw [← Except.ok.inj hlist] at hitems
    rw [← (List.cons.inj hitems).1]
    exact ⟨hhead, behind, hbehind⟩
  · rintro ⟨hhead, behind, hbehind⟩
    refine ⟨⟨first :: behind⟩, behind, ?_, rfl⟩
    rw [decodeElements, hhead, hbehind]
    rfl

end Responses

/-! ## Both messages -/

/-- **What the compatibility decoders read back.** A request always comes back from its container,
and from the bare roots exactly if they are told apart from one. A block comes back from its bare
encoding exactly if the trusting decoder recovers it, and from a response it heads exactly if
moreover every other block of the response is readable. -/
theorem compatDecoders_readBack_iff {codec : StateEncoder} (lawful : codec.toSszEncoder.Lawful)
    (total : codec.toSszCodec.Lawful) (lists : codec.ListLawful)
    (roots : SszList Bytes32 maxBlocksPerRootRequest)
    {blocks : SszList SignedBlockWithAttestation maxBlocksPerRequest}
    (count : blocks.items.length ≤ maxBlocksPerRequest)
    (wellFormed : ∀ signed ∈ blocks.items, signed.WellFormed)
    (trips : ∀ signed ∈ blocks.items, codec.toSszEncoder.RoundTrips signed)
    (cut : ∀ pieces, blocks.items.mapM (·.encodeSsz codec) = .ok pieces →
      codec.elements false none maxBlocksPerRequest (codec.encodeElements pieces) = (pieces, none))
    {first : SignedBlockWithAttestation} {others : List SignedBlockWithAttestation}
    (hfirst : blocks.items = first :: others) :
    decodeBlocksByRootRequestCompat codec (BlocksByRootRequest.encodeSsz codec roots) =
        .ok roots ∧
    (decodeBlocksByRootRequestCompat codec (bareRoots roots.items) = .ok roots ↔
      RootsApart roots.items) ∧
    (∀ bytes, first.encodeSsz codec = .ok bytes →
      (decodeBlocksByRootResponseCompat codec bytes = .ok first ↔
        Recovered codec first)) ∧
    ∀ bytes, BlocksByRootResponse.encodeSsz codec blocks = .ok bytes →
      (decodeBlocksByRootResponseCompat codec bytes = .ok first ↔
        Recovered codec first ∧
          ∀ other ∈ others, Readable codec other) := by
  have hmem : first ∈ blocks.items := hfirst ▸ List.mem_cons_self
  refine ⟨decodeRequest_container lists roots, decodeRequest_bare_iff lists total roots, ?_, ?_⟩
  · intro bytes hbytes
    exact decodeResponse_bare_iff lists lawful (wellFormed first hmem) (trips first hmem) hbytes
  · intro bytes hbytes
    obtain ⟨pieces, hpieces, heq⟩ := bind_ok.mp hbytes
    cases heq
    exact decodeResponse_container_iff lists lawful count wellFormed trips hfirst hpieces
      (cut pieces hpieces)

/-! ## Messages of the sample crate -/

private theorem layoutEncoder_total : layoutEncoder.toSszCodec.Lawful where
  bitList_total checked limit bytes := by
    simp only [layoutEncoder]
    split
    · exact Outcome.total_err _
    · exact total_ok _
  bytes32_total bytes := total_ok _

private theorem layoutEncoder_lists : layoutEncoder.ListLawful where
  encodeRoots roots := rfl
  bytes32 {bytes} h := by
    have hslice : slice bytes 0 32 = .ok bytes := by
      rw [slice_ok ⟨Nat.zero_le _, h.ge⟩, List.drop_zero, List.take_of_length_le h.le]
    rw [Bytes32.fromSlice, fromSlice, hslice]
    rfl
  cut limit bytes := rfl
  table piece rest := by
    refine ⟨((List.range rest.length).map fun k => leBytes 4 (4 * (rest.length + 1) +
      ((piece :: rest).take (k + 1)).flatten.length)).flatten ++ (piece :: rest).flatten, ?_⟩
    show ((List.range (rest.length + 1)).map _).flatten ++ _ = _
    rw [List.range_succ_eq_map, List.map_cons, List.map_map, List.flatten_cons, List.append_assoc]
    rfl
  ascending {limit bytes pieces} hcut {k tableLen word next} hfirst hlen hword hnext := by
    have hne : bytes ≠ [] := by
      rintro rfl
      cases hfirst
    obtain ⟨hle, hcount, -, hchain⟩ := layoutEncoder_cut hcut hne
    obtain ⟨front, hfront, -⟩ := bind_ok.mp hfirst
    have hroom := (Outcome.length_slice hfront).2.2
    rw [readU32_eq (by omega)] at hfirst
    cases hfirst
    rw [readU32_eq (by omega)] at hword hnext
    cases hword
    cases hnext
    have hindex : k + 1 < (tableOffsets bytes).length := by
      rw [tableOffsets, List.length_map, List.length_range]
      omega
    simpa [tableOffsets] using List.isChain_iff_getElem.mp hchain k hindex

private theorem layoutEncoder_cut_one (limit : Nat) (piece : List Byte) :
    layoutEncoder.elements false none limit (layoutEncoder.encodeElements [piece]) =
      ([piece], none) := by
  have hbytes : layoutEncoder.encodeElements [piece] = leBytes 4 4 ++ piece := by
    simp [layoutEncoder]
  have hoffset : offsetAt (leBytes 4 4 ++ piece) 0 = 4 := rfl
  have hne : leBytes 4 4 ++ piece ≠ [] := List.append_ne_nil_of_left_ne_nil (by decide) piece
  rw [hbytes]
  simp only [layoutEncoder, if_neg hne, hoffset]
  simp [tableOffsets, hoffset, cutAt, List.range_succ]

/-- Two roots of which the first starts with zeros. -/
def apartRoots : SszList Bytes32 maxBlocksPerRootRequest := ⟨[7#256, 1#256 <<< 248]⟩

/-- The law at roots told apart and a block that is recovered. -/
theorem compatDecoders_readBack_three :
    decodeBlocksByRootRequestCompat layoutEncoder (bareRoots apartRoots.items) =
        .ok apartRoots ∧
      ∃ bytes, BlocksByRootResponse.encodeSsz layoutEncoder
          ⟨[proposedBy 3]⟩ = .ok bytes ∧
        decodeBlocksByRootResponseCompat layoutEncoder bytes =
          .ok (proposedBy 3) := by
  let blocks : SszList SignedBlockWithAttestation maxBlocksPerRequest :=
    ⟨[proposedBy 3]⟩
  have hread := @compatDecoders_readBack_iff layoutEncoder layoutEncoder_lawful
    layoutEncoder_total layoutEncoder_lists apartRoots blocks (by decide)
    (List.forall_mem_singleton.mpr proposedBy_three_wellFormed)
    (List.forall_mem_singleton.mpr proposedBy_three_roundTrips)
    (by
      intro pieces h
      obtain ⟨piece, rest, -, hrest, rfl⟩ := List.forall₂_cons_left_iff.mp (mapM_eq_ok.mp h)
      cases hrest
      exact layoutEncoder_cut_one _ piece)
    (proposedBy 3) [] rfl
  refine ⟨hread.2.1.mpr ⟨by decide, by decide +kernel⟩, _, rfl, ?_⟩
  refine (hread.2.2.2 _ rfl).mpr ⟨⟨3, by decide +kernel, rfl, .inl (by decide)⟩, ?_⟩
  exact fun other h => (nomatch h)

/-- The first root starts with the bytes of 32: it is skipped. -/
def skippedRoots : SszList Bytes32 maxBlocksPerRootRequest := ⟨[32#256 <<< 248, 7#256]⟩

/-- **Three messages that are lost.** A bare list whose first root starts with 32 loses that root,
the empty bare list panics, and so does the block of proposer 140. -/
theorem compatDecoders_misread :
    (decodeBlocksByRootRequestCompat layoutEncoder
        (bareRoots skippedRoots.items)).map (·.items) = .ok [7#256] ∧
    (decodeBlocksByRootRequestCompat layoutEncoder (bareRoots [])).map (·.items) =
      .error (.panicked "slice index out of range") ∧
    ((proposedBy 140).encodeSsz layoutEncoder >>=
        decodeBlocksByRootResponseCompat layoutEncoder) =
      .error (.panicked "slice index out of range") := by
  decide +kernel

end Peam
