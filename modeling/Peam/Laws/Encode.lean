import Mathlib.Algebra.Order.BigOperators.Group.List
import Peam.Laws.FileStore
import Peam.Laws.Production
import Peam.StateCodec

/-!
# Which stored signed blocks read back

A signed block is written in the layout of the `ream` client. The checked decoder tells the two
layouts apart by the first offset and reads every encoding back. The trusting decoder, which the
store uses, takes the first layout whenever the word behind the first offset could be a second
offset. In an encoding that word is the validator's index, so an index between 140 and the length of
the message is taken for an offset (`BlockWithAttestation.decodeSsz_misread`).

Of `peam-ssz` its layout is assumed (`SszEncoder.Lawful`), and that the lists inside one block are
read back (`RoundTrips`).
-/

namespace Peam

open Packed
open Calls (Outcome)
open Calls.Outcome (slice slice_part bind_ok part_bind length_slice check_bind)

variable {parts : List (List Byte)} {lo : Nat} {α : Type} {signatures : BlockSignatures}
  {msg sig : List Byte}

/-! ## Numbers and arrays -/

@[simp] theorem length_leBytes (len n : Nat) : (leBytes len n).length = len := by
  simp [leBytes]

@[simp] theorem length_asRef (len : Nat) {width : Nat} (array : BitVec width) :
    (asRef len array).length = len := by
  simp [asRef]

/-- The low bytes of a number, then the rest. -/
theorem leBytes_add (len len' n : Nat) :
    leBytes (len + len') n = leBytes len n ++ leBytes len' (n / 256 ^ len) := by
  have shift (i : Nat) : n >>> (8 * (len + i)) = (n / 256 ^ len) >>> (8 * i) := by
    rw [Nat.mul_add, Nat.shiftRight_add, Nat.shiftRight_eq_div_pow n, Nat.pow_mul]
  rw [leBytes, List.range_add, List.map_append, List.map_map]
  exact congrArg (leBytes len n ++ ·)
    (List.map_congr_left fun i _ => congrArg (BitVec.ofNat 8) (shift i))

private theorem natOfLeBytes_leBytes (len n : Nat) :
    natOfLeBytes (leBytes len n) = n % 256 ^ len := by
  induction len generalizing n with
  | zero => simp [leBytes, natOfLeBytes, Nat.mod_one]
  | succ len ih =>
    have step : natOfLeBytes (leBytes (len + 1) n) =
        n % 256 + 256 * natOfLeBytes (leBytes len (n / 256)) := by
      rw [Nat.add_comm, leBytes_add 1 len]
      rfl
    rw [step, ih, Nat.pow_succ', Nat.mod_mul]

private theorem natOfLeBytes_leBytes_of_lt {len n : Nat} (h : n < 256 ^ len) :
    natOfLeBytes (leBytes len n) = n := by
  rw [natOfLeBytes_leBytes, Nat.mod_eq_of_lt h]

theorem natOfBytes_reverse (bytes : List Byte) :
    natOfBytes bytes.reverse = natOfLeBytes bytes := by
  rw [natOfBytes, List.foldl_reverse, natOfLeBytes]
  congr 1
  funext byte acc
  omega

variable {n i : Nat} {bytes : List Byte} {data : AttestationData} {att : Attestation}
  {body : BlockBody} {block : Block} {signed : SignedBlockWithAttestation}

/-- A number of 64 bits reads back. -/
theorem Uint64.decodeSsz_leBytes (h : n < 2 ^ 64) : Uint64.decodeSsz (leBytes 8 n) = .ok n := by
  have hcopy : Outcome.copyFromSlice 8 (leBytes 8 n) = .ok (leBytes 8 n) :=
    if_pos (length_leBytes 8 n)
  rw [Uint64.decodeSsz, hcopy]
  exact congrArg Except.ok (natOfLeBytes_leBytes_of_lt h)

/-- A byte array reads back. -/
theorem fromSlice_asRef {len width : Nat} (hw : width = 8 * len) (array : BitVec width) :
    fromSlice len width (asRef len array) = .ok array := by
  have hslice : slice (asRef len array) 0 len = .ok (asRef len array) := by
    rw [Outcome.slice_ok ⟨Nat.zero_le _, (length_asRef len array).ge⟩, List.drop_zero,
      List.take_of_length_le (length_asRef len array).le]
  have hread : natOfBytes (asRef len array) = array.toNat := by
    have hlt : array.toNat < 256 ^ len := by
      calc array.toNat < 2 ^ width := array.isLt
        _ = 256 ^ len := by rw [hw, Nat.pow_mul]
    rw [asRef, natOfBytes_reverse, natOfLeBytes_leBytes_of_lt hlt]
  rw [fromSlice, hslice]
  simp only [bind, Except.bind, hread, BitVec.ofNat_toNat, BitVec.setWidth_eq]

theorem Bytes32.fromSlice_asRef (root : Bytes32) : Bytes32.fromSlice (asRef 32 root) = .ok root :=
  @Peam.fromSlice_asRef 32 256 rfl root

private theorem Bytes3112.fromSlice_asRef (signature : Bytes3112) :
    Bytes3112.fromSlice (asRef 3112 signature) = .ok signature :=
  @Peam.fromSlice_asRef 3112 24896 rfl signature

/-- An offset among the written parts reads back. -/
theorem readU32_part {k n : Nat} (hpart : parts[k]? = some (leBytes 4 n))
    (hlo : lo = (parts.take k).flatten.length) (h : n < 2 ^ 32) :
    readU32 parts.flatten lo = .ok n := by
  have hslice : slice parts.flatten lo (lo + 4) = .ok (leBytes 4 n) :=
    slice_part hpart hlo (by rw [length_leBytes])
  have hcopy : Outcome.copyFromSlice 4 (leBytes 4 n) = .ok (leBytes 4 n) :=
    if_pos (length_leBytes 4 n)
  have hread : natOfLeBytes (leBytes 4 n) = n := natOfLeBytes_leBytes_of_lt h
  rw [readU32, hslice]
  simp only [bind, Except.bind, hcopy, hread]

/-- The same, in a read that goes on. -/
theorem readU32_part_bind {k n : Nat} {f : Nat → Outcome α} {a : α}
    (hpart : parts[k]? = some (leBytes 4 n)) (hlo : lo = (parts.take k).flatten.length)
    (h : n < 2 ^ 32) (next : f n = .ok a) : (readU32 parts.flatten lo >>= f) = .ok a :=
  bind_ok.mpr ⟨n, readU32_part hpart hlo h, next⟩

private theorem readU32_of_take {off : Nat} (h : readU32 (bytes.take n) lo = .ok off) :
    readU32 bytes lo = .ok off := by
  obtain ⟨word, hword, hoff⟩ := bind_ok.mp h
  exact bind_ok.mpr ⟨word, Outcome.slice_of_take hword, hoff⟩

/-! ## What is stored -/

/-- The numbers of a vote are `u64`s. -/
structure AttestationData.Fits (data : AttestationData) : Prop where
  slot : data.slot < 2 ^ 64
  head : data.head.slot < 2 ^ 64
  target : data.target.slot < 2 ^ 64
  source : data.source.slot < 2 ^ 64

/-- The byte string is as long as the bits need, and no bit past them is set. -/
structure BitList.Normalized {limit : Nat} (bits : BitList limit) : Prop where
  inLimit : bits.len ≤ limit
  bytes : bits.data.length = (bits.len + 7) / 8
  clear : ∀ j, bits.len ≤ j → bitAt bits.data j = false

/-- Every number is a `u64`, every bit list is normalized, and there are no more votes than a block
may have. -/
structure SignedBlockWithAttestation.WellFormed (signed : SignedBlockWithAttestation) : Prop where
  count : signed.message.block.body.attestations.items.length ≤ attestationsLimit
  slot : signed.message.block.slot < 2 ^ 64
  proposerIndex : signed.message.block.proposerIndex < 2 ^ 64
  proposerData : signed.message.proposerAttestation.data.Fits
  proposerBits : signed.message.proposerAttestation.aggregationBits.Normalized
  votes : ∀ att ∈ signed.message.block.body.attestations.items,
    att.data.Fits ∧ att.aggregationBits.Normalized
  proofs : ∀ proof ∈ signed.signature.attestationSignatures.items, proof.participants.Normalized

/-- The layout of lists: elements without a fixed length stand behind a table of four-byte offsets,
and a bit list ends with the delimiting bit. No list is read from fewer bytes than it takes. -/
structure SszEncoder.Lawful (codec : SszEncoder) : Prop where
  length_bitList : ∀ {limit : Nat} {bits : BitList limit}, bits.Normalized →
    (codec.encodeBitList limit bits).length = bits.len / 8 + 1
  length_elements : ∀ pieces,
    (codec.encodeElements pieces).length = (pieces.map (·.length + 4)).sum
  bitList_size : ∀ {limit : Nat} {bytes : List Byte} {bits : BitList limit},
    codec.bitList false limit bytes = .ok bits → bits.len / 8 + 1 ≤ bytes.length
  elements_size : ∀ {limit : Nat} {bytes : List Byte} {pieces : List (List Byte)},
    codec.elements false none limit bytes = (pieces, none) →
      (pieces.map (·.length + 4)).sum ≤ bytes.length

/-- The crate reads the lists of one block back, in both variants of the list decoder. -/
structure SszEncoder.RoundTrips (codec : SszEncoder) (signed : SignedBlockWithAttestation) :
    Prop where
  attestations : ∀ checked,
    codec.elements checked none attestationsLimit
        (codec.encodeElements
          (signed.message.block.body.attestations.items.map (·.encodeSsz codec))) =
      (signed.message.block.body.attestations.items.map (·.encodeSsz codec), none)
  proofs : ∀ checked,
    codec.elements checked none attestationsLimit
        (codec.encodeElements
          (signed.signature.attestationSignatures.items.map (·.encodeSsz codec))) =
      (signed.signature.attestationSignatures.items.map (·.encodeSsz codec), none)
  votes : ∀ att ∈ signed.message.block.body.attestations.items,
    codec.bitList false _ (codec.encodeBitList _ att.aggregationBits) = .ok att.aggregationBits
  participants : ∀ proof ∈ signed.signature.attestationSignatures.items,
    codec.bitList false _ (codec.encodeBitList _ proof.participants) = .ok proof.participants

/-- A normalized bit list of length `i + 1` with bit `i` alone is `singleBit i`. -/
theorem BitList.Normalized.eq_singleBit {bits : BitList validatorRegistryLimit}
    (normalized : bits.Normalized) (hlen : bits.len = i + 1)
    (single : ∀ j, bits.get j = true ↔ j = i) : bits = singleBit i := by
  have hbytes : bits.data.length = i / 8 + 1 := by
    rw [normalized.bytes, hlen]
    omega
  have hbits (j : Nat) : bitAt bits.data j = decide (i = j) := by
    rcases Nat.lt_or_ge j bits.len with hj | hj
    · have hget : bits.get j = bitAt bits.data j := by
        rw [BitList.get, decide_eq_true hj, Bool.true_and]
      rw [← hget, Bool.eq_iff_iff, single j, decide_eq_true_iff, eq_comm]
    · rw [normalized.clear j hj, eq_comm, decide_eq_false_iff_not]
      omega
  have hdata : bits.data = setBit (List.replicate (i / 8 + 1) 0#8) i := by
    refine eq_of_bitAt (by simp [hbytes]) fun j => ?_
    rw [hbits, bitAt_setBit]
    simp
  obtain ⟨data, len⟩ := bits
  cases hdata
  cases hlen
  rfl

/-! ## Records of fixed size -/

@[simp] theorem Checkpoint.length_encodeSsz (checkpoint : Checkpoint) :
    checkpoint.encodeSsz.length = 40 := by
  simp [Checkpoint.encodeSsz]

@[simp] theorem AttestationData.length_encodeSsz (data : AttestationData) :
    data.encodeSsz.length = attestationDataLen := by
  simp [AttestationData.encodeSsz, attestationDataLen]

/-- A checkpoint reads back. -/
theorem Checkpoint.decodeSsz_encodeSsz {checkpoint : Checkpoint} (h : checkpoint.slot < 2 ^ 64) :
    Checkpoint.decodeSsz checkpoint.encodeSsz = .ok checkpoint := by
  refine part_bind (k := 0) rfl rfl (by simp) (Bytes32.fromSlice_asRef _) ?_
  exact part_bind (k := 1) rfl (by simp) (by simp) (Uint64.decodeSsz_leBytes h) rfl

private theorem AttestationData.decodeSsz_encodeSsz (fits : data.Fits) :
    AttestationData.decodeSsz data.encodeSsz = .ok data := by
  refine part_bind (k := 0) rfl rfl (by simp) (Uint64.decodeSsz_leBytes fits.slot) ?_
  refine part_bind (k := 1) rfl (by simp) (by simp)
    (Checkpoint.decodeSsz_encodeSsz fits.head) ?_
  refine part_bind (k := 2) rfl (by simp) (by simp)
    (Checkpoint.decodeSsz_encodeSsz fits.target) ?_
  exact part_bind (k := 3) rfl (by simp) (by simp)
    (Checkpoint.decodeSsz_encodeSsz fits.source) rfl

/-! ## Lists -/

variable {codec : SszEncoder} {encode : α → List Byte}

/-- What is read back of an element may differ from it by `f`. -/
theorem decodeElements_map {β : Type} {decode : List Byte → Outcome β}
    {f : α → β} {items : List α} (reads : ∀ item ∈ items, decode (encode item) = .ok (f item)) :
    decodeElements decode (items.map encode) = .ok (items.map f) := by
  induction items with
  | nil => rfl
  | cons item rest ih =>
    have hrest := ih fun other hother => reads other (List.mem_cons_of_mem item hother)
    rw [List.map_cons, decodeElements, reads item List.mem_cons_self, hrest]
    rfl

variable {decode : List Byte → Outcome α}

private theorem SszList.decode_encode {limit : Nat} {list : SszList α limit} {checked : Bool}
    (cut : codec.elements checked none limit (codec.encodeElements (list.items.map encode)) =
      (list.items.map encode, none)) (reads : ∀ item ∈ list.items, decode (encode item) = .ok item) :
    SszList.decode codec decode checked none limit
      (codec.encodeElements (list.items.map encode)) = .ok list := by
  have hitems : decodeElements decode (list.items.map encode) = .ok list.items := by
    simpa only [List.map_id] using decodeElements_map (f := id) reads
  rw [SszList.decode, cut, hitems]
  rfl

variable {pieces : List (List Byte)}

/-- Elements take no less room in the pieces they are read from than in their encodings. -/
theorem decodeElements_size
    {items : List α} (read : decodeElements decode pieces = .ok items)
    (least : ∀ item ∈ items, ∀ piece, decode piece = .ok item →
      (encode item).length ≤ piece.length) :
    ((items.map encode).map (·.length + 4)).sum ≤ (pieces.map (·.length + 4)).sum := by
  induction pieces generalizing items with
  | nil =>
    cases read
    exact Nat.le_refl _
  | cons piece rest ih =>
    obtain ⟨item, hitem, read⟩ := bind_ok.mp read
    obtain ⟨others, hothers, heq⟩ := bind_ok.mp read
    cases heq
    have hhead := least item List.mem_cons_self piece hitem
    have htail := ih hothers fun other hother => least other (List.mem_cons_of_mem item hother)
    simp only [List.map_cons, List.sum_cons]
    omega

/-! ## Attestations and proofs -/

private theorem Attestation.length_encodeSsz (lawful : codec.Lawful)
    (normalized : att.aggregationBits.Normalized) :
    (att.encodeSsz codec).length = 133 + att.aggregationBits.len / 8 := by
  simp [Attestation.encodeSsz, lawful.length_bitList normalized, attestationDataLen]
  omega

private theorem Attestation.decodeSsz_encodeSsz (fits : att.data.Fits)
    (bits : codec.bitList false _ (codec.encodeBitList _ att.aggregationBits) =
      .ok att.aggregationBits) :
    Attestation.decodeSsz codec (att.encodeSsz codec) = .ok att := by
  refine bind_ok.mpr ⟨4 + att.data.encodeSsz.length, ?_, ?_⟩
  · refine readU32_part (k := 0) rfl rfl ?_
    rw [AttestationData.length_encodeSsz]
    decide
  refine part_bind (k := 1) rfl (by simp) rfl
    (AttestationData.decodeSsz_encodeSsz fits) ?_
  exact part_bind (k := 2) rfl (by simp) (by simp [Attestation.encodeSsz]; omega) bits rfl

private theorem Attestation.size_le (lawful : codec.Lawful) {piece : List Byte}
    (normalized : att.aggregationBits.Normalized)
    (read : Attestation.decodeSsz codec piece = .ok att) :
    (att.encodeSsz codec).length ≤ piece.length := by
  obtain ⟨offset, -, read⟩ := bind_ok.mp read
  obtain ⟨data, hdata, read⟩ := bind_ok.mp read
  obtain ⟨dataBytes, hslice, hdata⟩ := bind_ok.mp hdata
  obtain ⟨bits, hbits, heq⟩ := bind_ok.mp read
  obtain ⟨bitBytes, hrest, hbits⟩ := bind_ok.mp hbits
  cases heq
  have hroom := (needs_attestationData dataBytes).room_of_ok hdata
  have hsize := lawful.bitList_size hbits
  have hfront := (length_slice hslice).1
  have hback := (length_slice hrest).1
  rw [Attestation.length_encodeSsz lawful normalized]
  unfold attestationDataLen at hroom
  simp only at hsize ⊢
  omega

private theorem AggregatedSignatureProof.decodeSsz_encodeSsz (lawful : codec.Lawful)
    {proof : AggregatedSignatureProof} (normalized : proof.participants.Normalized)
    (bits : codec.bitList false _ (codec.encodeBitList _ proof.participants) =
      .ok proof.participants) :
    AggregatedSignatureProof.decodeSsz codec (proof.encodeSsz codec) = .ok proof := by
  have hlen := lawful.length_bitList normalized
  have hlimit := normalized.inLimit
  unfold validatorRegistryLimit at hlimit
  refine readU32_part_bind (k := 0) rfl rfl (by decide) ?_
  refine bind_ok.mpr ⟨8 + (codec.encodeBitList _ proof.participants).length, ?_, ?_⟩
  · refine readU32_part (k := 1) rfl (by simp) ?_
    rw [hlen]
    omega
  refine part_bind (k := 2) rfl (by simp) rfl bits ?_
  exact part_bind (k := 3) rfl (by simp; omega)
    (by simp [AggregatedSignatureProof.encodeSsz]; omega) rfl rfl

/-! ## Blocks -/

/-- The votes of a block, as `WellFormed` and `RoundTrips` have them. -/
structure BlockBody.ReadBack (codec : SszEncoder) (body : BlockBody) : Prop where
  cut : ∀ checked,
    codec.elements checked none attestationsLimit
        (codec.encodeElements (body.attestations.items.map (·.encodeSsz codec))) =
      (body.attestations.items.map (·.encodeSsz codec), none)
  votes : ∀ att ∈ body.attestations.items, att.data.Fits ∧ att.aggregationBits.Normalized
  bits : ∀ att ∈ body.attestations.items,
    codec.bitList false _ (codec.encodeBitList _ att.aggregationBits) = .ok att.aggregationBits

private theorem BlockBody.ReadBack.list (back : body.ReadBack codec) (checked : Bool) :
    SszList.decode codec (Attestation.decodeSsz codec) checked none
        attestationsLimit
        (codec.encodeElements (body.attestations.items.map (·.encodeSsz codec))) =
      .ok body.attestations :=
  SszList.decode_encode (back.cut checked) fun att hatt =>
    Attestation.decodeSsz_encodeSsz (back.votes att hatt).1 (back.bits att hatt)

private theorem BlockBody.decodeSsz_encodeSsz (back : body.ReadBack codec) :
    BlockBody.decodeSsz codec (body.encodeSsz codec) = .ok body := by
  refine readU32_part_bind (k := 0) rfl rfl (by decide) ?_
  exact part_bind (k := 1) rfl (by simp) (by simp [BlockBody.encodeSsz])
    (back.list false) rfl

private theorem BlockBody.decodeSszChecked_encodeSsz (back : body.ReadBack codec) :
    BlockBody.decodeSszChecked codec (body.encodeSsz codec) = .ok body := by
  have hlen : 4 ≤ (body.encodeSsz codec).length := by simp [BlockBody.encodeSsz]
  refine check_bind (by omega) ?_
  refine readU32_part_bind (k := 0) rfl rfl (by decide) ?_
  refine check_bind (by omega) ?_
  exact part_bind (k := 1) rfl (by simp) (by simp [BlockBody.encodeSsz])
    (back.list true) rfl

private theorem BlockBody.ReadBack.list_size (lawful : codec.Lawful) (back : body.ReadBack codec)
    (read : SszList.decode codec (Attestation.decodeSsz codec) false none
      attestationsLimit bytes = .ok body.attestations) :
    (codec.encodeElements (body.attestations.items.map (·.encodeSsz codec))).length ≤
      bytes.length := by
  unfold SszList.decode at read
  obtain ⟨items, hitems, read⟩ := bind_ok.mp read
  generalize hcut : codec.elements false none attestationsLimit bytes = cut at hitems read
  obtain ⟨pieces, stop⟩ := cut
  cases stop with
  | some text => cases read
  | none =>
    have hvotes : body.attestations.items = items :=
      (congrArg SszList.items (Except.ok.inj read)).symm
    rw [← hvotes] at hitems
    calc (codec.encodeElements (body.attestations.items.map (·.encodeSsz codec))).length
        = ((body.attestations.items.map (·.encodeSsz codec)).map (·.length + 4)).sum :=
          lawful.length_elements _
      _ ≤ (pieces.map (·.length + 4)).sum :=
          decodeElements_size hitems fun att hatt piece =>
            Attestation.size_le lawful (back.votes att hatt).2
      _ ≤ bytes.length := lawful.elements_size hcut

/-- A prefix of a body's encoding that reads as the body is the whole encoding. -/
theorem BlockBody.size_le (lawful : codec.Lawful) (back : body.ReadBack codec)
    (read : BlockBody.decodeSsz codec ((body.encodeSsz codec).take n) = .ok body) :
    (body.encodeSsz codec).length ≤ n := by
  have hparts : body.encodeSsz codec = leBytes 4 4 ++
      codec.encodeElements (body.attestations.items.map (·.encodeSsz codec)) := by
    simp [BlockBody.encodeSsz]
  have hwhole : readU32 (body.encodeSsz codec) 0 = .ok 4 :=
    readU32_part (k := 0) rfl rfl (by decide)
  obtain ⟨offset, hoffset, read⟩ := bind_ok.mp read
  cases (readU32_of_take hoffset).symm.trans hwhole
  obtain ⟨attestations, hlist, heq⟩ := bind_ok.mp read
  obtain ⟨bytes, hbytes, hlist⟩ := bind_ok.mp hlist
  cases heq
  rw [hparts] at hbytes ⊢
  obtain ⟨hle, rfl⟩ := Outcome.sliceFrom_take_last (by simp) hbytes
  have hsize := back.list_size lawful hlist
  simp only [List.length_append, length_leBytes, List.length_take] at hsize ⊢
  omega

/-- The numbers of a block are `u64`s and its votes read back. -/
structure Block.ReadBack (codec : SszEncoder) (block : Block) : Prop where
  slot : block.slot < 2 ^ 64
  proposerIndex : block.proposerIndex < 2 ^ 64
  body : block.body.ReadBack codec

private theorem Block.decodeSsz_encodeSsz (back : block.ReadBack codec) :
    Block.decodeSsz codec (block.encodeSsz codec) = .ok block := by
  refine part_bind (k := 0) rfl rfl (by simp) (Uint64.decodeSsz_leBytes back.slot) ?_
  refine part_bind (k := 1) rfl (by simp) (by simp)
    (Uint64.decodeSsz_leBytes back.proposerIndex) ?_
  refine part_bind (k := 2) rfl (by simp) (by simp) (Bytes32.fromSlice_asRef _) ?_
  refine part_bind (k := 3) rfl (by simp) (by simp) (Bytes32.fromSlice_asRef _) ?_
  refine readU32_part_bind (k := 4) rfl (by simp) (by decide) ?_
  exact part_bind (k := 5) rfl (by simp) (by simp [Block.encodeSsz]; omega)
    (BlockBody.decodeSsz_encodeSsz back.body) rfl

private theorem Block.decodeSszChecked_encodeSsz (back : block.ReadBack codec) :
    Block.decodeSszChecked codec (block.encodeSsz codec) = .ok block := by
  have hlen : 84 ≤ (block.encodeSsz codec).length := by simp [Block.encodeSsz]; omega
  refine check_bind (by omega) ?_
  refine part_bind (k := 0) rfl rfl (by simp) (Uint64.decodeSsz_leBytes back.slot) ?_
  refine part_bind (k := 1) rfl (by simp) (by simp)
    (Uint64.decodeSsz_leBytes back.proposerIndex) ?_
  refine part_bind (k := 2) rfl (by simp) (by simp) (Bytes32.fromSlice_asRef _) ?_
  refine part_bind (k := 3) rfl (by simp) (by simp) (Bytes32.fromSlice_asRef _) ?_
  refine readU32_part_bind (k := 4) rfl (by simp) (by decide) ?_
  refine check_bind (by omega) ?_
  exact part_bind (k := 5) rfl (by simp) (by simp [Block.encodeSsz]; omega)
    (BlockBody.decodeSszChecked_encodeSsz back.body) rfl

/-- A prefix of a block's encoding that reads as the block is the whole encoding. -/
theorem Block.size_le (lawful : codec.Lawful) (back : block.ReadBack codec)
    (read : Block.decodeSsz codec ((block.encodeSsz codec).take n) = .ok block) :
    (block.encodeSsz codec).length ≤ n := by
  have hparts : block.encodeSsz codec =
      [leBytes 8 block.slot, leBytes 8 block.proposerIndex, asRef 32 block.parentRoot,
        asRef 32 block.stateRoot, leBytes 4 84].flatten ++ block.body.encodeSsz codec := by
    simp [Block.encodeSsz]
  have hwhole : readU32 (block.encodeSsz codec) 80 = .ok 84 :=
    readU32_part (k := 4) rfl (by simp) (by decide)
  -- The prefix has the body offset of the whole encoding.
  obtain ⟨_, _, read⟩ := bind_ok.mp read
  obtain ⟨_, _, read⟩ := bind_ok.mp read
  obtain ⟨_, _, read⟩ := bind_ok.mp read
  obtain ⟨_, _, read⟩ := bind_ok.mp read
  obtain ⟨offset, hoffset, read⟩ := bind_ok.mp read
  cases (readU32_of_take hoffset).symm.trans hwhole
  obtain ⟨body, hbody, heq⟩ := bind_ok.mp read
  obtain ⟨bytes, hbytes, hbody⟩ := bind_ok.mp hbody
  obtain rfl : body = block.body := by cases heq; rfl
  rw [hparts] at hbytes ⊢
  obtain ⟨hle, rfl⟩ := Outcome.sliceFrom_take_last (by simp) hbytes
  have hsize := BlockBody.size_le lawful back.body hbody
  simp [List.length_append]
  omega

/-! ## The message -/

/-- The parts of an encoded message. -/
def messageParts (codec : SszEncoder) (i : Nat) (data : AttestationData) (block : Block) :
    List (List Byte) :=
  [leBytes 4 messageFixedLen, leBytes 8 i, data.encodeSsz, block.encodeSsz codec]

/-- The fixed part of a message takes 140 bytes. -/
theorem length_messageParts (i : Nat) (data : AttestationData) (block : Block) :
    (messageParts codec i data block).flatten.length = 140 + (block.encodeSsz codec).length := by
  simp [messageParts, attestationDataLen]
  omega

private theorem BlockWithAttestation.encodeSsz_eq {message : BlockWithAttestation}
    (hbits : message.proposerAttestation.aggregationBits = singleBit i) :
    message.encodeSsz codec =
      .ok (messageParts codec i message.proposerAttestation.data message.block).flatten := by
  rw [BlockWithAttestation.encodeSsz, hbits, singleSetBit_singleBit]
  rfl

private theorem readU32_messageIndex {i : Nat} (hi : i < validatorRegistryLimit)
    (data : AttestationData)
    (block : Block) : readU32 (messageParts codec i data block).flatten 4 = .ok i := by
  have hsplit : (messageParts codec i data block).flatten =
      [leBytes 4 messageFixedLen, leBytes 4 i, leBytes 4 (i / 256 ^ 4), data.encodeSsz,
        block.encodeSsz codec].flatten := by
    simp [messageParts, leBytes_add 4 4 i]
  unfold validatorRegistryLimit at hi
  rw [hsplit]
  exact readU32_part (k := 1) rfl (by simp) (by omega)

private theorem proposerAttestationFromReamParts_eq (hi : i < validatorRegistryLimit)
    (data : AttestationData) :
    proposerAttestationFromReamParts i data =
      .ok { aggregationBits := singleBit i, data } := by
  have hlen : (i + 1 + 7) / 8 = i / 8 + 1 := by omega
  have hin : i / 8 < (List.replicate (i / 8 + 1) 0#8).length := by simp
  refine check_bind (by omega) ?_
  refine bind_ok.mpr ⟨setBit (List.replicate (i / 8 + 1) 0#8) i, ?_, rfl⟩
  rw [hlen, Outcome.update, if_pos hin, setBit, if_pos hin, List.modify_eq_set_getElem?]
  simp

/-- In the layout of the `ream` client every encoding reads back. -/
theorem decodeReamBlockWithAttestation_parts (hi : i < validatorRegistryLimit) (fits : data.Fits)
    (back : block.ReadBack codec) (checked : Bool) :
    decodeReamBlockWithAttestation codec (messageParts codec i data block).flatten
        checked =
      .ok { block, proposerAttestation := { aggregationBits := singleBit i, data } } := by
  have hlen := @length_messageParts codec i data block
  unfold decodeReamBlockWithAttestation
  refine check_bind ?_ ?_
  · rw [hlen, attestationDataLen]
    omega
  refine readU32_part_bind (k := 0) (n := 140) rfl rfl (by decide) ?_
  refine check_bind ?_ ?_
  · rw [hlen, attestationDataLen]
    omega
  refine check_bind ?_ ?_
  · rw [hlen, attestationDataLen]
    omega
  refine bind_ok.mpr ⟨leBytes 8 i, ?_, ?_⟩
  · exact slice_part (k := 1) rfl (by simp [messageParts]) (by simp)
  refine check_bind (by simp) ?_
  refine bind_ok.mpr ⟨data, ?_, ?_⟩
  · refine Outcome.slice_part_bind (k := 2) rfl (by simp [messageParts]) (by simp) ?_
    cases checked with
    | false => exact AttestationData.decodeSsz_encodeSsz fits
    | true =>
      refine check_bind (by simp) ?_
      exact AttestationData.decodeSsz_encodeSsz fits
  rw [natOfLeBytes_leBytes_of_lt (hi.trans (by decide))]
  refine bind_ok.mpr ⟨_, proposerAttestationFromReamParts_eq hi data, ?_⟩
  refine bind_ok.mpr ⟨block, ?_, rfl⟩
  refine Outcome.slice_part_bind (k := 3) rfl ?_ hlen ?_
  · simp [messageParts, attestationDataLen]
  cases checked with
  | false => exact Block.decodeSsz_encodeSsz back
  | true => exact Block.decodeSszChecked_encodeSsz back

/-- The checked decoder takes every encoding for what it is: the first offset is not 8. -/
theorem BlockWithAttestation.decodeSszChecked_parts (hi : i < validatorRegistryLimit)
    (fits : data.Fits) (back : block.ReadBack codec) :
    BlockWithAttestation.decodeSszChecked codec
        (messageParts codec i data block).flatten =
      .ok { block, proposerAttestation := { aggregationBits := singleBit i, data } } := by
  have hlen := @length_messageParts codec i data block
  unfold BlockWithAttestation.decodeSszChecked
  refine check_bind (by omega) ?_
  refine readU32_part_bind (k := 0) (n := 140) rfl rfl (by decide) ?_
  refine bind_ok.mpr ⟨i, readU32_messageIndex hi data block, ?_⟩
  rw [if_pos (Or.inl (by decide))]
  exact decodeReamBlockWithAttestation_parts hi fits back true

/-- An index that is no offset into the message leaves the trusting decoder its second layout. -/
theorem BlockWithAttestation.decodeSsz_parts (hi : i < validatorRegistryLimit) (fits : data.Fits)
    (back : block.ReadBack codec) (outside : i < 140 ∨ 140 + (block.encodeSsz codec).length < i) :
    BlockWithAttestation.decodeSsz codec (messageParts codec i data block).flatten =
      .ok { block, proposerAttestation := { aggregationBits := singleBit i, data } } := by
  have hlen := @length_messageParts codec i data block
  unfold BlockWithAttestation.decodeSsz
  refine check_bind (by omega) ?_
  refine readU32_part_bind (k := 0) (n := 140) rfl rfl (by decide) ?_
  refine bind_ok.mpr ⟨i, readU32_messageIndex hi data block, ?_⟩
  rw [if_neg (by omega)]
  exact decodeReamBlockWithAttestation_parts hi fits back false

/-- An index inside the message cuts the block's bytes in two. -/
theorem BlockWithAttestation.decodeSsz_inside (hi : i < validatorRegistryLimit)
    (inside : 140 ≤ i ∧ i ≤ 140 + (block.encodeSsz codec).length) :
    BlockWithAttestation.decodeSsz codec (messageParts codec i data block).flatten =
      (do
        let front ← Block.decodeSsz codec ((block.encodeSsz codec).take (i - 140))
        let att ← Attestation.decodeSsz codec ((block.encodeSsz codec).drop (i - 140))
        .ok { block := front, proposerAttestation := att }) := by
  have hlen := @length_messageParts codec i data block
  have hfirst : readU32 (messageParts codec i data block).flatten 0 = .ok 140 :=
    readU32_part (k := 0) rfl rfl (by decide)
  have hsecond := @readU32_messageIndex codec i hi data block
  have hsplit : (messageParts codec i data block).flatten =
      [leBytes 4 messageFixedLen, leBytes 8 i, data.encodeSsz].flatten ++
        block.encodeSsz codec := by
    simp [messageParts]
  have hfixed : 140 =
      [leBytes 4 messageFixedLen, leBytes 8 i, data.encodeSsz].flatten.length := by
    simp [attestationDataLen]
  have hfront : slice (messageParts codec i data block).flatten 140 i =
      .ok ((block.encodeSsz codec).take (i - 140)) := by
    rw [hsplit]
    exact Outcome.slice_last hfixed inside.1 (by omega)
  have hback : Outcome.sliceFrom (messageParts codec i data block).flatten i =
      .ok ((block.encodeSsz codec).drop (i - 140)) := by
    rw [Outcome.sliceFrom, Outcome.slice_ok ⟨by omega, Nat.le_refl _⟩, List.take_length, hsplit,
      List.drop_append, ← hfixed, List.drop_eq_nil_of_le (by omega), List.nil_append]
  unfold BlockWithAttestation.decodeSsz
  rw [Outcome.failIf, if_neg (by omega)]
  simp only [bind, Except.bind, hfirst, hsecond]
  rw [if_pos ⟨inside.1, by omega⟩]
  simp only [hfront, hback]

/-- **An index taken for an offset.** The bytes up to it are read as the block. They are the whole
block only if the index is the length of the message, and then nothing is left for the
attestation. -/
theorem BlockWithAttestation.decodeSsz_misread (lawful : codec.Lawful)
    (hi : i < validatorRegistryLimit) (back : block.ReadBack codec)
    (inside : 140 ≤ i ∧ i ≤ 140 + (block.encodeSsz codec).length) (att : Attestation) :
    BlockWithAttestation.decodeSsz codec (messageParts codec i data block).flatten ≠
      .ok { block, proposerAttestation := att } := by
  rw [decodeSsz_inside hi inside]
  intro read
  obtain ⟨front, hfront, read⟩ := bind_ok.mp read
  obtain ⟨rest, hrest, heq⟩ := bind_ok.mp read
  cases heq
  have hwhole := Block.size_le lawful back hfront
  -- The attestation is then read from no bytes at all.
  obtain ⟨_, hoffset, _⟩ := bind_ok.mp hrest
  obtain ⟨word, hword, _⟩ := bind_ok.mp hoffset
  have hword := (length_slice hword).2.2
  rw [List.length_drop] at hword
  omega

/-! ## The signed block -/

/-- The proofs of a block, as `WellFormed` and `RoundTrips` have them. -/
structure BlockSignatures.ReadBack (codec : SszEncoder) (signatures : BlockSignatures) : Prop where
  cut : ∀ checked,
    codec.elements checked none attestationsLimit
        (codec.encodeElements
          (signatures.attestationSignatures.items.map (·.encodeSsz codec))) =
      (signatures.attestationSignatures.items.map (·.encodeSsz codec), none)
  reads : ∀ proof ∈ signatures.attestationSignatures.items,
    AggregatedSignatureProof.decodeSsz codec (proof.encodeSsz codec) = .ok proof

/-- The signatures of a block read back. -/
theorem BlockSignatures.decodeSsz_encodeSsz (back : signatures.ReadBack codec) :
    BlockSignatures.decodeSsz codec (signatures.encodeSsz codec) = .ok signatures := by
  refine readU32_part_bind (k := 0) rfl rfl (by decide) ?_
  refine part_bind (k := 1) rfl (by simp) (by simp) (Bytes3112.fromSlice_asRef _) ?_
  exact part_bind (k := 2) rfl (by simp) (by simp [BlockSignatures.encodeSsz]; omega)
    (SszList.decode_encode (back.cut false) back.reads) rfl

private theorem BlockSignatures.decodeSszChecked_encodeSsz (back : signatures.ReadBack codec) :
    BlockSignatures.decodeSszChecked codec (signatures.encodeSsz codec) =
      .ok signatures := by
  have hlen : 3116 ≤ (signatures.encodeSsz codec).length := by
    simp [BlockSignatures.encodeSsz]
    omega
  refine check_bind (by omega) ?_
  refine readU32_part_bind (k := 0) rfl rfl (by decide) ?_
  refine check_bind (by omega) ?_
  refine part_bind (k := 1) rfl (by simp) (by simp) (Bytes3112.fromSlice_asRef _) ?_
  exact part_bind (k := 2) rfl (by simp) (by simp [BlockSignatures.encodeSsz]; omega)
    (SszList.decode_encode (back.cut true) back.reads) rfl

/-- A block of normalized votes is far shorter than an offset can say. -/
theorem Block.length_encodeSsz_lt (lawful : codec.Lawful)
    (count : block.body.attestations.items.length ≤ attestationsLimit)
    (votes : ∀ att ∈ block.body.attestations.items, att.aggregationBits.Normalized) :
    (block.encodeSsz codec).length < 2 ^ 31 := by
  let pieces := block.body.attestations.items.map (·.encodeSsz codec)
  have hvote : ∀ size ∈ pieces.map (·.length + 4), size ≤ 649 := by
    intro size hsize
    simp only [pieces, List.mem_map] at hsize
    obtain ⟨_, ⟨att, hatt, rfl⟩, rfl⟩ := hsize
    have hlimit := (votes att hatt).inLimit
    unfold validatorRegistryLimit at hlimit
    rw [Attestation.length_encodeSsz lawful (votes att hatt)]
    omega
  have hsum : (pieces.map (·.length + 4)).sum ≤ (pieces.map (·.length + 4)).length * 649 :=
    List.sum_le_card_nsmul _ 649 hvote
  have hcount : (pieces.map (·.length + 4)).length ≤ 4096 := by
    simp only [pieces, List.length_map]
    exact count
  have hbody : (codec.encodeElements pieces).length = (pieces.map (·.length + 4)).sum :=
    lawful.length_elements pieces
  have hlen : (block.encodeSsz codec).length = 88 + (codec.encodeElements pieces).length := by
    simp [Block.encodeSsz, BlockBody.encodeSsz, pieces]
    omega
  omega

/-- What `WellFormed` and `RoundTrips` say of the parts of a signed block. -/
theorem SignedBlockWithAttestation.WellFormed.block_readBack (wellFormed : signed.WellFormed)
    (trips : codec.RoundTrips signed) :
    signed.message.block.ReadBack codec where
  slot := wellFormed.slot
  proposerIndex := wellFormed.proposerIndex
  body := ⟨trips.attestations, wellFormed.votes, trips.votes⟩

theorem SignedBlockWithAttestation.WellFormed.signature_readBack (lawful : codec.Lawful)
    (wellFormed : signed.WellFormed) (trips : codec.RoundTrips signed) :
    signed.signature.ReadBack codec where
  cut := trips.proofs
  reads proof hproof := AggregatedSignatureProof.decodeSsz_encodeSsz lawful
    (wellFormed.proofs proof hproof) (trips.participants proof hproof)

/-- The parts of an encoded signed block. -/
def signedParts (msg sig : List Byte) : List (List Byte) :=
  [leBytes 4 8, leBytes 4 (8 + msg.length), msg, sig]

/-- A signed block starts with its two offsets. -/
theorem length_signedParts (msg sig : List Byte) :
    (signedParts msg sig).flatten.length = 8 + msg.length + sig.length := by
  simp [signedParts]
  omega

private theorem SignedBlockWithAttestation.decodeSsz_parts (hmsg : 8 + msg.length < 2 ^ 32)
    (hsig : BlockSignatures.decodeSsz codec sig = .ok signed.signature) :
    SignedBlockWithAttestation.decodeSsz codec (signedParts msg sig).flatten =
        .ok signed ↔
      BlockWithAttestation.decodeSsz codec msg = .ok signed.message := by
  have hoffMsg : readU32 (signedParts msg sig).flatten 0 = .ok 8 :=
    readU32_part (k := 0) rfl rfl (by decide)
  have hoffSig : readU32 (signedParts msg sig).flatten 4 = .ok (8 + msg.length) :=
    readU32_part (k := 1) rfl (by simp [signedParts]) hmsg
  have hfront : slice (signedParts msg sig).flatten 8 (8 + msg.length) = .ok msg :=
    slice_part (k := 2) rfl (by simp [signedParts]) rfl
  have hback : Outcome.sliceFrom (signedParts msg sig).flatten (8 + msg.length) = .ok sig :=
    slice_part (k := 3) rfl (by simp [signedParts]; omega) (length_signedParts msg sig)
  constructor
  · intro read
    obtain ⟨offMsg, hoff, read⟩ := bind_ok.mp read
    cases hoff.symm.trans hoffMsg
    obtain ⟨offSig, hoff, read⟩ := bind_ok.mp read
    rw [← Except.ok.inj (hoffSig.symm.trans hoff)] at read
    obtain ⟨message, hmessage, read⟩ := bind_ok.mp read
    obtain ⟨signature, -, heq⟩ := bind_ok.mp read
    obtain ⟨piece, hpiece, hmessage⟩ := bind_ok.mp hmessage
    rw [Except.ok.inj (hfront.symm.trans hpiece)]
    cases heq
    exact hmessage
  · intro hmessage
    refine bind_ok.mpr ⟨_, hoffMsg, bind_ok.mpr ⟨_, hoffSig, ?_⟩⟩
    refine bind_ok.mpr ⟨_, bind_ok.mpr ⟨_, hfront, hmessage⟩, ?_⟩
    exact bind_ok.mpr ⟨_, bind_ok.mpr ⟨_, hback, hsig⟩, rfl⟩

private theorem SignedBlockWithAttestation.decodeSszChecked_parts (hlen : 8 + msg.length < 2 ^ 32)
    (hmsg : BlockWithAttestation.decodeSszChecked codec msg = .ok signed.message)
    (hsig : BlockSignatures.decodeSszChecked codec sig = .ok signed.signature) :
    SignedBlockWithAttestation.decodeSszChecked codec (signedParts msg sig).flatten =
      .ok signed := by
  have htotal := length_signedParts msg sig
  refine check_bind (by omega) ?_
  refine readU32_part_bind (k := 0) rfl rfl (by decide) ?_
  refine bind_ok.mpr ⟨8 + msg.length, ?_, ?_⟩
  · exact readU32_part (k := 1) rfl (by simp [signedParts]) hlen
  refine check_bind (by omega) ?_
  refine part_bind (k := 2) rfl (by simp [signedParts]) rfl hmsg ?_
  exact part_bind (k := 3) rfl (by simp [signedParts]; omega) htotal hsig rfl

/-! ## The blob -/

private theorem length_encodeBlob (digest : List Byte → Bytes32) (kind : Byte)
    (payload : List Byte) :
    (encodeBlob digest kind payload).length = blobHeaderLen + payload.length := by
  simp [encodeBlob, blobMagic, blobHeaderLen]
  omega

/-- The envelope is accepted exactly if the length field could hold the payload's length. -/
theorem decodeBlobOffset_encodeBlob (digest : List Byte → Bytes32) (kind : Byte)
    (payload : List Byte) :
    decodeBlobOffset kind (encodeBlob digest kind payload) =
      if payload.length < 2 ^ 32 then some blobHeaderLen else none := by
  have htotal := length_encodeBlob digest kind payload
  have hlen : slice (encodeBlob digest kind payload) 10 14 =
      .ok (leBytes 4 payload.length) :=
    slice_part (k := 3) rfl rfl (by simp)
  rw [Outcome.slice_ok (length_slice hlen).2] at hlen
  have hmagic : ((encodeBlob digest kind payload).take 8).drop 0 = blobMagic := rfl
  have hversion : (encodeBlob digest kind payload)[8]? = some blobVersion := rfl
  have hkind : (encodeBlob digest kind payload)[9]? = some kind := rfl
  have hmod : natOfLeBytes (leBytes 4 payload.length) = payload.length % 2 ^ 32 :=
    natOfLeBytes_leBytes 4 payload.length
  unfold decodeBlobOffset
  rw [if_neg (by omega), if_neg (not_not.mpr hmagic), if_neg (not_not.mpr hversion),
    if_neg (not_not.mpr hkind), Except.ok.inj hlen, hmod, htotal]
  by_cases hfits : payload.length < 2 ^ 32
  · rw [if_pos hfits, if_neg (by omega)]
  · rw [if_neg hfits, if_pos (by omega)]

private theorem decodeSignedBlockSafe_eq_some :
    decodeSignedBlockSafe codec bytes = .ok (some signed) ↔
      SignedBlockWithAttestation.decodeSsz codec bytes = .ok signed := by
  unfold decodeSignedBlockSafe
  split <;> simp_all

/-- A blob reads back exactly if its payload does and fits the length field. -/
theorem loadSignedBlockBlob_encodeBlob (digest : List Byte → Bytes32) {payload : List Byte} :
    loadSignedBlockBlob codec (encodeBlob digest blobKindSignedBlock payload) =
        .ok (some signed) ↔
      SignedBlockWithAttestation.decodeSsz codec payload = .ok signed ∧
        payload.length < 2 ^ 32 := by
  have hpayload : Outcome.sliceFrom (encodeBlob digest blobKindSignedBlock payload)
      blobHeaderLen = .ok payload :=
    slice_part (k := 5) rfl (by simp [blobMagic, blobHeaderLen])
      (length_encodeBlob digest blobKindSignedBlock payload)
  unfold loadSignedBlockBlob
  rw [decodeBlobOffset_encodeBlob]
  by_cases hfits : payload.length < 2 ^ 32
  · rw [if_pos hfits, and_iff_left hfits, ← decodeSignedBlockSafe_eq_some]
    simp only [hpayload, bind, Except.bind]
  · rw [if_neg hfits]
    exact iff_of_false (fun h => by cases h) fun both => hfits both.2

/-! ## The store -/

private theorem FileStore.PutSigned.signedRow {ssz : Ssz} {verifier : SignatureVerifier}
    {store after : FileStore} {root : Bytes32}
    (put : store.PutSigned ssz verifier root signed after) :
    after.signedRow root = some signed := by
  obtain ⟨state, justified, finalized, updateHead, rfl⟩ := put.bundle
  exact AList.lookup_insert _

/-- **Which stored signed blocks read back.** The encoding of a block of one proposer reads back
through the checked decoder. Through the trusting one it does exactly if the proposer's index is
below the fixed part of the message or past its end, and out of the store exactly if moreover the
envelope's length field can hold the encoding's length. -/
theorem signedBlock_readsBack_iff (lawful : codec.Lawful) {signed : SignedBlockWithAttestation}
    (wellFormed : signed.WellFormed) (trips : codec.RoundTrips signed) {i : Nat}
    (hi : i < validatorRegistryLimit)
    (hlen : signed.message.proposerAttestation.aggregationBits.len = i + 1)
    (single : ∀ j, signed.message.proposerAttestation.aggregationBits.get j = true ↔ j = i)
    (digest : List Byte → Bytes32) :
    ∃ bytes, signed.encodeSsz codec = .ok bytes ∧
      SignedBlockWithAttestation.decodeSszChecked codec bytes = .ok signed ∧
      (SignedBlockWithAttestation.decodeSsz codec bytes = .ok signed ↔
        i < 140 ∨ 140 + (signed.message.block.encodeSsz codec).length < i) ∧
      ∀ {ssz : Ssz} {verifier : SignatureVerifier} {store after : FileStore} {root : Bytes32},
        store.PutSigned ssz verifier root signed after →
          (after.readSignedBlock codec digest root = .ok (some signed) ↔
            (i < 140 ∨ 140 + (signed.message.block.encodeSsz codec).length < i) ∧
              bytes.length < 2 ^ 32) := by
  have hbits := wellFormed.proposerBits.eq_singleBit hlen single
  have hblock := wellFormed.block_readBack trips
  have hsignature := wellFormed.signature_readBack lawful trips
  have hmessage : signed.message =
      { block := signed.message.block
        proposerAttestation :=
          { aggregationBits := singleBit i
            data := signed.message.proposerAttestation.data } } := by
    rw [← hbits]
  let msg := (messageParts codec i signed.message.proposerAttestation.data
    signed.message.block).flatten
  have hmsg : 8 + msg.length < 2 ^ 32 := by
    have hlt := Block.length_encodeSsz_lt lawful wellFormed.count
      fun att hatt => (wellFormed.votes att hatt).2
    have hmsgLen : msg.length = 140 + (signed.message.block.encodeSsz codec).length :=
      length_messageParts ..
    omega
  have hencode : signed.encodeSsz codec =
      .ok (signedParts msg (signed.signature.encodeSsz codec)).flatten := by
    rw [SignedBlockWithAttestation.encodeSsz, BlockWithAttestation.encodeSsz_eq hbits]
    rfl
  have htrusting : SignedBlockWithAttestation.decodeSsz codec
      (signedParts msg (signed.signature.encodeSsz codec)).flatten = .ok signed ↔
        i < 140 ∨ 140 + (signed.message.block.encodeSsz codec).length < i := by
    rw [SignedBlockWithAttestation.decodeSsz_parts hmsg
      (BlockSignatures.decodeSsz_encodeSsz hsignature)]
    constructor
    · intro read
      by_contra inside
      rw [hmessage] at read
      exact BlockWithAttestation.decodeSsz_misread lawful hi hblock (by omega) _ read
    · intro outside
      rw [hmessage]
      exact BlockWithAttestation.decodeSsz_parts hi wellFormed.proposerData hblock outside
  refine ⟨_, hencode, ?_, htrusting, ?_⟩
  · refine SignedBlockWithAttestation.decodeSszChecked_parts hmsg ?_
      (BlockSignatures.decodeSszChecked_encodeSsz hsignature)
    rw [hmessage]
    exact BlockWithAttestation.decodeSszChecked_parts hi wellFormed.proposerData hblock
  · intro ssz verifier store after root put
    rw [FileStore.readSignedBlock, put.signedRow]
    simp only [SignedBlockWithAttestation.blob, hencode, bind, Except.bind]
    rw [loadSignedBlockBlob_encodeBlob, htrusting]

/-- The blob of a signed block reads back, as a signed block with the same block. -/
def SignedBlockWithAttestation.Legible (codec : SszEncoder) (digest : List Byte → Bytes32)
    (signed : SignedBlockWithAttestation) : Prop :=
  (signed.blob codec digest >>= loadSignedBlockBlob codec).map (Option.map (·.message.block)) =
    .ok (some signed.message.block)
  deriving Decidable

section Legible

variable {digest : List Byte → Bytes32} {store : FileStore} {root : Bytes32}

/-- A read of a row whose block is legible. -/
theorem FileStore.readSignedBlock_legible (row : store.signedRow root = some signed)
    (legible : signed.Legible codec digest) :
    ∃ found, store.readSignedBlock codec digest root = .ok (some found) ∧
      found.message.block = signed.message.block := by
  rw [FileStore.readSignedBlock, row]
  dsimp only
  unfold SignedBlockWithAttestation.Legible at legible
  cases hread : signed.blob codec digest >>= loadSignedBlockBlob codec with
  | error failure =>
    rw [hread] at legible
    cases legible
  | ok found =>
    rw [hread] at legible
    obtain ⟨block, rfl, hblock⟩ := Option.map_eq_some_iff.mp (Except.ok.inj legible)
    exact ⟨block, rfl, hblock⟩

/-- Every signed block of the store is legible. -/
def FileStore.Legible (codec : SszEncoder) (digest : List Byte → Bytes32) (store : FileStore) :
    Prop :=
  ∀ root, ∀ signed ∈ store.signedRow root, signed.Legible codec digest

instance FileStore.decidableLegible (codec : SszEncoder) (digest : List Byte → Bytes32)
    (store : FileStore) : Decidable (store.Legible codec digest) :=
  decidable_of_iff (∀ row ∈ store.canonicalDb.signedBlobs.entries, row.2.Legible codec digest)
    ⟨fun all root signed h => all ⟨root, signed⟩ (AList.mem_lookup_iff.mp h),
      fun all row h => all row.1 row.2 (AList.mem_lookup_iff.mpr h)⟩

end Legible

/-! ## A block of proposer 3 and one of proposer 140 -/

private theorem singleBit_normalized (hi : i < validatorRegistryLimit) :
    (singleBit i).Normalized where
  inLimit := hi
  bytes := by
    simp only [singleBit, length_setBit, List.length_replicate]
    omega
  clear j hj := by
    have hne : i ≠ j := Nat.ne_of_lt hj
    simp [singleBit, bitAt_setBit, hne]

private theorem get_singleBit (i j : Nat) : (singleBit i).get j = true ↔ j = i := by
  simp only [BitList.get, singleBit, bitAt_setBit, bitAt_replicate_zero, List.length_replicate,
    Nat.lt_succ_self, and_true, Bool.false_or, Bool.and_eq_true, decide_eq_true_iff]
  constructor
  · exact fun h => h.2.symm
  · rintro rfl
    exact ⟨decide_eq_true (Nat.lt_succ_self j), rfl⟩

/-! ## A crate by the layout of its lists -/

/-- The first `n` pieces of `len` bytes. -/
def chunks (len : Nat) : Nat → List Byte → List (List Byte)
  | 0, _ => []
  | n + 1, bytes => bytes.take len :: chunks len n (bytes.drop len)

/-- The pieces between ascending offsets, the last one up to the end. -/
def cutAt (bytes : List Byte) : List Nat → Option (List (List Byte))
  | [] => some []
  | [last] => if last ≤ bytes.length then some [bytes.drop last] else none
  | offset :: next :: rest =>
    if offset ≤ next then
      (cutAt bytes (next :: rest)).map ((bytes.take next).drop offset :: ·)
    else none

/-- The offsets in the table that starts the bytes. -/
def tableOffsets (bytes : List Byte) : List Nat :=
  (List.range (offsetAt bytes 0 / 4)).map fun k => offsetAt bytes (4 * k)

/-- A crate that reads lists by their layout: elements of a fixed length one after the other, others
behind a table of offsets. Bytes behind the last whole element are dropped. -/
def layoutEncoder : StateEncoder where
  toSsz := sampleSsz
  elements _ fixedLen _ bytes :=
    match fixedLen with
    | some len => (chunks len (bytes.length / len) bytes, none)
    | none =>
      if bytes = [] then ([], none)
      else if 4 ≤ offsetAt bytes 0 ∧ offsetAt bytes 0 % 4 = 0 then
        (cutAt bytes (tableOffsets bytes)).elim ([], some "offsets out of order") (·, none)
      else ([], some "no table of offsets")
  bitList _ _ bytes :=
    let last := bytes.getLastD 0#8
    let len := 8 * (bytes.length - 1) + last.toNat.log2
    if bytes = [] ∨ last = 0#8 then Outcome.err "bit list without a delimiter"
    else .ok ⟨(bytes.dropLast ++ [last ^^^ 1#8 <<< last.toNat.log2]).take ((len + 7) / 8), len⟩
  bytes32 bytes := .ok (BitVec.ofNat 256 (natOfBytes bytes))
  encodeElements pieces :=
    ((List.range pieces.length).map fun k =>
      leBytes 4 (4 * pieces.length + (pieces.take k).flatten.length)).flatten ++ pieces.flatten
  encodeBitList _ bits := setBit (grow bits.data (bits.len / 8 + 1)) bits.len
  encodeRoots roots := (roots.map (asRef 32)).flatten

/-- The pieces of a cut cover the bytes behind the first offset, and the offsets ascend. -/
theorem cutAt_eq_some {offset : Nat} {rest : List Nat}
    (h : cutAt bytes (offset :: rest) = some pieces) :
    offset ≤ bytes.length ∧ pieces.length = rest.length + 1 ∧
      (pieces.map List.length).sum = bytes.length - offset ∧ (offset :: rest).IsChain (· ≤ ·) := by
  induction rest generalizing offset pieces with
  | nil =>
    unfold cutAt at h
    split at h
    · cases h
      simpa
    · cases h
  | cons next rest ih =>
    unfold cutAt at h
    split at h
    · obtain ⟨tail, htail, rfl⟩ := Option.map_eq_some_iff.mp h
      obtain ⟨hle, hlen, hsum, hchain⟩ := ih htail
      refine ⟨by omega, by simp [hlen], ?_, .cons_cons ‹_› hchain⟩
      simp only [List.map_cons, List.sum_cons, hsum, List.length_drop, List.length_take]
      omega
    · cases h

/-- What is cut by the layout without an error: the table is as long as its first offset says. -/
theorem layoutEncoder_cut {limit : Nat}
    (cut : layoutEncoder.elements false none limit bytes = (pieces, none)) (ne : bytes ≠ []) :
    offsetAt bytes 0 ≤ bytes.length ∧ 4 * pieces.length = offsetAt bytes 0 ∧
      (pieces.map List.length).sum = bytes.length - offsetAt bytes 0 ∧
      (tableOffsets bytes).IsChain (· ≤ ·) := by
  simp only [layoutEncoder, if_neg ne] at cut
  split at cut
  · rename_i htable
    cases hcut : cutAt bytes (tableOffsets bytes) with
    | none =>
      rw [hcut] at cut
      cases cut
    | some found =>
      rw [hcut] at cut
      cases cut
      obtain ⟨count, hcount⟩ : ∃ count, offsetAt bytes 0 / 4 = count + 1 :=
        Nat.exists_eq_add_one.mpr (by omega)
      have hoffsets : tableOffsets bytes =
          offsetAt bytes 0 :: (List.range count).map fun k => offsetAt bytes (4 * (k + 1)) := by
        rw [tableOffsets, hcount, List.range_succ_eq_map, List.map_cons, List.map_map]
        rfl
      rw [hoffsets] at hcut ⊢
      obtain ⟨hle, hlen, hsum, hchain⟩ := cutAt_eq_some hcut
      rw [List.length_map, List.length_range] at hlen
      exact ⟨hle, by omega, hsum, hchain⟩
  · cases cut

theorem layoutEncoder_lawful : layoutEncoder.toSszEncoder.Lawful where
  length_bitList {limit bits} normalized := by
    have := normalized.bytes
    simp only [layoutEncoder, length_setBit, length_grow]
    omega
  length_elements pieces := by
    simp [layoutEncoder, List.length_flatten, List.sum_map_add, Function.comp_def]
    omega
  bitList_size {limit bytes bits} read := by
    simp only [layoutEncoder] at read
    split at read
    · cases read
    · rename_i delimited
      cases read
      have hpos : 0 < bytes.length := by
        refine List.length_pos_iff.mpr fun h => delimited (.inl h)
      have hlog : (bytes.getLastD 0#8).toNat.log2 < 8 := by
        have := (bytes.getLastD 0#8).isLt
        have hne : (bytes.getLastD 0#8).toNat ≠ 0 := by
          intro h
          exact delimited (.inr (BitVec.eq_of_toNat_eq h))
        exact (Nat.log2_lt hne).mpr this
      simp only
      omega
  elements_size {limit bytes pieces} cut := by
    by_cases hnil : bytes = []
    · subst hnil
      cases cut
      simp
    · obtain ⟨hle, hcount, hsum, -⟩ := layoutEncoder_cut cut hnil
      have hsplit : (pieces.map (·.length + 4)).sum =
          (pieces.map List.length).sum + pieces.length * 4 := by
        simp [List.sum_map_add]
      omega

/-- A block with one vote and its proof. -/
def proposedBy (i : Nat) : SignedBlockWithAttestation where
  message :=
    { block :=
        { slot := 1, proposerIndex := i, parentRoot := 5#256, stateRoot := 6#256
          body := ⟨⟨[{ aggregationBits := singleBit 2, data := signedData }]⟩⟩ }
      proposerAttestation := { aggregationBits := singleBit i, data := signedData } }
  signature :=
    { attestationSignatures :=
        ⟨[{ participants := singleBit 2, proofData := ⟨[7#8]⟩ }]⟩
      proposerSignature := 9#24896 }

theorem proposedBy_three_wellFormed : (proposedBy 3).WellFormed where
  count := by decide
  slot := by decide
  proposerIndex := by decide
  proposerData := ⟨by decide, by decide, by decide, by decide⟩
  proposerBits := singleBit_normalized (by decide)
  votes att hatt := by
    cases List.mem_singleton.mp hatt
    exact ⟨⟨by decide, by decide, by decide, by decide⟩, singleBit_normalized (by decide)⟩
  proofs proof hproof := by
    cases List.mem_singleton.mp hproof
    exact singleBit_normalized (by decide)

theorem proposedBy_three_roundTrips : layoutEncoder.toSszEncoder.RoundTrips (proposedBy 3) where
  attestations := by decide +kernel
  proofs := by decide +kernel
  votes := by decide +kernel
  participants := by decide +kernel

/-- A store whose anchor is a block of proposer `i`. -/
def anchoredBy (i : Nat) : FileStore :=
  FileStore.fresh.putAnchorSignedBlock 1#256 (proposedBy i)
    (generateGenesis sampleSsz 0 threeValidators)

/-- The law at a proposer of index 3. -/
theorem signedBlock_readsBack_three :
    (anchoredBy 3).readSignedBlock layoutEncoder (fun _ => 0#256) 1#256 =
      .ok (some (proposedBy 3)) := by
  obtain ⟨bytes, hbytes, -, -, get⟩ := signedBlock_readsBack_iff layoutEncoder_lawful
    proposedBy_three_wellFormed proposedBy_three_roundTrips (by decide) rfl (get_singleBit 3)
    fun _ => 0#256
  have hlen : ((proposedBy 3).encodeSsz layoutEncoder).toOption.map List.length = some 3503 := by
    decide +kernel
  rw [hbytes] at hlen
  have put : FileStore.fresh.PutSigned sampleSsz noopSignatureVerifier 1#256 (proposedBy 3)
      (anchoredBy 3) := .anchor _
  refine (get put).mpr ⟨.inl (by decide), ?_⟩
  rw [Option.some.inj hlen]
  decide

/-- **Proposer 140.** Its block passes the checked decoder, and the store cannot read it: the index
is taken for the end of the block, which is then read from no bytes. -/
theorem proposedBy_140_unreadable :
    ((proposedBy 140).encodeSsz layoutEncoder >>=
        SignedBlockWithAttestation.decodeSszChecked layoutEncoder) =
      .ok (proposedBy 140) ∧
    ((proposedBy 140).encodeSsz layoutEncoder >>=
        SignedBlockWithAttestation.decodeSsz layoutEncoder) =
      .error (.panicked "slice index out of range") ∧
    (anchoredBy 140).readSignedBlock layoutEncoder (fun _ => 0#256) 1#256 =
      .error (.panicked "slice index out of range") := by
  decide +kernel

end Peam
