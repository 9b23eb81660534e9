import Mathlib.Data.List.AList
import Peam.Laws.Encode
import Peam.RawMerge

/-!
# Attestations are merged without loss

`aggregate_attestations` groups by the root of the data and merges the participants of a group. The
merge goes over its buffers in words; every access is in range, and the result is that of the
bytewise loop (`mergeAggregationBitsRaw_eq`).

`Gathers` describes an entry by the attestations that went into it, and not by their order. So the
result is the same for every list with the same members, up to zero bytes at the end of a bit list
that is longer than its declared length asks for.
-/

namespace Peam

open Packed

variable {bits : BitList validatorRegistryLimit} {others : List Attestation}

/-! ## Words -/

private theorem natOfLeBytes_cons (b : Byte) (rest : List Byte) :
    natOfLeBytes (b :: rest) = b.toNat + 256 * natOfLeBytes rest := rfl

private theorem leBytes_or {xs ys : List Byte} (same : xs.length = ys.length) :
    leBytes xs.length (natOfLeBytes xs ||| natOfLeBytes ys) = List.zipWith (· ||| ·) xs ys := by
  induction xs generalizing ys with
  | nil => rfl
  | cons x xs ih =>
    cases ys with
    | nil => cases same
    | cons y ys =>
      have split (b : Byte) (n : Nat) : (b.toNat + 256 * n) % 256 = b.toNat ∧
          (b.toNat + 256 * n) / 256 = n := by
        have := b.isLt
        omega
      have hlow : (natOfLeBytes (x :: xs) ||| natOfLeBytes (y :: ys)) % 2 ^ 8 =
          x.toNat ||| y.toNat := by
        rw [Nat.or_mod_two_pow, natOfLeBytes_cons, natOfLeBytes_cons]
        rw [show (2 : Nat) ^ 8 = 256 from rfl, (split x _).1, (split y _).1]
      have hrest : (natOfLeBytes (x :: xs) ||| natOfLeBytes (y :: ys)) / 256 ^ 1 =
          natOfLeBytes xs ||| natOfLeBytes ys := by
        rw [show (256 : Nat) ^ 1 = 2 ^ 8 from rfl, ← Nat.shiftRight_eq_div_pow,
          Nat.shiftRight_or_distrib, Nat.shiftRight_eq_div_pow, Nat.shiftRight_eq_div_pow,
          natOfLeBytes_cons, natOfLeBytes_cons]
        rw [show (2 : Nat) ^ 8 = 256 from rfl, (split x _).2, (split y _).2]
      rw [List.length_cons, Nat.add_comm, leBytes_add, hrest, ih (Nat.succ.inj same),
        List.zipWith_cons_cons]
      have hbyte : leBytes 1 (natOfLeBytes (x :: xs) ||| natOfLeBytes (y :: ys)) =
          [x ||| y] := by
        show [BitVec.ofNat 8 ((natOfLeBytes (x :: xs) ||| natOfLeBytes (y :: ys)) >>> 0)] = _
        rw [Nat.shiftRight_zero]
        congr 1
        apply BitVec.eq_of_toNat_eq
        rw [BitVec.toNat_ofNat, hlow, BitVec.toNat_or]
      rw [hbyte]
      rfl

/-- Whichever the byte order, a word written back is the bytewise disjunction. -/
theorem ByteOrder.bytes_or (order : ByteOrder) {xs ys : List Byte} (hxs : xs.length = 8)
    (hys : ys.length = 8) :
    order.bytes (order.word xs ||| order.word ys) = List.zipWith (· ||| ·) xs ys := by
  cases order with
  | little =>
    have h := leBytes_or (hxs.trans hys.symm)
    rw [hxs] at h
    exact h
  | big =>
    have hreverse (bytes : List Byte) : natOfBytes bytes = natOfLeBytes bytes.reverse := by
      rw [← natOfBytes_reverse, List.reverse_reverse]
    have h := @leBytes_or xs.reverse ys.reverse (by simp [hxs, hys])
    rw [List.length_reverse, hxs] at h
    show (leBytes 8 (natOfBytes xs ||| natOfBytes ys)).reverse = _
    rw [hreverse, hreverse, h, ← List.reverse_zipWith (hxs.trans hys.symm), List.reverse_reverse]

/-! ## The loops -/

/-- The first `k` bytes of the target merged, the others as they were. -/
def orFirst (k : Nat) (dst src : List Byte) : List Byte :=
  (List.range dst.length).map fun i =>
    if i < k then dst.getD i 0#8 ||| src.getD i 0#8 else dst.getD i 0#8

@[simp] theorem length_orFirst (k : Nat) (dst src : List Byte) :
    (orFirst k dst src).length = dst.length := by
  simp [orFirst]

private theorem getElem?_orFirst (k : Nat) (dst src : List Byte) (i : Nat) :
    (orFirst k dst src)[i]? =
      if i < k then (dst[i]?).map (· ||| src.getD i 0#8) else dst[i]? := by
  unfold orFirst
  rw [List.getElem?_map]
  by_cases hi : i < dst.length
  · rw [List.getElem?_range hi, Option.map_some, List.getElem?_eq_getElem hi,
      List.getD_eq_getElem _ _ hi]
    split
    · rfl
    · rfl
  · rw [List.getElem?_eq_none (by simpa using hi), List.getElem?_eq_none (by simpa using hi)]
    split
    · rfl
    · rfl

private theorem orFirst_zero (dst src : List Byte) : orFirst 0 dst src = dst := by
  apply List.ext_getElem?
  intro i
  rw [getElem?_orFirst, if_neg (Nat.not_lt_zero i)]

variable {dst src : List Byte}

private theorem mergeChunk_orFirst (order : ByteOrder) {i : Nat} (hdst : i * 8 + 8 ≤ dst.length)
    (hsrc : i * 8 + 8 ≤ src.length) :
    mergeChunk order src (orFirst (i * 8) dst src) i = some (orFirst ((i + 1) * 8) dst src) := by
  have hread : readUnaligned order (orFirst (i * 8) dst src) (i * 8) =
      some (order.word ((dst.drop (i * 8)).take 8)) := by
    have hsame : ((orFirst (i * 8) dst src).drop (i * 8)).take 8 = (dst.drop (i * 8)).take 8 := by
      congr 1
      apply List.ext_getElem?
      intro j
      rw [List.getElem?_drop, List.getElem?_drop, getElem?_orFirst, if_neg (by omega)]
    unfold readUnaligned
    rw [if_pos (by rw [length_orFirst]; exact hdst), hsame]
  have hreadSrc : readUnaligned order src (i * 8) =
      some (order.word ((src.drop (i * 8)).take 8)) := if_pos hsrc
  have hwrite : writeUnaligned order (orFirst (i * 8) dst src) (i * 8)
      (order.word ((dst.drop (i * 8)).take 8) ||| order.word ((src.drop (i * 8)).take 8)) =
      some (orFirst ((i + 1) * 8) dst src) := by
    unfold writeUnaligned
    rw [if_pos (by rw [length_orFirst]; exact hdst), order.bytes_or (by simp; omega) (by simp; omega)]
    congr 1
    apply List.ext_getElem?
    intro j
    rw [getElem?_orFirst, List.getElem?_append, List.getElem?_append]
    simp only [List.length_append, List.length_take, length_orFirst, List.length_zipWith,
      List.length_drop]
    by_cases hbefore : j < i * 8
    · rw [if_pos (by omega), if_pos (by omega), if_pos (by omega), List.getElem?_take_of_lt hbefore,
        getElem?_orFirst, if_pos hbefore]
    · by_cases hword : j < (i + 1) * 8
      · have hj : j < dst.length := by omega
        have hj' : j < src.length := by omega
        have hat : i * 8 + (j - min (i * 8) dst.length) = j := by omega
        rw [if_pos (by omega), if_neg (by omega), if_pos hword, List.getElem?_zipWith,
          List.getElem?_take_of_lt (by omega), List.getElem?_take_of_lt (by omega),
          List.getElem?_drop, List.getElem?_drop, hat, List.getElem?_eq_getElem hj,
          List.getElem?_eq_getElem hj', List.getD_eq_getElem _ _ hj']
        rfl
      · rw [if_neg (by omega), if_neg hword, List.getElem?_drop, getElem?_orFirst,
          if_neg (by omega)]
        congr 1
        omega
  unfold mergeChunk
  dsimp only
  rw [hread, hreadSrc]
  exact hwrite

private theorem mergeTailByte_orFirst {i : Nat} (hdst : i < dst.length) (hsrc : i < src.length) :
    mergeTailByte src (orFirst i dst src) i = some (orFirst (i + 1) dst src) := by
  have hd : (orFirst i dst src)[i]? = some dst[i] := by
    rw [getElem?_orFirst, if_neg (Nat.lt_irrefl i), List.getElem?_eq_getElem hdst]
  unfold mergeTailByte
  rw [hd, List.getElem?_eq_getElem hsrc]
  show some ((orFirst i dst src).set i (dst[i] ||| src[i])) = _
  congr 1
  apply List.ext_getElem?
  intro j
  rw [List.getElem?_set, getElem?_orFirst, getElem?_orFirst, length_orFirst]
  by_cases hj : i = j
  · subst hj
    rw [if_pos rfl, if_pos hdst, if_pos (Nat.lt_succ_self i), List.getElem?_eq_getElem hdst,
      List.getD_eq_getElem _ _ hsrc]
    rfl
  · have hiff : j < i + 1 ↔ j < i := by omega
    rw [if_neg hj]
    simp only [hiff]

private theorem foldlM_mergeChunk (order : ByteOrder) {n : Nat} (hdst : n * 8 ≤ dst.length)
    (hsrc : n * 8 ≤ src.length) :
    (List.range n).foldlM (mergeChunk order src) dst = some (orFirst (n * 8) dst src) := by
  induction n with
  | zero =>
    rw [Nat.zero_mul, orFirst_zero]
    rfl
  | succ n ih =>
    rw [List.range_succ, List.foldlM_append, ih (by omega) (by omega)]
    show [n].foldlM (mergeChunk order src) (orFirst (n * 8) dst src) = _
    rw [List.foldlM_cons, mergeChunk_orFirst order (by omega) (by omega)]
    rfl

private theorem foldlM_mergeTailByte {start n : Nat} (hdst : start + n ≤ dst.length)
    (hsrc : start + n ≤ src.length) :
    (List.range' start n).foldlM (mergeTailByte src) (orFirst start dst src) =
      some (orFirst (start + n) dst src) := by
  induction n generalizing start with
  | zero => rfl
  | succ n ih =>
    rw [List.range'_succ, List.foldlM_cons, mergeTailByte_orFirst (by omega) (by omega)]
    have hrest := @ih (start + 1) (by omega) (by omega)
    rw [Nat.add_assoc, Nat.add_comm 1] at hrest
    exact hrest

/-- **The merge in memory is the bytewise merge**, and no access leaves its buffer. -/
theorem mergeAggregationBitsRaw_eq (order : ByteOrder)
    (dst src : BitList validatorRegistryLimit) :
    mergeAggregationBitsRaw order dst src = some (mergeAggregationBits dst src) := by
  unfold mergeAggregationBitsRaw mergeAggregationBits
  dsimp only
  generalize grow dst.data ((max dst.len src.len + 7) / 8) = data
  have hmin := Nat.min_le_left src.data.length data.length
  have hmin' := Nat.min_le_right src.data.length data.length
  generalize min src.data.length data.length = mergeBytes at hmin hmin'
  rw [foldlM_mergeChunk order (by omega) (by omega)]
  have htail := @foldlM_mergeTailByte data src.data (mergeBytes / 8 * 8)
    (mergeBytes - mergeBytes / 8 * 8) (by omega) (by omega)
  rw [show mergeBytes / 8 * 8 + (mergeBytes - mergeBytes / 8 * 8) = mergeBytes by omega] at htail
  show (List.foldlM (mergeTailByte src.data) (orFirst (mergeBytes / 8 * 8) data src.data) _ >>= _) = _
  rw [htail]
  rfl

/-! ## Bit lists -/

/-- No bit is set past the declared length. -/
def CleanPadding (bits : BitList validatorRegistryLimit) : Prop :=
  ∀ i, bits.len ≤ i → bitAt bits.data i = false

private theorem CleanPadding.get_eq (clean : CleanPadding bits) (i : Nat) :
    bits.get i = bitAt bits.data i := by
  unfold BitList.get
  by_cases hi : i < bits.len
  · rw [decide_eq_true hi, Bool.true_and]
  · rw [clean i (Nat.le_of_not_lt hi), Bool.and_false]

/-- As many bytes as the declared length asks for. -/
def ExactBytes (bits : BitList validatorRegistryLimit) : Prop :=
  bits.data.length = (bits.len + 7) / 8

section Merge

variable {dst src : BitList validatorRegistryLimit}

private theorem bitAt_mergeAggregationBits (clean : CleanPadding src) (i : Nat) :
    bitAt (mergeAggregationBits dst src).data i = (bitAt dst.data i || bitAt src.data i) := by
  have hgrow : bitAt (grow dst.data ((max dst.len src.len + 7) / 8)) i = bitAt dst.data i :=
    bitAt_grow _ _ _
  rw [← hgrow]
  have hlength := length_grow dst.data ((max dst.len src.len + 7) / 8)
  show bitAt (orFirst (min src.data.length _) (grow dst.data _) src.data) i = _
  generalize grow dst.data ((max dst.len src.len + 7) / 8) = data at hlength
  -- a byte of the source past the target is padding
  have hpast : ¬ i / 8 < data.length → bitAt src.data i = false := fun hle =>
    clean i (by omega)
  have hbyte : (orFirst (min src.data.length data.length) data src.data).getD (i / 8) 0#8 =
      if i / 8 < data.length then data.getD (i / 8) 0#8 ||| src.data.getD (i / 8) 0#8 else 0#8 := by
    rw [List.getD_eq_getElem?_getD, getElem?_orFirst]
    by_cases hdata : i / 8 < data.length
    · rw [if_pos hdata, List.getElem?_eq_getElem hdata, List.getD_eq_getElem _ _ hdata]
      by_cases hsrc : i / 8 < src.data.length
      · rw [if_pos (by omega)]
        rfl
      · rw [if_neg (by omega), List.getD_eq_default _ _ (Nat.le_of_not_lt hsrc)]
        simp
    · rw [if_neg hdata, List.getElem?_eq_none (Nat.le_of_not_lt hdata)]
      simp
  unfold bitAt at hpast ⊢
  rw [hbyte]
  by_cases hdata : i / 8 < data.length
  · rw [if_pos hdata, BitVec.getLsbD_or]
  · rw [if_neg hdata, hpast hdata, List.getD_eq_default _ _ (Nat.le_of_not_lt hdata)]
    simp

private theorem CleanPadding.merge (hdst : CleanPadding dst) (hsrc : CleanPadding src) :
    CleanPadding (mergeAggregationBits dst src) := by
  intro i hi
  have hle : max dst.len src.len ≤ i := hi
  rw [bitAt_mergeAggregationBits hsrc, hdst i (by omega), hsrc i (by omega), Bool.or_false]

private theorem CleanPadding.get_merge (hdst : CleanPadding dst) (hsrc : CleanPadding src)
    (i : Nat) : (mergeAggregationBits dst src).get i = (dst.get i || src.get i) := by
  rw [(hdst.merge hsrc).get_eq, bitAt_mergeAggregationBits hsrc, hdst.get_eq, hsrc.get_eq]

private theorem ExactBytes.merge (hdst : ExactBytes dst) :
    ExactBytes (mergeAggregationBits dst src) := by
  have hlength := length_grow dst.data ((max dst.len src.len + 7) / 8)
  unfold ExactBytes at hdst ⊢
  show (orFirst _ (grow dst.data _) src.data).length = (max dst.len src.len + 7) / 8
  rw [length_orFirst, hlength, hdst]
  omega

end Merge

/-- The same declared length and the same bits. -/
def SameBits (bits other : BitList validatorRegistryLimit) : Prop :=
  bits.len = other.len ∧ ∀ i, bitAt bits.data i = bitAt other.data i

private theorem SameBits.eq {other : BitList validatorRegistryLimit} (same : SameBits bits other)
    (hbits : ExactBytes bits) (hother : ExactBytes other) : bits = other := by
  have hdata : bits.data = other.data := by
    refine eq_of_bitAt ?_ same.2
    rw [hbits, hother, same.1]
  obtain ⟨data, len⟩ := bits
  obtain ⟨data', len'⟩ := other
  cases hdata
  cases same.1
  rfl

/-! ## Groups -/

/-- An entry has the votes of all attestations with its data, and the longest of their lengths. -/
structure Gathers (attestations : List Attestation) (entry : Attestation) : Prop where
  voted : ∀ i, entry.aggregationBits.get i = true ↔
    ∃ a ∈ attestations, a.data = entry.data ∧ a.aggregationBits.get i = true
  clean : CleanPadding entry.aggregationBits
  within : ∀ a ∈ attestations, a.data = entry.data →
    a.aggregationBits.len ≤ entry.aggregationBits.len
  longest : ∃ a ∈ attestations, a.data = entry.data ∧
    a.aggregationBits.len = entry.aggregationBits.len
  exactBytes : (∀ a ∈ attestations, ExactBytes a.aggregationBits) →
    ExactBytes entry.aggregationBits

section Gathering

variable {seen : List Attestation} {attestation entry : Attestation}

private theorem gathers_first (clean : CleanPadding attestation.aggregationBits)
    (first : ∀ a ∈ seen, a.data ≠ attestation.data) :
    Gathers (seen ++ [attestation]) attestation where
  voted i := by
    refine ⟨fun h => ⟨attestation, by simp, rfl, h⟩, ?_⟩
    rintro ⟨a, ha, hdata, h⟩
    rcases List.mem_append.mp ha with ha | ha
    · exact absurd hdata (first a ha)
    · rw [List.mem_singleton.mp ha] at h
      exact h
  clean := clean
  within a ha hdata := by
    rcases List.mem_append.mp ha with ha | ha
    · exact absurd hdata (first a ha)
    · rw [List.mem_singleton.mp ha]
  longest := ⟨attestation, by simp, rfl, rfl⟩
  exactBytes all := all attestation (by simp)

private theorem Gathers.skip (gathers : Gathers seen entry)
    (other : attestation.data ≠ entry.data) : Gathers (seen ++ [attestation]) entry where
  voted i := by
    rw [gathers.voted i]
    constructor
    · rintro ⟨a, ha, h⟩
      exact ⟨a, List.mem_append_left _ ha, h⟩
    · rintro ⟨a, ha, hdata, h⟩
      rcases List.mem_append.mp ha with ha | ha
      · exact ⟨a, ha, hdata, h⟩
      · rw [List.mem_singleton.mp ha] at hdata
        exact absurd hdata other
  clean := gathers.clean
  within a ha hdata := by
    rcases List.mem_append.mp ha with ha | ha
    · exact gathers.within a ha hdata
    · rw [List.mem_singleton.mp ha] at hdata
      exact absurd hdata other
  longest := by
    obtain ⟨a, ha, h⟩ := gathers.longest
    exact ⟨a, List.mem_append_left _ ha, h⟩
  exactBytes all := gathers.exactBytes fun a ha => all a (List.mem_append_left _ ha)

private theorem Gathers.merge (gathers : Gathers seen entry)
    (clean : CleanPadding attestation.aggregationBits) (same : attestation.data = entry.data) :
    Gathers (seen ++ [attestation])
      { entry with
        aggregationBits :=
          mergeAggregationBits entry.aggregationBits attestation.aggregationBits } where
  voted i := by
    show (mergeAggregationBits entry.aggregationBits attestation.aggregationBits).get i = true ↔ _
    rw [gathers.clean.get_merge clean, Bool.or_eq_true, gathers.voted i]
    constructor
    · rintro (⟨a, ha, h⟩ | h)
      · exact ⟨a, List.mem_append_left _ ha, h⟩
      · exact ⟨attestation, by simp, same, h⟩
    · rintro ⟨a, ha, hdata, h⟩
      rcases List.mem_append.mp ha with ha | ha
      · exact .inl ⟨a, ha, hdata, h⟩
      · rw [List.mem_singleton.mp ha] at h
        exact .inr h
  clean := gathers.clean.merge clean
  within a ha hdata := by
    show a.aggregationBits.len ≤ max entry.aggregationBits.len attestation.aggregationBits.len
    rcases List.mem_append.mp ha with ha | ha
    · exact (gathers.within a ha hdata).trans (Nat.le_max_left _ _)
    · rw [List.mem_singleton.mp ha]
      exact Nat.le_max_right _ _
  longest := by
    rcases Nat.le_total attestation.aggregationBits.len entry.aggregationBits.len with hle | hle
    · obtain ⟨a, ha, hdata, hlen⟩ := gathers.longest
      exact ⟨a, List.mem_append_left _ ha, hdata, hlen.trans (Nat.max_eq_left hle).symm⟩
    · exact ⟨attestation, by simp, same, (Nat.max_eq_right hle).symm⟩
  exactBytes all :=
    (gathers.exactBytes fun a ha => all a (List.mem_append_left _ ha)).merge

/-- An entry is fixed by its data and the members of the list, up to the number of bytes. -/
theorem Gathers.sameBits {entry' : Attestation} (gathers : Gathers seen entry)
    (gathers' : Gathers others entry') (members : ∀ a, a ∈ others ↔ a ∈ seen)
    (same : entry'.data = entry.data) : SameBits entry'.aggregationBits entry.aggregationBits := by
  constructor
  · obtain ⟨a, ha, hdata, hlen⟩ := gathers.longest
    obtain ⟨a', ha', hdata', hlen'⟩ := gathers'.longest
    apply Nat.le_antisymm
    · rw [← hlen']
      exact gathers.within a' ((members a').mp ha') (hdata'.trans same)
    · rw [← hlen]
      exact gathers'.within a ((members a).mpr ha) (hdata.trans same.symm)
  · intro i
    rw [← gathers.clean.get_eq, ← gathers'.clean.get_eq, Bool.eq_iff_iff, gathers.voted,
      gathers'.voted]
    simp only [members, same]

end Gathering

section Groups

variable {ssz : Ssz}

/-- One turn of the loop of `aggregate_attestations`. -/
def groupStep (ssz : Ssz) (grouped : RapidHashMap Attestation) (attestation : Attestation) :
    RapidHashMap Attestation :=
  match grouped.lookup (attestation.data.hashTreeRoot ssz) with
  | some existing =>
    grouped.insert (attestation.data.hashTreeRoot ssz) { existing with
      aggregationBits :=
        mergeAggregationBits existing.aggregationBits attestation.aggregationBits }
  | none => grouped.insert (attestation.data.hashTreeRoot ssz) attestation

private theorem aggregateAttestations_eq (attestations : List Attestation) :
    aggregateAttestations ssz attestations =
      (attestations.foldl (groupStep ssz) ∅).entries.map (·.2) :=
  rfl

/-- The groups of the attestations seen so far. -/
structure Grouped (ssz : Ssz) (seen : List Attestation) (grouped : RapidHashMap Attestation) :
    Prop where
  gathers : ∀ ⦃key entry⦄, grouped.lookup key = some entry →
    key = entry.data.hashTreeRoot ssz ∧ Gathers seen entry
  all : ∀ a ∈ seen, ∃ entry, grouped.lookup (a.data.hashTreeRoot ssz) = some entry

private theorem grouped_nil : Grouped ssz [] ∅ :=
  ⟨nofun, nofun⟩

private theorem Grouped.step {seen : List Attestation} {grouped : RapidHashMap Attestation}
    {attestation : Attestation} (groups : Grouped ssz seen grouped)
    (clean : CleanPadding attestation.aggregationBits)
    (distinct : ∀ a ∈ seen, a.data.hashTreeRoot ssz = attestation.data.hashTreeRoot ssz →
      a.data = attestation.data) :
    Grouped ssz (seen ++ [attestation]) (groupStep ssz grouped attestation) := by
  -- whatever the entry for the new key is, the other keys keep theirs
  have insert {new : Attestation} (hdata : new.data = attestation.data)
      (hnew : Gathers (seen ++ [attestation]) new) :
      Grouped ssz (seen ++ [attestation])
        (grouped.insert (attestation.data.hashTreeRoot ssz) new) := by
    constructor
    · intro key entry h
      rcases lookup_insert_some.mp h with ⟨rfl, rfl⟩ | ⟨hkey, h⟩
      · exact ⟨by rw [hdata], hnew⟩
      · obtain ⟨hroot, hgathers⟩ := groups.gathers h
        refine ⟨hroot, hgathers.skip fun hsame => hkey ?_⟩
        rw [hroot, hsame]
    · intro a ha
      by_cases hkey : a.data.hashTreeRoot ssz = attestation.data.hashTreeRoot ssz
      · exact ⟨new, by rw [hkey, AList.lookup_insert]⟩
      · rw [AList.lookup_insert_ne hkey]
        rcases List.mem_append.mp ha with ha | ha
        · exact groups.all a ha
        · rw [List.mem_singleton.mp ha] at hkey
          exact absurd rfl hkey
  unfold groupStep
  cases hlookup : grouped.lookup (attestation.data.hashTreeRoot ssz) with
  | some existing =>
    obtain ⟨hroot, hgathers⟩ := groups.gathers hlookup
    obtain ⟨a, ha, hdata, -⟩ := hgathers.longest
    have hsame : attestation.data = existing.data := by
      rw [← hdata]
      exact (distinct a ha (by rw [hdata, ← hroot])).symm
    exact insert hsame.symm (hgathers.merge clean hsame)
  | none =>
    refine insert rfl (gathers_first clean fun a ha hdata => ?_)
    obtain ⟨entry, hentry⟩ := groups.all a ha
    rw [hdata, hlookup] at hentry
    cases hentry

/-- No two data of the list have one root. -/
def DistinctRoots (ssz : Ssz) (attestations : List Attestation) : Prop :=
  ∀ a ∈ attestations, ∀ b ∈ attestations,
    a.data.hashTreeRoot ssz = b.data.hashTreeRoot ssz → a.data = b.data

/-- **The groups of the whole list.** -/
theorem grouped_all {attestations : List Attestation}
    (clean : ∀ a ∈ attestations, CleanPadding a.aggregationBits)
    (distinct : DistinctRoots ssz attestations) :
    Grouped ssz attestations (attestations.foldl (groupStep ssz) ∅) := by
  suffices run : ∀ (rest seen : List Attestation) (grouped : RapidHashMap Attestation),
      Grouped ssz seen grouped → (∀ a ∈ rest, CleanPadding a.aggregationBits) →
        DistinctRoots ssz (seen ++ rest) →
        Grouped ssz (seen ++ rest) (rest.foldl (groupStep ssz) grouped) from
    run attestations [] ∅ grouped_nil clean distinct
  intro rest
  induction rest with
  | nil =>
    intro seen grouped groups _ _
    rw [List.append_nil]
    exact groups
  | cons attestation rest ih =>
    intro seen grouped groups clean distinct
    have hstep := groups.step (clean attestation List.mem_cons_self) fun a ha =>
      distinct a (List.mem_append_left _ ha) attestation
        (List.mem_append_right _ List.mem_cons_self)
    have hrest := ih _ _ hstep (fun a ha => clean a (List.mem_cons_of_mem _ ha))
      (by rw [List.append_assoc]; exact distinct)
    rw [List.append_assoc] at hrest
    exact hrest

variable {entry : Attestation}

private theorem mem_aggregateAttestations {attestations : List Attestation} :
    entry ∈ aggregateAttestations ssz attestations ↔
      ∃ key, (attestations.foldl (groupStep ssz) ∅).lookup key = some entry := by
  rw [aggregateAttestations_eq, List.mem_map]
  constructor
  · rintro ⟨⟨key, entry⟩, hmem, rfl⟩
    exact ⟨key, AList.mem_lookup_iff.mpr hmem⟩
  · rintro ⟨key, h⟩
    exact ⟨⟨key, entry⟩, AList.mem_lookup_iff.mp h, rfl⟩

/-- The list has the vote of a validator for some data. -/
def HasVote (attestations : List Attestation) (index : Nat) (data : AttestationData) : Prop :=
  ∃ a ∈ attestations, a.data = data ∧ a.aggregationBits.get index = true

section Result

variable {attestations : List Attestation}
  (clean : ∀ a ∈ attestations, CleanPadding a.aggregationBits)
  (distinct : DistinctRoots ssz attestations)

include clean distinct

private theorem gathers_of_mem
    (h : entry ∈ aggregateAttestations ssz attestations) : Gathers attestations entry := by
  obtain ⟨key, h⟩ := mem_aggregateAttestations.mp h
  exact ((grouped_all clean distinct).gathers h).2

private theorem exists_entry_iff (data : AttestationData) :
    (∃ entry ∈ aggregateAttestations ssz attestations, entry.data = data) ↔
      ∃ a ∈ attestations, a.data = data := by
  constructor
  · rintro ⟨entry, hentry, rfl⟩
    obtain ⟨a, ha, hdata, -⟩ := (gathers_of_mem clean distinct hentry).longest
    exact ⟨a, ha, hdata⟩
  · rintro ⟨a, ha, rfl⟩
    obtain ⟨entry, hlookup⟩ := (grouped_all clean distinct).all a ha
    obtain ⟨hroot, hgathers⟩ := (grouped_all clean distinct).gathers hlookup
    refine ⟨entry, mem_aggregateAttestations.mpr ⟨_, hlookup⟩, ?_⟩
    obtain ⟨b, hb, hdata, -⟩ := hgathers.longest
    rw [← hdata]
    exact distinct b hb a ha (by rw [hdata, ← hroot])

private theorem nodup_data : ((aggregateAttestations ssz attestations).map (·.data)).Nodup := by
  let grouped := attestations.foldl (groupStep ssz) ∅
  have hkeys : (grouped.entries.map (·.1)).Nodup := grouped.nodupKeys
  have hroots : grouped.entries.map (·.1) =
      (grouped.entries.map (·.2.data)).map (AttestationData.hashTreeRoot ssz) := by
    rw [List.map_map]
    refine List.map_congr_left fun row hrow => ?_
    exact ((grouped_all clean distinct).gathers (AList.mem_lookup_iff.mpr hrow)).1
  rw [hroots] at hkeys
  rw [aggregateAttestations_eq, List.map_map]
  exact hkeys.of_map _

private theorem hasVote_aggregate_iff (index : Nat) (data : AttestationData) :
    HasVote (aggregateAttestations ssz attestations) index data ↔
      HasVote attestations index data := by
  constructor
  · rintro ⟨entry, hentry, rfl, h⟩
    exact ((gathers_of_mem clean distinct hentry).voted index).mp h
  · rintro ⟨a, ha, rfl, h⟩
    obtain ⟨entry, hentry, hdata⟩ := (exists_entry_iff clean distinct a.data).mpr ⟨a, ha, rfl⟩
    refine ⟨entry, hentry, hdata, ((gathers_of_mem clean distinct hentry).voted index).mpr ?_⟩
    exact ⟨a, ha, hdata.symm, h⟩

private theorem exists_sameBits (members : ∀ a, a ∈ others ↔ a ∈ attestations)
    (h : entry ∈ aggregateAttestations ssz attestations) :
    ∃ other ∈ aggregateAttestations ssz others, other.data = entry.data ∧
      SameBits other.aggregationBits entry.aggregationBits ∧
      ((∀ a ∈ attestations, ExactBytes a.aggregationBits) → other = entry) := by
  have clean' : ∀ a ∈ others, CleanPadding a.aggregationBits := fun a ha =>
    clean a ((members a).mp ha)
  have distinct' : DistinctRoots ssz others := fun a ha b hb =>
    distinct a ((members a).mp ha) b ((members b).mp hb)
  have hgathers := gathers_of_mem clean distinct h
  obtain ⟨a, ha, hdata⟩ := (exists_entry_iff clean distinct entry.data).mp ⟨entry, h, rfl⟩
  obtain ⟨other, hother, hsame⟩ :=
    (exists_entry_iff clean' distinct' entry.data).mpr ⟨a, (members a).mpr ha, hdata⟩
  have hgathers' := gathers_of_mem clean' distinct' hother
  have hbits := hgathers.sameBits hgathers' members hsame
  refine ⟨other, hother, hsame, hbits, fun exact_ => ?_⟩
  have heq := hbits.eq (hgathers'.exactBytes fun a ha => exact_ a ((members a).mp ha))
    (hgathers.exactBytes exact_)
  obtain ⟨bits, data⟩ := other
  obtain ⟨bits', data'⟩ := entry
  cases heq
  cases hsame
  rfl

end Result

end Groups

/-- **Aggregation is lossless.** One attestation for each data of the list, with exactly the votes of
the list. A list with the same members, in any order and with any repetitions, has the same
result: entry for entry the same data, length and bits, and the very same entries if the bit lists
have no bytes too many. The merge touches its two buffers only, and is the bytewise merge. -/
theorem aggregateAttestations_lossless (ssz : Ssz) (attestations : List Attestation)
    (clean : ∀ a ∈ attestations, CleanPadding a.aggregationBits)
    (distinct : DistinctRoots ssz attestations) :
    ((aggregateAttestations ssz attestations).map (·.data)).Nodup ∧
    (∀ data, (∃ entry ∈ aggregateAttestations ssz attestations, entry.data = data) ↔
      ∃ a ∈ attestations, a.data = data) ∧
    (∀ index data, HasVote (aggregateAttestations ssz attestations) index data ↔
      HasVote attestations index data) ∧
    (∀ others, (∀ a, a ∈ others ↔ a ∈ attestations) →
      (∀ entry ∈ aggregateAttestations ssz attestations,
        ∃ other ∈ aggregateAttestations ssz others, other.data = entry.data ∧
          SameBits other.aggregationBits entry.aggregationBits) ∧
      (∀ other ∈ aggregateAttestations ssz others,
        ∃ entry ∈ aggregateAttestations ssz attestations, entry.data = other.data ∧
          SameBits entry.aggregationBits other.aggregationBits) ∧
      ((∀ a ∈ attestations, ExactBytes a.aggregationBits) → ∀ entry,
        entry ∈ aggregateAttestations ssz others ↔
          entry ∈ aggregateAttestations ssz attestations)) ∧
    ∀ order dst src,
      mergeAggregationBitsRaw order dst src = some (mergeAggregationBits dst src) := by
  refine ⟨nodup_data clean distinct, exists_entry_iff clean distinct,
    hasVote_aggregate_iff clean distinct, fun others members => ?_, mergeAggregationBitsRaw_eq⟩
  have clean' : ∀ a ∈ others, CleanPadding a.aggregationBits := fun a ha =>
    clean a ((members a).mp ha)
  have distinct' : DistinctRoots ssz others := fun a ha b hb =>
    distinct a ((members a).mp ha) b ((members b).mp hb)
  have members' : ∀ a, a ∈ attestations ↔ a ∈ others := fun a => (members a).symm
  refine ⟨fun entry h => ?_, fun other h => ?_, fun exact_ entry => ⟨fun h => ?_, fun h => ?_⟩⟩
  · obtain ⟨other, hother, hdata, hbits, -⟩ := exists_sameBits clean distinct members h
    exact ⟨other, hother, hdata, hbits⟩
  · obtain ⟨entry, hentry, hdata, hbits, -⟩ := exists_sameBits clean' distinct' members' h
    exact ⟨entry, hentry, hdata, hbits⟩
  · obtain ⟨other, hother, -, -, heq⟩ := exists_sameBits clean' distinct' members' h
    rw [← heq fun a ha => exact_ a ((members a).mp ha)]
    exact hother
  · obtain ⟨other, hother, -, -, heq⟩ := exists_sameBits clean distinct members h
    rw [← heq exact_]
    exact hother

/-- Three votes on two data: validators 0 and 9 for the first, validator 1 for the second. -/
def threeVotes : List Attestation :=
  let first : AttestationData := ⟨2, ⟨7#256, 2⟩, ⟨7#256, 2⟩, ⟨5#256, 0⟩⟩
  let second : AttestationData := ⟨3, ⟨8#256, 3⟩, ⟨7#256, 2⟩, ⟨5#256, 0⟩⟩
  [⟨⟨[1#8], 1⟩, first⟩, ⟨⟨[2#8], 2⟩, second⟩, ⟨⟨[0#8, 2#8], 10⟩, first⟩]

private theorem cleanPadding_of_bytes
    (h : ∀ i < 8 * bits.data.length, bits.len ≤ i → bitAt bits.data i = false) :
    CleanPadding bits := by
  intro i hi
  by_cases hlt : i < 8 * bits.data.length
  · exact h i hlt hi
  · exact bitAt_of_length_le (Nat.le_of_not_lt hlt)

/-- The law at three votes for two data. -/
theorem aggregateAttestations_lossless_threeVotes :
    (aggregateAttestations sampleSsz threeVotes).length = 2 ∧
      ∀ index data, HasVote (aggregateAttestations sampleSsz threeVotes) index data ↔
        HasVote threeVotes index data := by
  have clean : ∀ a ∈ threeVotes, CleanPadding a.aggregationBits := by
    have hbytes : ∀ a ∈ threeVotes, ∀ i < 8 * a.aggregationBits.data.length,
        a.aggregationBits.len ≤ i → bitAt a.aggregationBits.data i = false := by decide
    exact fun a ha => cleanPadding_of_bytes (hbytes a ha)
  have distinct : DistinctRoots sampleSsz threeVotes := by
    unfold DistinctRoots
    decide +kernel
  exact ⟨by decide +kernel, (aggregateAttestations_lossless sampleSsz threeVotes clean distinct).2.2.1⟩

end Peam
