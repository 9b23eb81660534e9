import Mathlib.Algebra.BigOperators.Ring.List
import Mathlib.Tactic.Ring
import Peam.Laws.Framing

/-!
# The two readers of a length

`decode_uvi_len` reads a length from a buffer and `read_uvi_len_async` reads it from a stream. Their
loops end differently: the first fails on the shift at an eleventh byte, the second stops after ten.
They agree on every input (`readUviLenAsync_decode`), and both read back what `encode_uvi_len` wrote.

The value is another matter. `checked_shl` only checks the shift, so of the tenth byte all but the
lowest bit is lost, and an encoding of a length of 64 bits or more is accepted with a smaller one.
No other byte loses anything.
-/

namespace Peam

open Packed (Byte)
open Streams
open Streams.Reading

/-! ## Agreement -/

private theorem uviStep_late {value shift : Nat} (byte : Byte) (late : 64 ≤ shift) :
    uviStep value shift byte = .error ⟨.invalidData, "invalid varint length"⟩ := by
  unfold uviStep
  exact if_pos late

private theorem decodeUviLenFrom_cons {value shift next : Nat} {byte : Byte}
    (hstep : uviStep value shift byte = .ok next) (idx : Nat) (rest : List Byte) :
    decodeUviLenFrom value shift idx (byte :: rest) =
      if byte.toNat < 128 then .ok (next, idx + 1)
      else decodeUviLenFrom next (shift + 7) (idx + 1) rest := by
  conv_lhs => unfold decodeUviLenFrom
  rw [hstep]

private theorem readUviLenFrom_cons (value shift left : Nat) (byte : Byte) (rest : List Byte)
    (ending : Option IoError) :
    (readUviLenFrom value shift (left + 1) ⟨byte :: rest, ending⟩).value =
      match uviStep value shift byte with
      | .error e => .error (.io e)
      | .ok next =>
        if byte.toNat < 128 then .ok (next, ⟨rest, ending⟩)
        else (readUviLenFrom next (shift + 7) left ⟨rest, ending⟩).value := by
  have hbyte : Consumes (readExact 1) [byte] [byte] := Consumes.readExact rfl
  have hread : (readExact 1 ⟨byte :: rest, ending⟩).value = .ok ([byte], ⟨rest, ending⟩) :=
    hbyte rest ending
  conv_lhs => unfold readUviLenFrom
  rw [value_bind hread]
  show ((lift (uviStep value shift byte) >>= fun next =>
    if byte.toNat < 128 then pure next else readUviLenFrom next (shift + 7) left)
      ⟨rest, ending⟩).value = _
  cases hstep : uviStep value shift byte with
  | error e =>
    rfl
  | ok next =>
    have hlift : (lift (.ok next) ⟨rest, ending⟩).value = .ok (next, ⟨rest, ending⟩) := rfl
    rw [value_bind hlift]
    dsimp only
    by_cases hlast : byte.toNat < 128
    · rw [if_pos hlast, if_pos hlast]
      rfl
    · rw [if_neg hlast, if_neg hlast]

private theorem readUviLenFrom_nil (value shift left : Nat) (ending : Option IoError) :
    ∃ e, (readUviLenFrom value shift left ⟨[], ending⟩).value = .error (.io e) := by
  cases left with
  | zero => exact ⟨_, rfl⟩
  | succ left => exact ⟨_, rfl⟩

/-- The reader of the stream does what the reader of the buffer does: it returns the same value with
the rest of the stream, or fails. -/
def ReadsAs (decoded : Except IoError (Nat × Nat)) (idx : Nat) (bytes : List Byte)
    (ending : Option IoError) (read : Except ReadFailure (Nat × Stream)) : Prop :=
  match decoded with
  | .ok (value, used) => ∃ taken ≤ bytes.length, used = idx + taken ∧
      read = .ok (value, ⟨bytes.drop taken, ending⟩)
  | .error _ => ∃ e, read = .error (.io e)

/-- The loops agree from any turn on: the shift counts the turns that are left. -/
theorem readsAs_from {left shift : Nat} (hshift : shift + 7 * left = 70) (value idx : Nat)
    (bytes : List Byte) (ending : Option IoError) :
    ReadsAs (decodeUviLenFrom value shift idx bytes) idx bytes ending
      (readUviLenFrom value shift left ⟨bytes, ending⟩).value := by
  induction left generalizing shift value idx bytes with
  | zero =>
    cases bytes with
    | nil => exact ⟨_, rfl⟩
    | cons byte rest =>
      -- the eleventh byte: one loop fails on the shift, the other has no turn left
      unfold decodeUviLenFrom
      rw [uviStep_late byte (by omega)]
      exact ⟨_, rfl⟩
  | succ left ih =>
    cases bytes with
    | nil => exact readUviLenFrom_nil value shift (left + 1) ending
    | cons byte rest =>
      rw [readUviLenFrom_cons, decodeUviLenFrom]
      cases hstep : uviStep value shift byte with
      | error e => exact ⟨e, rfl⟩
      | ok next =>
        dsimp only
        by_cases hlast : byte.toNat < 128
        · rw [if_pos hlast, if_pos hlast]
          exact ⟨1, Nat.succ_le_succ (Nat.zero_le _), rfl, rfl⟩
        · rw [if_neg hlast, if_neg hlast]
          have hnext : shift + 7 + 7 * left = 70 := by omega
          have hrest := ih hnext next (idx + 1) rest
          revert hrest
          cases decodeUviLenFrom next (shift + 7) (idx + 1) rest with
          | error e => exact id
          | ok decoded =>
            rintro ⟨taken, hle, hused, hread⟩
            exact ⟨taken + 1, Nat.succ_le_succ hle, by omega, hread⟩

/-- **The two readers agree** on every stream. -/
theorem readUviLenAsync_decode (bytes : List Byte) (ending : Option IoError) :
    ReadsAs (decodeUviLen bytes) 0 bytes ending (readUviLenAsync ⟨bytes, ending⟩).value :=
  readsAs_from rfl 0 0 bytes ending

/-- **A length is read back** from the buffer too, whatever follows it. -/
theorem decodeUviLen_encode {n : Nat} (hn : n < 2 ^ 64) (suffix : List Byte) :
    decodeUviLen (encodeUviLen n ++ suffix) = .ok (n, (encodeUviLen n).length) := by
  have hread := readUviLenAsync_encode hn suffix none
  have hagree := readUviLenAsync_decode (encodeUviLen n ++ suffix) none
  rw [hread] at hagree
  cases hdecode : decodeUviLen (encodeUviLen n ++ suffix) with
  | error e =>
    rw [hdecode] at hagree
    obtain ⟨_, hfalse⟩ := hagree
    cases hfalse
  | ok decoded =>
    obtain ⟨value, used⟩ := decoded
    rw [hdecode] at hagree
    obtain ⟨taken, hle, hused, heq⟩ := hagree
    obtain ⟨hvalue, hrest⟩ := Prod.mk.inj (Except.ok.inj heq)
    have hlength := congrArg (fun stream => stream.bytes.length) hrest
    simp only [List.length_drop, List.length_append] at hlength hle
    rw [← hvalue, hused]
    congr 2
    omega

/-! ## The value -/

/-- The number an encoding stands for. -/
def uviValue (bytes : List Byte) : Nat :=
  (bytes.mapIdx fun i byte => byte.toNat % 128 * 2 ^ (7 * i)).sum

private theorem uviValue_cons (byte : Byte) (rest : List Byte) :
    uviValue (byte :: rest) = byte.toNat % 128 + 2 ^ 7 * uviValue rest := by
  unfold uviValue
  rw [List.mapIdx_cons, List.sum_cons, List.mapIdx_eq_zipIdx_map, List.mapIdx_eq_zipIdx_map,
    ← List.sum_map_mul_left]
  congr 1
  · simp
  · congr 1
    apply List.map_congr_left
    rintro ⟨byte, i⟩ -
    show byte.toNat % 128 * 2 ^ (7 * (i + 1)) = 2 ^ 7 * (byte.toNat % 128 * 2 ^ (7 * i))
    rw [show 7 * (i + 1) = 7 * i + 7 by omega, Nat.pow_add]
    ring

/-- The byte after `k` marked ones ends the encoding, and has more than its lowest bit. -/
def EndsWide (k : Nat) (bytes : List Byte) : Prop :=
  (∀ byte ∈ bytes.take k, 128 ≤ byte.toNat) ∧
    ∃ last ∈ bytes[k]?, 2 ≤ last.toNat ∧ last.toNat < 128
  deriving Decidable

/-- What the rest of an encoding adds, from the turn with this shift on. -/
def AddsValue (value shift idx : Nat) (bytes : List Byte) : Prop :=
  ∀ result used, decodeUviLenFrom value shift idx bytes = .ok (result, used) →
    result = value + uviValue (bytes.take (used - idx)) * 2 ^ shift

private theorem used_gt {value shift idx result used : Nat} {bytes : List Byte}
    (h : decodeUviLenFrom value shift idx bytes = .ok (result, used)) : idx < used := by
  induction bytes generalizing value shift idx with
  | nil => cases h
  | cons byte rest ih =>
    unfold decodeUviLenFrom at h
    split at h
    · cases h
    · split at h
      · cases h
        exact Nat.lt_succ_self _
      · exact (Nat.lt_succ_self _).trans (ih h)

/-- The tenth byte: only its lowest bit counts. -/
theorem uviStep_tenth {value : Nat} (byte : Byte) (hvalue : value < 2 ^ 63) :
    uviStep value 63 byte = .ok (value + byte.toNat % 2 * 2 ^ 63) := by
  have hbit : byte.toNat % 128 * 2 ^ 63 % 2 ^ 64 = byte.toNat % 2 * 2 ^ 63 := by
    rw [show (2 : Nat) ^ 64 = 2 * 2 ^ 63 from rfl, Nat.mul_mod_mul_right,
      Nat.mod_mod_of_dvd _ (by decide)]
  have hfits : ¬ value + byte.toNat % 2 * 2 ^ 63 ≥ 2 ^ 64 := by omega
  unfold uviStep
  dsimp only
  rw [if_neg (by decide), hbit, if_neg hfits]

private theorem decodeUviLenFrom_late {value shift idx : Nat} (bytes : List Byte)
    (late : 64 ≤ shift) : ∃ e, decodeUviLenFrom value shift idx bytes = .error e := by
  cases bytes with
  | nil => exact ⟨_, rfl⟩
  | cons byte rest =>
    unfold decodeUviLenFrom
    rw [uviStep_late byte late]
    exact ⟨_, rfl⟩

private theorem addsValue_tenth {value idx : Nat} {bytes : List Byte} (hvalue : value < 2 ^ 63) :
    AddsValue value 63 idx bytes ↔ ¬ EndsWide 0 bytes := by
  cases bytes with
  | nil =>
    refine ⟨fun _ ⟨_, last, h, _⟩ => (nomatch h), fun _ result used h => (nomatch h)⟩
  | cons byte rest =>
    have hstep := uviStep_tenth byte hvalue
    unfold AddsValue
    generalize (2 : Nat) ^ 63 = top at hvalue hstep ⊢
    by_cases hlast : byte.toNat < 128
    · have hdecode : decodeUviLenFrom value 63 idx (byte :: rest) =
          .ok (value + byte.toNat % 2 * top, idx + 1) := by
        rw [decodeUviLenFrom_cons hstep, if_pos hlast]
      have hone : uviValue ((byte :: rest).take (idx + 1 - idx)) = byte.toNat := by
        rw [Nat.add_sub_cancel_left, List.take_succ_cons, List.take_zero, uviValue_cons]
        exact Nat.mod_eq_of_lt hlast
      constructor
      · rintro adds ⟨-, last, hget, hwide, -⟩
        cases hget
        have hsame := adds _ _ hdecode
        rw [hone, Nat.add_left_cancel_iff] at hsame
        have := Nat.eq_of_mul_eq_mul_right (by omega) hsame
        omega
      · intro narrow result used h
        have hsmall : byte.toNat < 2 := by
          by_contra hwide
          exact narrow ⟨nofun, byte, rfl, by omega, hlast⟩
        obtain ⟨rfl, rfl⟩ := Prod.mk.inj (Except.ok.inj (hdecode.symm.trans h))
        rw [hone, Nat.mod_eq_of_lt hsmall]
    · refine ⟨?_, fun _ result used h => ?_⟩
      · rintro - ⟨-, last, hget, -, hend⟩
        cases hget
        exact hlast hend
      · obtain ⟨e, hlate⟩ := @decodeUviLenFrom_late (value + byte.toNat % 2 * top) 70 (idx + 1) rest
          (by decide)
        rw [decodeUviLenFrom_cons hstep, if_neg hlast, hlate] at h
        cases h

/-- **Only the tenth byte can lose bits.** By induction on the bytes that are left before it. -/
theorem addsValue_iff {k shift value idx : Nat} {bytes : List Byte} (hshift : shift + 7 * k = 63)
    (hvalue : value < 2 ^ shift) : AddsValue value shift idx bytes ↔ ¬ EndsWide k bytes := by
  induction k generalizing shift value idx bytes with
  | zero =>
    obtain rfl : shift = 63 := by omega
    exact addsValue_tenth hvalue
  | succ k ih =>
    cases bytes with
    | nil => refine ⟨fun _ ⟨_, last, h, _⟩ => (nomatch h), fun _ result used h => (nomatch h)⟩
    | cons byte rest =>
      have hpow : 2 ^ (shift + 7) = 128 * 2 ^ shift := by
        rw [Nat.pow_add]
        omega
      have hsum : value + byte.toNat % 128 * 2 ^ shift < 2 ^ (shift + 7) := by
        have hlow : byte.toNat % 128 * 2 ^ shift ≤ 127 * 2 ^ shift :=
          Nat.mul_le_mul_right _ (by omega)
        omega
      have hfits : 2 ^ (shift + 7) ≤ 2 ^ 64 := Nat.pow_le_pow_right (by decide) (by omega)
      have hstep := @uviStep_eq value shift _ byte rfl (by omega) (hsum.trans_le hfits)
      by_cases hlast : byte.toNat < 128
      · refine ⟨fun _ ⟨hmarked, _⟩ => ?_, fun _ result used h => ?_⟩
        · exact absurd (hmarked byte List.mem_cons_self) (Nat.not_le.mpr hlast)
        · rw [decodeUviLenFrom_cons hstep, if_pos hlast] at h
          cases h
          rw [Nat.add_sub_cancel_left, List.take_succ_cons, List.take_zero, uviValue_cons]
          show _ = value + (byte.toNat % 128 + 2 ^ 7 * 0) * 2 ^ shift
          rw [Nat.mul_zero, Nat.add_zero]
      · have hdecode : decodeUviLenFrom value shift idx (byte :: rest) =
            decodeUviLenFrom (value + byte.toNat % 128 * 2 ^ shift) (shift + 7) (idx + 1) rest := by
          rw [decodeUviLenFrom_cons hstep, if_neg hlast]
        have hwide : EndsWide (k + 1) (byte :: rest) ↔ EndsWide k rest := by
          unfold EndsWide
          rw [List.take_succ_cons, List.forall_mem_cons, List.getElem?_cons_succ]
          exact ⟨fun ⟨⟨_, h⟩, h'⟩ => ⟨h, h'⟩, fun ⟨h, h'⟩ => ⟨⟨by omega, h⟩, h'⟩⟩
        have hnext : shift + 7 + 7 * k = 63 := by omega
        rw [hwide, ← @ih (shift + 7) _ (idx + 1) _ hnext hsum]
        unfold AddsValue
        rw [hdecode]
        refine forall₂_congr fun result used => ?_
        refine forall_congr' fun h => ?_
        have hused := used_gt h
        have htake : (byte :: rest).take (used - idx) = byte :: rest.take (used - (idx + 1)) := by
          rw [show used - idx = used - (idx + 1) + 1 by omega, List.take_succ_cons]
        rw [htake, uviValue_cons]
        have hring : value + (byte.toNat % 128 + 2 ^ 7 * uviValue (rest.take (used - (idx + 1)))) *
            2 ^ shift = value + byte.toNat % 128 * 2 ^ shift +
              uviValue (rest.take (used - (idx + 1))) * 2 ^ (shift + 7) := by
          rw [Nat.pow_add]
          ring
        rw [hring]

/-- A reader that accepts returns the number that the bytes it took stand for. -/
structure ReadsExactly (bytes : List Byte) (ending : Option IoError) : Prop where
  decode : ∀ value used, decodeUviLen bytes = .ok (value, used) →
    value = uviValue (bytes.take used)
  read : ∀ value rest, (readUviLenAsync ⟨bytes, ending⟩).value = .ok (value, rest) →
    value = uviValue (bytes.take (bytes.length - rest.bytes.length))

/-- What is exact for the reader of the buffer is exact for the reader of the stream. -/
theorem readsExactly_iff (bytes : List Byte) (ending : Option IoError) :
    ReadsExactly bytes ending ↔ AddsValue 0 0 0 bytes := by
  constructor
  · intro exactly value used h
    rw [Nat.zero_add, pow_zero, Nat.mul_one]
    exact exactly.decode value used h
  · intro adds
    have hdecode : ∀ value used, decodeUviLen bytes = .ok (value, used) →
        value = uviValue (bytes.take used) := by
      intro value used h
      have := adds value used h
      rwa [Nat.zero_add, pow_zero, Nat.mul_one] at this
    refine ⟨hdecode, fun value rest hread => ?_⟩
    have hagree := readUviLenAsync_decode bytes ending
    rw [hread] at hagree
    cases h : decodeUviLen bytes with
    | error e =>
      rw [h] at hagree
      obtain ⟨_, hfalse⟩ := hagree
      cases hfalse
    | ok decoded =>
      obtain ⟨value', used⟩ := decoded
      rw [h] at hagree
      obtain ⟨taken, hle, hused, heq⟩ := hagree
      obtain ⟨rfl, rfl⟩ := Prod.mk.inj (Except.ok.inj heq)
      have htaken : bytes.length - (bytes.drop taken).length = used := by
        rw [List.length_drop]
        omega
      rw [htaken]
      exact hdecode _ _ h

/-- **The length prefix.** Every length below `2 ^ 64` is read back, whatever follows; the two readers
agree on every stream; and the value is exact unless nine marked bytes are followed by a last one
above 1, whose high bits are lost. -/
theorem uviLen_exact_iff (bytes : List Byte) (ending : Option IoError) :
    (∀ n < 2 ^ 64, ∀ suffix,
      decodeUviLen (encodeUviLen n ++ suffix) = .ok (n, (encodeUviLen n).length)) ∧
    ReadsAs (decodeUviLen bytes) 0 bytes ending (readUviLenAsync ⟨bytes, ending⟩).value ∧
    (ReadsExactly bytes ending ↔ ¬ EndsWide 9 bytes) := by
  refine ⟨fun n hn suffix => decodeUviLen_encode hn suffix, readUviLenAsync_decode bytes ending, ?_⟩
  rw [readsExactly_iff]
  exact addsValue_iff rfl (by decide)

/-- **An overlong length is truncated.** Nine bytes `0x80` and a byte `0x02` stand for `2 ^ 64`; both
readers accept them as a length of zero. -/
theorem overlong_truncated :
    decodeUviLen (List.replicate 9 0x80#8 ++ [0x02#8]) = .ok (0, 10) ∧
      (readUviLenAsync ⟨List.replicate 9 0x80#8 ++ [0x02#8], none⟩).value = .ok (0, ⟨[], none⟩) ∧
      uviValue (List.replicate 9 0x80#8 ++ [0x02#8]) = 2 ^ 64 ∧
      ¬ ReadsExactly (List.replicate 9 0x80#8 ++ [0x02#8]) none := by
  have hdecode : decodeUviLen (List.replicate 9 0x80#8 ++ [0x02#8]) = .ok (0, 10) := by
    decide +kernel
  have hvalue : uviValue (List.replicate 9 0x80#8 ++ [0x02#8]) = 2 ^ 64 := by decide +kernel
  refine ⟨hdecode, rfl, hvalue, fun exactly => ?_⟩
  have := exactly.decode _ _ hdecode
  exact absurd (this.trans hvalue) (by decide)

end Peam
