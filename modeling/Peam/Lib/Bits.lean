import Mathlib.Data.Finset.Card
import Mathlib.Data.List.GetD
import Mathlib.Tactic.IntervalCases

/-!
# Byte-packed bit vectors

A bit vector stored in a byte string: bit `i` is bit `i % 8` of byte `i / 8`, and a position past
the string reads as clear. The reader `bitAt` is the specification every operation here is stated
against: writing a byte or a bit, taking and dropping bytes, padding with zero bytes.

`popCount` adds up the set bits byte by byte. `popCount_eq_card` says what the sum counts: the set
positions, each once. `popCount_set_or` is the law an incrementally maintained counter needs:
joining fresh bits into one byte adds exactly their number.
-/

namespace Packed

/-- One byte. -/
abbrev Byte := BitVec 8

/-- Bit `i` of a byte string, `(data[i / 8] & (1 << (i % 8))) != 0`; clear past its end. -/
def bitAt (data : List Byte) (i : Nat) : Bool :=
  (data.getD (i / 8) 0#8).getLsbD (i % 8)

/-- Set bit `i`, if the string reaches that far. -/
def setBit (data : List Byte) (i : Nat) : List Byte :=
  if i / 8 < data.length then
    data.set (i / 8) (data.getD (i / 8) 0#8 ||| (1#8 <<< (i % 8)))
  else data

/-- The number of set bits of a byte. -/
def countOnes (b : Byte) : Nat :=
  (List.range 8).countP (fun i => b.getLsbD i)

/-- The number of set bits of a byte string, added up byte by byte. -/
def popCount (data : List Byte) : Nat :=
  (data.map countOnes).sum

/-- A byte string grown to `len` bytes with zero bytes; a longer one is kept. -/
def grow (data : List Byte) (len : Nat) : List Byte :=
  data ++ List.replicate (len - data.length) 0#8

/-! ## Reading -/

variable {i : Nat} {data : List Byte}

/-- The first byte has the first eight bits. -/
theorem bitAt_cons_zero (b : Byte) (rest : List Byte) (h : i < 8) :
    bitAt (b :: rest) i = b.getLsbD i := by
  have hdiv : i / 8 = 0 := Nat.div_eq_of_lt h
  have hmod : i % 8 = i := Nat.mod_eq_of_lt h
  simp [bitAt, hdiv, hmod]

/-- The bits behind the first byte. -/
theorem bitAt_cons_add (b : Byte) (rest : List Byte) (i : Nat) :
    bitAt (b :: rest) (i + 8) = bitAt rest i := by
  have hdiv : (i + 8) / 8 = i / 8 + 1 := by omega
  have hmod : (i + 8) % 8 = i % 8 := by omega
  simp [bitAt, hdiv, hmod]

@[simp] theorem bitAt_nil (i : Nat) : bitAt [] i = false := by
  simp [bitAt]

/-- Past the string every bit is clear. -/
theorem bitAt_of_length_le (h : 8 * data.length ≤ i) : bitAt data i = false := by
  have hlen : data.length ≤ i / 8 := by omega
  unfold bitAt
  rw [List.getD_eq_default _ _ hlen, BitVec.getLsbD_zero]

/-- A set bit lies inside the bytes. -/
theorem lt_of_bitAt (h : bitAt data i = true) : i < 8 * data.length := by
  by_contra hle
  rw [bitAt_of_length_le (by omega)] at h
  exact Bool.false_ne_true h

@[simp] theorem bitAt_replicate_zero (k i : Nat) : bitAt (List.replicate k 0#8) i = false := by
  unfold bitAt
  rw [List.getD_eq_getElem?_getD, List.getElem?_replicate]
  split <;> simp

/-- Dropping whole bytes shifts the positions. -/
theorem bitAt_drop (data : List Byte) (k i : Nat) :
    bitAt (data.drop k) i = bitAt data (8 * k + i) := by
  have hdiv : (8 * k + i) / 8 = k + i / 8 := by omega
  have hmod : (8 * k + i) % 8 = i % 8 := by omega
  simp [bitAt, hdiv, hmod, List.getD_eq_getElem?_getD, List.getElem?_drop]

/-- Taking whole bytes clears what lies beyond them. -/
theorem bitAt_take (data : List Byte) (k i : Nat) :
    bitAt (data.take k) i = (decide (i < 8 * k) && bitAt data i) := by
  by_cases h : i < 8 * k
  · have hlt : i / 8 < k := by omega
    simp [bitAt, h, List.getD_eq_getElem?_getD, hlt]
  · have hge : ¬ i / 8 < k := by omega
    simp [bitAt, h, List.getD_eq_getElem?_getD, hge]

/-- Bits of a concatenation. -/
theorem bitAt_append (front back : List Byte) (i : Nat) :
    bitAt (front ++ back) i =
      if i < 8 * front.length then bitAt front i else bitAt back (i - 8 * front.length) := by
  unfold bitAt
  rw [List.getD_eq_getElem?_getD, List.getElem?_append]
  split
  · rename_i hlt
    rw [if_pos (by omega), List.getD_eq_getElem?_getD]
  · rename_i hge
    have hdiv : (i - 8 * front.length) / 8 = i / 8 - front.length := by omega
    have hmod : (i - 8 * front.length) % 8 = i % 8 := by omega
    rw [if_neg (by omega), hdiv, hmod, List.getD_eq_getElem?_getD]

/-- Padding with zero bytes changes no bit. -/
@[simp] theorem bitAt_grow (data : List Byte) (len i : Nat) :
    bitAt (grow data len) i = bitAt data i := by
  unfold bitAt grow
  rw [List.getD_eq_getElem?_getD, List.getD_eq_getElem?_getD, List.getElem?_append]
  split
  · rfl
  · rename_i h
    rw [List.getElem?_eq_none (Nat.le_of_not_lt h), List.getElem?_replicate]
    split <;> rfl

/-- Growing never shortens. -/
theorem length_grow (data : List Byte) (len : Nat) :
    (grow data len).length = max data.length len := by
  simp only [grow, List.length_append, List.length_replicate]
  omega

/-- Two strings of one length with the same bits are the same. -/
theorem eq_of_bitAt {data' : List Byte} (hlen : data.length = data'.length)
    (same : ∀ i, bitAt data i = bitAt data' i) : data = data' := by
  refine List.ext_getElem hlen fun k hk hk' => BitVec.eq_of_getLsbD_eq fun j hj => ?_
  have hdiv : (8 * k + j) / 8 = k := by omega
  have hmod : (8 * k + j) % 8 = j := by omega
  have hbit := same (8 * k + j)
  rw [bitAt, bitAt, hdiv, hmod] at hbit
  rwa [List.getD_eq_getElem _ _ hk, List.getD_eq_getElem _ _ hk'] at hbit

/-! ## Writing -/

/-- Writing a byte changes that byte's eight positions and no other. -/
theorem bitAt_set (data : List Byte) (k : Nat) (b : Byte) (i : Nat) :
    bitAt (data.set k b) i =
      if i / 8 = k ∧ k < data.length then b.getLsbD (i % 8) else bitAt data i := by
  unfold bitAt
  rw [List.getD_eq_getElem?_getD, List.getD_eq_getElem?_getD, List.getElem?_set]
  by_cases hk : k = i / 8
  · subst hk
    by_cases hlen : i / 8 < data.length
    · simp [hlen]
    · simp [hlen]
  · have hk' : ¬ i / 8 = k := fun h => hk h.symm
    simp [hk, hk']

@[simp] theorem length_setBit (data : List Byte) (i : Nat) :
    (setBit data i).length = data.length := by
  unfold setBit
  split <;> simp

private theorem getLsbD_one_shiftLeft {j : Nat} (hj : j < 8) (i : Nat) :
    (1#8 <<< i).getLsbD j = decide (i = j) := by
  rw [BitVec.getLsbD_shiftLeft, BitVec.getLsbD_one]
  by_cases h : i = j
  · subst h; simp [hj]
  · simp only [hj, decide_true, Bool.true_and, h, decide_false]
    by_cases hlt : j < i
    · simp [hlt]
    · have : ¬ j - i = 0 := by omega
      simp [this]

/-- Setting a bit sets that bit, when it is in range, and no other. -/
theorem bitAt_setBit (data : List Byte) (i j : Nat) :
    bitAt (setBit data i) j = (bitAt data j || decide (i = j ∧ i / 8 < data.length)) := by
  unfold setBit
  split
  · rename_i hlen
    rw [bitAt_set]
    by_cases hbyte : j / 8 = i / 8
    · have hone := getLsbD_one_shiftLeft (Nat.mod_lt j (by decide)) (i % 8)
      simp only [hbyte, hlen, and_self, if_true, BitVec.getLsbD_or, hone, and_true]
      have hiff : i % 8 = j % 8 ↔ i = j := by omega
      simp only [hiff, bitAt, hbyte]
    · have hne : ¬ i = j := by rintro rfl; exact hbyte rfl
      simp [hbyte, hne]
  · rename_i hlen
    simp [hlen]

/-! ## Counting -/

private theorem countOnes_zero : countOnes 0#8 = 0 := by decide

/-- Joining two bytes with no common bit adds their counts. -/
theorem countOnes_or {a b : Byte} (disjoint : ∀ i, a.getLsbD i = true → b.getLsbD i = false) :
    countOnes (a ||| b) = countOnes a + countOnes b := by
  unfold countOnes
  induction List.range 8 with
  | nil => rfl
  | cons i rest ih =>
    simp only [List.countP_cons, BitVec.getLsbD_or] at ih ⊢
    have hi := disjoint i
    cases ha : a.getLsbD i with
    | true => simp only [hi ha, ih]; simp; omega
    | false => simp only [ih, Bool.false_or]; simp; omega

private theorem popCount_cons (b : Byte) (rest : List Byte) :
    popCount (b :: rest) = countOnes b + popCount rest := by
  simp [popCount]

@[simp] theorem popCount_replicate_zero (k : Nat) : popCount (List.replicate k 0#8) = 0 := by
  simp [popCount, List.map_replicate, countOnes_zero]

/-- **The counter's law**: joining fresh bits into byte `k` adds exactly their number. -/
theorem popCount_set_or {k : Nat} (hk : k < data.length) {fresh : Byte}
    (disjoint : ∀ i, (data.getD k 0#8).getLsbD i = true → fresh.getLsbD i = false) :
    popCount (data.set k (data.getD k 0#8 ||| fresh)) = popCount data + countOnes fresh := by
  induction data generalizing k with
  | nil => exact absurd hk (Nat.not_lt_zero k)
  | cons b rest ih =>
    cases k with
    | zero =>
      have hb : ∀ i, b.getLsbD i = true → fresh.getLsbD i = false := by simpa using disjoint
      simp only [List.set_cons_zero, popCount_cons, List.getD_cons_zero, countOnes_or hb]
      omega
    | succ k =>
      have hk' : k < rest.length := by simpa using hk
      have hrest := ih hk' (by simpa using disjoint)
      simp only [List.set_cons_succ, popCount_cons, List.getD_cons_succ, hrest]
      omega

/-- Setting a clear bit in range adds one. -/
theorem popCount_setBit (hlen : i / 8 < data.length) (clear : bitAt data i = false) :
    popCount (setBit data i) = popCount data + 1 := by
  have hone : countOnes (1#8 <<< (i % 8)) = 1 := by
    have hlt : i % 8 < 8 := Nat.mod_lt i (by decide)
    generalize i % 8 = m at hlt ⊢
    interval_cases m <;> decide
  have disjoint : ∀ j, (data.getD (i / 8) 0#8).getLsbD j = true →
      (1#8 <<< (i % 8)).getLsbD j = false := by
    intro j hj
    have hj8 : j < 8 := BitVec.lt_of_getLsbD hj
    rw [getLsbD_one_shiftLeft hj8]
    by_contra hset
    have heq : i % 8 = j := by simpa using hset
    rw [← heq] at hj
    exact Bool.false_ne_true (clear.symm.trans hj)
  unfold setBit
  rw [if_pos hlen, popCount_set_or hlen disjoint, hone]

/-- The set positions of a byte string, as a set of numbers. -/
def setPositions (data : List Byte) : Finset Nat :=
  (Finset.range (8 * data.length)).filter (fun i => bitAt data i = true)

/-- The positions of the set bits. -/
theorem mem_setPositions : i ∈ setPositions data ↔ bitAt data i = true := by
  simp only [setPositions, Finset.mem_filter, Finset.mem_range]
  exact ⟨fun h => h.2, fun h => ⟨lt_of_bitAt h, h⟩⟩

private theorem setPositions_cons (b : Byte) (rest : List Byte) :
    setPositions (b :: rest) =
      (Finset.range 8).filter (fun i => b.getLsbD i = true) ∪
        (setPositions rest).image (· + 8) := by
  ext i
  simp only [mem_setPositions, Finset.mem_union, Finset.mem_filter, Finset.mem_range,
    Finset.mem_image]
  by_cases h : i < 8
  · rw [bitAt_cons_zero b rest h]
    constructor
    · intro hb; exact Or.inl ⟨h, hb⟩
    · rintro (⟨_, hb⟩ | ⟨j, _, hj⟩)
      · exact hb
      · omega
  · obtain ⟨j, rfl⟩ : ∃ j, i = j + 8 := ⟨i - 8, by omega⟩
    rw [bitAt_cons_add]
    constructor
    · intro hb; exact Or.inr ⟨j, hb, rfl⟩
    · rintro (⟨hlt, _⟩ | ⟨k, hk, hkj⟩)
      · omega
      · have : k = j := by omega
        exact this ▸ hk

/-- **What the sum counts**: the set positions, each once. -/
theorem popCount_eq_card (data : List Byte) : popCount data = (setPositions data).card := by
  induction data with
  | nil => rfl
  | cons b rest ih =>
    have hones : countOnes b = ((Finset.range 8).filter (fun i => b.getLsbD i = true)).card := by
      simp only [countOnes, List.countP_eq_length_filter, Finset.card, Finset.filter,
        Finset.range_val, Multiset.range, Multiset.filter_coe, Multiset.coe_card, Bool.decide_eq_true]
    rw [popCount_cons, setPositions_cons, Finset.card_union_of_disjoint,
      Finset.card_image_of_injective _ (add_left_injective 8), ih, hones]
    rw [Finset.disjoint_left]
    intro i hleft hright
    simp only [Finset.mem_filter, Finset.mem_range] at hleft
    obtain ⟨j, _, rfl⟩ := Finset.mem_image.mp hright
    omega

end Packed
