import Peam.Containers

/-!
# The justified-slot window

`justified_slots` is a window of bits: bit `i` stands for slot `finalized + 1 + i`, and every slot
up to the finalized one counts as justified without a bit. A header extends the window, a
justification sets a bit, a finalization shifts it.

A window is `Clean` when no byte carries a bit past the declared length, which makes growing that
length harmless. The source never checks this; every operation keeps it. On clean windows the three
operations are the expected ones on the bits (`get_extendJustifiedSlots`, `get_setJustifiedSlot`,
`get_shiftJustifiedWindow`).
-/

namespace Peam

open Packed
open Calls (Outcome)

abbrev JustifiedSlots := BitList historicalRootsLimit

/-! ## The source's functions -/

/-- `is_slot_justified`. -/
def isSlotJustified (justified : JustifiedSlots) (finalized slot : Nat) : Bool :=
  if slot ≤ finalized then true
  else
    let idx := slot - finalized - 1
    if idx ≥ justified.len then false
    else if idx / 8 ≥ justified.data.length then false
    else (justified.data.getD (idx / 8) 0#8).getLsbD (idx % 8)

/-- `set_justified_slot`. Only its caller knows that `slot` is past `finalized`, so the index wraps
as the release build's does. -/
def setJustifiedSlot (justified : JustifiedSlots) (finalized slot : Nat) :
    Outcome JustifiedSlots :=
  let idx := subU64 (subU64 slot finalized) 1
  if idx ≥ historicalRootsLimit then Outcome.err "justified slot exceeds limit"
  else
    let len := if idx + 1 > justified.len then idx + 1 else justified.len
    let byteLen := (len + 7) / 8
    let data := if justified.data.length < byteLen then grow justified.data byteLen
      else justified.data
    .ok ⟨setBit data idx, len⟩

/-- `is_next_valid_justifiable_slot`: no slot strictly between the two may be justified. -/
def isNextValidJustifiableSlot (source target finalized : Nat) : Bool :=
  if target ≤ source then false
  else (List.range' (source + 1) (target - (source + 1))).all fun slot =>
    match isJustifiableAfter slot finalized with
    | .ok justifiable => !justifiable
    | .error _ => true

/-- `shift_justified_window`. -/
def shiftJustifiedWindow (justified : JustifiedSlots) (delta : Nat) : JustifiedSlots :=
  if delta ≥ justified.len then ⟨[], 0⟩
  else
    let newLen := justified.len - delta
    let newData := (List.range newLen).foldl
      (fun newData i =>
        let src := i + delta
        if src / 8 < justified.data.length ∧ (justified.data.getD (src / 8) 0#8).getLsbD (src % 8)
        then setBit newData i else newData)
      (List.replicate ((newLen + 7) / 8) 0#8)
    ⟨newData, newLen⟩

/-- The window part of `process_block_header_assuming_slot`: cover every slot before the block. -/
def extendJustifiedSlots (justified : JustifiedSlots) (finalized blockSlot : Nat) :
    JustifiedSlots :=
  let lastMaterialized := blockSlot - 1
  if lastMaterialized > finalized then
    let requiredLen := lastMaterialized - finalized
    if requiredLen > justified.len then
      let byteLen := (requiredLen + 7) / 8
      ⟨if justified.data.length < byteLen then grow justified.data byteLen else justified.data,
        requiredLen⟩
    else justified
  else justified

/-! ## Clean windows -/

/-- No bit is set past the declared length. -/
def BitList.Clean {limit : Nat} (bits : BitList limit) : Prop :=
  ∀ i, bitAt bits.data i = true → i < bits.len

/-- The byte vector covers the declared length. -/
def BitList.Covered {limit : Nat} (bits : BitList limit) : Prop := bits.len ≤ 8 * bits.data.length

private theorem BitList.Clean.get_eq {limit : Nat} {bits : BitList limit} (clean : bits.Clean)
    (i : Nat) : bits.get i = bitAt bits.data i := by
  unfold BitList.get
  cases h : bitAt bits.data i with
  | false => exact Bool.and_false _
  | true => simp [clean i h]

theorem BitList.clean_default {limit : Nat} : (BitList.default : BitList limit).Clean := by
  intro i h
  simp [BitList.default] at h

variable {justified set : JustifiedSlots} {finalized slot : Nat}

/-- A slot counts as justified when it is finalized or its bit is set. -/
theorem isSlotJustified_iff :
    isSlotJustified justified finalized slot = true ↔
      slot ≤ finalized ∨ justified.get (slot - finalized - 1) = true := by
  unfold isSlotJustified
  split
  · rename_i hle
    simp [hle]
  · rename_i hle
    simp only [hle, false_or]
    split
    · rename_i hlen
      simp [BitList.get, Nat.not_lt.mpr hlen]
    · rename_i hlen
      split
      · rename_i hdata
        rw [BitList.get, bitAt_of_length_le (by omega), Bool.and_false]
      · simp [BitList.get, bitAt, Nat.lt_of_not_ge hlen]

/-! ## Extending -/

private theorem bitAt_growTo (data : List Byte) (byteLen i : Nat) :
    bitAt (if data.length < byteLen then grow data byteLen else data) i = bitAt data i := by
  split <;> simp

private theorem length_growTo (data : List Byte) (byteLen : Nat) :
    byteLen ≤ (if data.length < byteLen then grow data byteLen else data).length := by
  split
  · rw [length_grow]
    omega
  · omega

private theorem bitAt_extendJustifiedSlots (justified : JustifiedSlots) (finalized blockSlot : Nat)
    (i : Nat) :
    bitAt (extendJustifiedSlots justified finalized blockSlot).data i =
      bitAt justified.data i := by
  simp only [extendJustifiedSlots]
  split
  · split
    · exact bitAt_growTo _ _ i
    · rfl
  · rfl

theorem clean_extendJustifiedSlots (clean : justified.Clean) (finalized blockSlot : Nat) :
    (extendJustifiedSlots justified finalized blockSlot).Clean := by
  intro i hi
  rw [bitAt_extendJustifiedSlots] at hi
  have hlt := clean i hi
  simp only [extendJustifiedSlots]
  split
  · split
    · rename_i hgrow
      exact Nat.lt_trans hlt hgrow
    · exact hlt
  · exact hlt

theorem get_extendJustifiedSlots (clean : justified.Clean) (finalized blockSlot : Nat) (i : Nat) :
    (extendJustifiedSlots justified finalized blockSlot).get i = justified.get i := by
  rw [(clean_extendJustifiedSlots clean finalized blockSlot).get_eq, clean.get_eq,
    bitAt_extendJustifiedSlots]

theorem covered_extendJustifiedSlots (covered : justified.Covered) (finalized blockSlot : Nat) :
    (extendJustifiedSlots justified finalized blockSlot).Covered := by
  unfold BitList.Covered at covered ⊢
  simp only [extendJustifiedSlots]
  split
  · split
    · have := length_growTo justified.data ((blockSlot - 1 - finalized + 7) / 8)
      dsimp only
      omega
    · exact covered
  · exact covered

/-! ## Setting -/

/-- Past the finalized slot the index is the distance, and the call fails only at the limit. -/
theorem setJustifiedSlot_eq {justified : JustifiedSlots} {finalized slot : Nat}
    (hlt : finalized < slot) :
    (slot - finalized - 1 < historicalRootsLimit → ∃ set,
        setJustifiedSlot justified finalized slot = .ok set) ∧
      ∀ set, setJustifiedSlot justified finalized slot = .ok set →
        (∀ i, bitAt set.data i = (bitAt justified.data i || decide (slot - finalized - 1 = i))) ∧
        set.len = max justified.len (slot - finalized) := by
  have hidx : subU64 (subU64 slot finalized) 1 = slot - finalized - 1 := by
    rw [subU64_eq (Nat.le_of_lt hlt), subU64_eq (by omega)]
  simp only [setJustifiedSlot, hidx]
  refine ⟨fun hlimit => ?_, fun set hset => ?_⟩
  · rw [if_neg (Nat.not_le.mpr hlimit)]
    exact ⟨_, rfl⟩
  · split at hset
    · cases hset
    · cases hset
      have hlen : (if slot - finalized - 1 + 1 > justified.len then slot - finalized - 1 + 1
          else justified.len) = max justified.len (slot - finalized) := by
        split <;> omega
      refine ⟨fun i => ?_, hlen⟩
      have hbytes := length_growTo justified.data
        ((max justified.len (slot - finalized) + 7) / 8)
      have hin : (slot - finalized - 1) / 8 <
          (if justified.data.length < (max justified.len (slot - finalized) + 7) / 8
            then grow justified.data ((max justified.len (slot - finalized) + 7) / 8)
            else justified.data).length := by omega
      rw [hlen, bitAt_setBit, bitAt_growTo]
      simp [hin]

theorem clean_setJustifiedSlot (clean : justified.Clean) (hlt : finalized < slot)
    (h : setJustifiedSlot justified finalized slot = .ok set) : set.Clean := by
  obtain ⟨hbits, hlen⟩ := (setJustifiedSlot_eq hlt).2 set h
  intro i hi
  rw [hbits i, Bool.or_eq_true, decide_eq_true_iff] at hi
  rcases hi with hi | hi
  · have := clean i hi
    omega
  · omega

theorem get_setJustifiedSlot (clean : justified.Clean) (hlt : finalized < slot)
    (h : setJustifiedSlot justified finalized slot = .ok set) (i : Nat) :
    set.get i = (justified.get i || decide (slot - finalized - 1 = i)) := by
  rw [(clean_setJustifiedSlot clean hlt h).get_eq, clean.get_eq,
    ((setJustifiedSlot_eq hlt).2 set h).1 i]

theorem covered_setJustifiedSlot (h : setJustifiedSlot justified finalized slot = .ok set) :
    set.Covered := by
  simp only [setJustifiedSlot] at h
  split at h
  · cases h
  · cases h
    unfold BitList.Covered
    dsimp only
    rw [length_setBit]
    have hbytes := length_growTo justified.data
      (((if subU64 (subU64 slot finalized) 1 + 1 > justified.len then
        subU64 (subU64 slot finalized) 1 + 1 else justified.len) + 7) / 8)
    omega

/-! ## Shifting -/

/-- The copy loop of the shift, up to bit `m` of the new window. -/
private theorem shiftLoop_spec (justified : JustifiedSlots) (delta : Nat) {newLen m : Nat}
    (hm : m ≤ newLen) :
    let newData := (List.range m).foldl
      (fun newData i =>
        let src := i + delta
        if src / 8 < justified.data.length ∧ (justified.data.getD (src / 8) 0#8).getLsbD (src % 8)
        then setBit newData i else newData)
      (List.replicate ((newLen + 7) / 8) 0#8)
    newData.length = (newLen + 7) / 8 ∧
      ∀ i, bitAt newData i = (decide (i < m) && bitAt justified.data (i + delta)) := by
  induction m with
  | zero => simp
  | succ m ih =>
    obtain ⟨hlen, hbits⟩ := ih (by omega)
    simp only [List.range_succ, List.foldl_append, List.foldl_cons, List.foldl_nil]
    have hread : ((m + delta) / 8 < justified.data.length ∧
        (justified.data.getD ((m + delta) / 8) 0#8).getLsbD ((m + delta) % 8) = true) ↔
        bitAt justified.data (m + delta) = true := by
      refine ⟨fun h => h.2, fun h => ⟨?_, h⟩⟩
      have := lt_of_bitAt h
      omega
    split
    · rename_i hset
      have hbit := hread.mp hset
      refine ⟨by rw [length_setBit, hlen], fun i => ?_⟩
      rw [bitAt_setBit, hbits i, hlen]
      rcases Nat.lt_trichotomy i m with hlt | rfl | hgt
      · simp [hlt, Nat.lt_succ_of_lt hlt, Nat.ne_of_gt hlt]
      · have hbound : i / 8 < (newLen + 7) / 8 := by omega
        simp [hbit, hbound]
      · simp [Nat.not_lt.mpr (Nat.le_of_lt hgt), Nat.not_lt.mpr hgt, Nat.ne_of_lt hgt]
    · rename_i hclear
      rw [hread, Bool.not_eq_true] at hclear
      refine ⟨hlen, fun i => ?_⟩
      rw [hbits i]
      rcases Nat.lt_trichotomy i m with hlt | rfl | hgt
      · simp [hlt, Nat.lt_succ_of_lt hlt]
      · simp [hclear]
      · simp [Nat.not_lt.mpr (Nat.le_of_lt hgt), Nat.not_lt.mpr hgt]

private theorem bitAt_shiftJustifiedWindow (clean : justified.Clean) (delta i : Nat) :
    bitAt (shiftJustifiedWindow justified delta).data i = bitAt justified.data (i + delta) := by
  have hpast : justified.len ≤ i + delta → bitAt justified.data (i + delta) = false := by
    intro hle
    rw [Bool.eq_false_iff]
    intro h
    exact Nat.not_lt.mpr hle (clean _ h)
  simp only [shiftJustifiedWindow]
  split
  · rename_i hall
    rw [hpast (by omega), bitAt_nil]
  · rw [(shiftLoop_spec justified delta (Nat.le_refl _)).2 i]
    by_cases hi : i < justified.len - delta
    · simp [hi]
    · rw [hpast (by omega), Bool.and_false]

theorem clean_shiftJustifiedWindow (justified : JustifiedSlots) (delta : Nat) :
    (shiftJustifiedWindow justified delta).Clean := by
  intro i hi
  simp only [shiftJustifiedWindow] at hi ⊢
  split at hi
  · simp at hi
  · rename_i hsome
    rw [(shiftLoop_spec justified delta (Nat.le_refl _)).2 i, Bool.and_eq_true,
      decide_eq_true_iff] at hi
    rw [if_neg hsome]
    exact hi.1

/-- The shifted window has bytes for every bit it declares. -/
theorem covered_shiftJustifiedWindow (justified : JustifiedSlots) (delta : Nat) :
    (shiftJustifiedWindow justified delta).Covered := by
  unfold BitList.Covered
  simp only [shiftJustifiedWindow]
  split
  · exact Nat.zero_le _
  · have hlen := (shiftLoop_spec justified delta (Nat.le_refl (justified.len - delta))).1
    dsimp only at hlen ⊢
    rw [hlen]
    omega

/-- **A shift moves every bit down by the distance.** -/
theorem get_shiftJustifiedWindow (clean : justified.Clean) (delta i : Nat) :
    (shiftJustifiedWindow justified delta).get i = justified.get (i + delta) := by
  rw [(clean_shiftJustifiedWindow justified delta).get_eq, clean.get_eq,
    bitAt_shiftJustifiedWindow clean]

/-! ## The next justifiable slot -/

/-- **The next-slot rule**: target follows source, and nothing strictly between is justifiable. -/
theorem isNextValidJustifiableSlot_iff {source target : Nat} :
    isNextValidJustifiableSlot source target finalized = true ↔
      source < target ∧ ∀ slot, source < slot → slot < target →
        isJustifiableAfter slot finalized ≠ .ok true := by
  unfold isNextValidJustifiableSlot
  split
  · rename_i hle
    simp [Nat.not_lt.mpr hle]
  · rename_i hlt
    have hlt' : source < target := Nat.lt_of_not_le hlt
    simp only [List.all_eq_true, List.mem_range'_1, hlt', true_and]
    constructor
    · intro h slot hlo hhi hyes
      have := h slot ⟨by omega, by omega⟩
      simp [hyes] at this
    · intro h slot hslot
      have := h slot (by omega) (by omega)
      cases hj : isJustifiableAfter slot finalized with
      | error e => rfl
      | ok b =>
        cases b with
        | false => rfl
        | true => exact absurd hj this

/-- **A finalizing source is never behind the finalized slot.** The finalized slot passes the
justifiability rule itself, so a link that jumps over it is not a link to the next slot. -/
theorem finalized_le_source {source target : Nat}
    (next : isNextValidJustifiableSlot source target finalized = true) (hlt : finalized < target) :
    finalized ≤ source := by
  by_contra hbehind
  obtain ⟨-, hnone⟩ := isNextValidJustifiableSlot_iff.mp next
  exact hnone finalized (Nat.lt_of_not_le hbehind) hlt (isJustifiableAfter_self finalized)

end Peam
