import Mathlib.Tactic.Ring
import Peam.Slot

/-!
# Justifiability arithmetic

The square root of `isqrt_u64` is found digit by digit. Before a turn with `bit = 4 ^ (j - 1)` there
is a root so far, `a`, and

* `res` is `a * 2 ^ j` and `x` is what `a * a` leaves of the number,
* the number is below `(a + 2 ^ j) ^ 2`,
* `a + 2 ^ j` is at most `2 ^ 32`, so that no sum of the turn leaves 64 bits.

A turn halves `2 ^ j` and adds it to `a` or not (`Digit.take`, `Digit.skip`); at `j = 0` the root is
found. The same description fits the loop of the model and the loop with overflow checks, so the
two agree, and the checks never fire.

The last test of `is_justifiable_after` asks whether `4 * delta + 1` is an odd square, which is to
say that `delta` is a product of two neighbours (`oddSquare_iff`).
-/

namespace Peam

open Loops (iterate)

/-- The root below a number. -/
structure IsRoot (n root : Nat) : Prop where
  below : root * root ≤ n
  above : n < (root + 1) * (root + 1)

private theorem IsRoot.greatest {n root r : Nat} (h : IsRoot n root) (hr : r * r ≤ n) :
    r ≤ root := by
  by_contra hlt
  have hsquare : (root + 1) * (root + 1) ≤ r * r := Nat.mul_self_le_mul_self (by omega)
  exact absurd (hsquare.trans hr) (Nat.not_le.mpr h.above)

private theorem IsRoot.square_iff {n root : Nat} (h : IsRoot n root) :
    root * root = n ↔ ∃ k, n = k * k := by
  constructor
  · rintro rfl
    exact ⟨root, rfl⟩
  · rintro ⟨k, rfl⟩
    have hle := h.greatest (Nat.le_refl _)
    exact Nat.le_antisymm h.below (Nat.mul_self_le_mul_self hle)

/-- The state of the search before the turn for digit `j`, with the root so far. -/
structure Digit (n j a x : Nat) : Prop where
  rest : x + a * a = n
  above : n < (a + 2 ^ j) * (a + 2 ^ j)
  fits : a + 2 ^ j ≤ 2 ^ 32

private theorem Digit.root {n a x : Nat} (h : Digit n 0 a x) : IsRoot n a := by
  refine ⟨?_, h.above⟩
  have := h.rest
  omega

section Turns

variable {n j a x : Nat}

private theorem trial_eq (j a : Nat) :
    a * 2 ^ (j + 1) + 4 ^ j + a * a = (a + 2 ^ j) * (a + 2 ^ j) := by
  rw [show (4 : Nat) = 2 * 2 from rfl, Nat.mul_pow, pow_succ]
  ring

private theorem Digit.trial_lt (h : Digit n (j + 1) a x) : a * 2 ^ (j + 1) + 4 ^ j < 2 ^ 64 := by
  have hle : a + 2 ^ j ≤ 2 ^ 32 := by
    have hgrows : 2 ^ j ≤ 2 ^ (j + 1) := Nat.pow_le_pow_right (by decide) (Nat.le_succ j)
    have := h.fits
    omega
  have hsquare := Nat.mul_self_le_mul_self hle
  have hpos : 0 < a * a ∨ a = 0 := by
    rcases Nat.eq_zero_or_pos a with rfl | ha
    · exact .inr rfl
    · exact .inl (Nat.mul_pos ha ha)
  rcases hpos with hpos | rfl
  · have := trial_eq j a
    omega
  · have hfits := h.fits
    rw [Nat.zero_add, pow_succ] at hfits
    have hhalf : 2 ^ j * 2 ^ j ≤ 2 ^ 31 * 2 ^ 31 := Nat.mul_self_le_mul_self (by omega)
    have := trial_eq j 0
    rw [Nat.zero_add] at this
    omega

/-- The digit is in the root: the trial square fits. -/
theorem Digit.take (h : Digit n (j + 1) a x) (le : a * 2 ^ (j + 1) + 4 ^ j ≤ x) :
    Digit n j (a + 2 ^ j) (x - (a * 2 ^ (j + 1) + 4 ^ j)) := by
  have htwice : a + 2 ^ j + 2 ^ j = a + 2 ^ (j + 1) := by
    rw [pow_succ]
    ring
  refine ⟨?_, ?_, ?_⟩
  · rw [← trial_eq, ← h.rest]
    omega
  · rw [htwice]
    exact h.above
  · rw [htwice]
    exact h.fits

/-- The digit is not in the root. -/
theorem Digit.skip (h : Digit n (j + 1) a x) (lt : x < a * 2 ^ (j + 1) + 4 ^ j) :
    Digit n j a x := by
  refine ⟨h.rest, ?_, ?_⟩
  · rw [← trial_eq, ← h.rest]
    omega
  · have hgrows : 2 ^ j ≤ 2 ^ (j + 1) := Nat.pow_le_pow_right (by decide) (Nat.le_succ j)
    exact (Nat.add_le_add_left hgrows a).trans h.fits

private theorem half_res (j a : Nat) : a * 2 ^ (j + 1) / 2 = a * 2 ^ j := by
  rw [pow_succ, ← Nat.mul_assoc, Nat.mul_div_cancel _ (by decide)]

private theorem quarter_bit (j : Nat) : 4 ^ (j + 1) / 4 = 4 ^ j := by
  rw [pow_succ, Nat.mul_div_cancel _ (by decide)]

private theorem take_res (j a : Nat) : a * 2 ^ j + 4 ^ j = (a + 2 ^ j) * 2 ^ j := by
  rw [show (4 : Nat) = 2 * 2 from rfl, Nat.mul_pow]
  ring

private theorem Digit.isqrtTurn_take (h : Digit n (j + 1) a x) (le : a * 2 ^ (j + 1) + 4 ^ j ≤ x) :
    isqrtTurn (x, a * 2 ^ (j + 1), 4 ^ (j + 1) / 4) =
      .again (x - (a * 2 ^ (j + 1) + 4 ^ j), (a + 2 ^ j) * 2 ^ j, 4 ^ j / 4) := by
  have hsum : a * 2 ^ j + 4 ^ j < 2 ^ 64 := by
    have hhalf := half_res j a
    have := h.trial_lt
    omega
  have hstep : isqrtStep x (a * 2 ^ (j + 1)) (4 ^ j) =
      .ok (x - (a * 2 ^ (j + 1) + 4 ^ j), (a + 2 ^ j) * 2 ^ j, 4 ^ j / 4) := by
    unfold isqrtStep
    rw [Checked.add_ok h.trial_lt, half_res, Checked.add_ok hsum, take_res]
    simp only [bind, Except.bind, ge_iff_le, le, if_true, Checked.sub_ok le]
    rfl
  unfold isqrtTurn
  dsimp only
  rw [quarter_bit, if_neg (Nat.pow_pos (by decide)).ne', hstep]

private theorem Digit.isqrtTurn_skip (h : Digit n (j + 1) a x) (lt : x < a * 2 ^ (j + 1) + 4 ^ j) :
    isqrtTurn (x, a * 2 ^ (j + 1), 4 ^ (j + 1) / 4) = .again (x, a * 2 ^ j, 4 ^ j / 4) := by
  have hstep : isqrtStep x (a * 2 ^ (j + 1)) (4 ^ j) = .ok (x, a * 2 ^ j, 4 ^ j / 4) := by
    unfold isqrtStep
    rw [Checked.add_ok h.trial_lt, half_res]
    simp only [bind, Except.bind, ge_iff_le, Nat.not_le.mpr lt, if_false]
    rfl
  unfold isqrtTurn
  dsimp only
  rw [quarter_bit, if_neg (Nat.pow_pos (by decide)).ne', hstep]

end Turns

/-! ## The loops -/

/-- **Both second loops find the root**, the one of the model and the one with checks. -/
theorem isqrt_of_digit {n j a x : Nat} (h : Digit n j a x) :
    ∃ root, IsRoot n root ∧
      (∀ fuel, j ≤ fuel → isqrtLoop fuel x (a * 2 ^ j) (4 ^ j / 4) = root) ∧
      ∀ fuel, j < fuel → iterate isqrtTurn fuel (x, a * 2 ^ j, 4 ^ j / 4) = some (.ok root) := by
  induction j generalizing a x with
  | zero =>
    refine ⟨a, h.root, fun fuel _ => ?_, fun fuel hfuel => ?_⟩
    · rw [pow_zero, Nat.mul_one]
      cases fuel with
      | zero => rfl
      | succ fuel => exact if_pos rfl
    · obtain ⟨fuel, rfl⟩ := Nat.exists_eq_succ_of_ne_zero (Nat.pos_iff_ne_zero.mp hfuel)
      rw [pow_zero, Nat.mul_one]
      rfl
  | succ j ih =>
    have hbit : 4 ^ j ≠ 0 := (Nat.pow_pos (by decide)).ne'
    by_cases hle : a * 2 ^ (j + 1) + 4 ^ j ≤ x
    · obtain ⟨root, hroot, hloop, hchecked⟩ := ih (h.take hle)
      refine ⟨root, hroot, fun fuel hfuel => ?_, fun fuel hfuel => ?_⟩
      · obtain ⟨fuel, rfl⟩ : ∃ left, fuel = left + 1 := ⟨fuel - 1, by omega⟩
        rw [isqrtLoop, quarter_bit, if_neg hbit, if_pos hle, half_res, take_res]
        exact hloop fuel (by omega)
      · obtain ⟨fuel, rfl⟩ : ∃ left, fuel = left + 1 := ⟨fuel - 1, by omega⟩
        rw [iterate, h.isqrtTurn_take hle]
        exact hchecked fuel (by omega)
    · have hlt := Nat.lt_of_not_le hle
      obtain ⟨root, hroot, hloop, hchecked⟩ := ih (h.skip hlt)
      refine ⟨root, hroot, fun fuel hfuel => ?_, fun fuel hfuel => ?_⟩
      · obtain ⟨fuel, rfl⟩ : ∃ left, fuel = left + 1 := ⟨fuel - 1, by omega⟩
        rw [isqrtLoop, quarter_bit, if_neg hbit, if_neg hle, half_res]
        exact hloop fuel (by omega)
      · obtain ⟨fuel, rfl⟩ : ∃ left, fuel = left + 1 := ⟨fuel - 1, by omega⟩
        rw [iterate, h.isqrtTurn_skip hlt]
        exact hchecked fuel (by omega)

/-- The first loops leave the highest digit that can be in the root. -/
theorem isqrtShrink_of_lt {n j : Nat} (h : n < 4 ^ j) :
    ∃ k ≤ j, n < 4 ^ k ∧ (∀ fuel, j ≤ fuel → isqrtShrink fuel n (4 ^ j / 4) = 4 ^ k / 4) ∧
      ∀ fuel, j < fuel → iterate (isqrtShrinkTurn n) fuel (4 ^ j / 4) = some (4 ^ k / 4) := by
  induction j with
  | zero =>
    refine ⟨0, Nat.le_refl _, h, fun fuel _ => ?_, fun fuel hfuel => ?_⟩
    · cases fuel with
      | zero => rfl
      | succ fuel => exact if_neg (Nat.not_lt_zero n)
    · obtain ⟨fuel, rfl⟩ := Nat.exists_eq_succ_of_ne_zero (Nat.pos_iff_ne_zero.mp hfuel)
      have hturn : isqrtShrinkTurn n (4 ^ 0 / 4) = .done 0 := if_neg (Nat.not_lt_zero n)
      rw [iterate, hturn]
      rfl
  | succ j ih =>
    by_cases hlt : n < 4 ^ j
    · obtain ⟨k, hk, hbelow, hloop, hiterate⟩ := ih hlt
      refine ⟨k, hk.trans (Nat.le_succ j), hbelow, fun fuel hfuel => ?_, fun fuel hfuel => ?_⟩
      · obtain ⟨fuel, rfl⟩ : ∃ left, fuel = left + 1 := ⟨fuel - 1, by omega⟩
        rw [isqrtShrink, quarter_bit, if_pos hlt]
        exact hloop fuel (by omega)
      · obtain ⟨fuel, rfl⟩ : ∃ left, fuel = left + 1 := ⟨fuel - 1, by omega⟩
        have hturn : isqrtShrinkTurn n (4 ^ (j + 1) / 4) = .again (4 ^ j / 4) := by
          unfold isqrtShrinkTurn
          rw [quarter_bit, if_pos hlt]
        rw [iterate, hturn]
        exact hiterate fuel (by omega)
    · refine ⟨j + 1, Nat.le_refl _, h, fun fuel hfuel => ?_, fun fuel hfuel => ?_⟩
      · obtain ⟨fuel, rfl⟩ : ∃ left, fuel = left + 1 := ⟨fuel - 1, by omega⟩
        rw [isqrtShrink, quarter_bit, if_neg hlt]
      · obtain ⟨fuel, rfl⟩ : ∃ left, fuel = left + 1 := ⟨fuel - 1, by omega⟩
        have hturn : isqrtShrinkTurn n (4 ^ (j + 1) / 4) = .done (4 ^ (j + 1) / 4) := by
          unfold isqrtShrinkTurn
          rw [quarter_bit, if_neg hlt]
        rw [iterate, hturn]

/-- **`isqrt_u64` is the root, and stays in 64 bits.** -/
theorem isqrtU64_spec {n : Nat} (hn : n < 2 ^ 64) :
    IsRoot n (isqrtU64 n) ∧ isqrtU64Checked n = some (.ok (isqrtU64 n)) := by
  have hstart : (2 : Nat) ^ 62 = 4 ^ 32 / 4 := by decide
  obtain ⟨k, hk, hbelow, hshrink, hiterate⟩ :=
    @isqrtShrink_of_lt n 32 (hn.trans_eq (by decide))
  have hdigit : Digit n k 0 n := by
    refine ⟨rfl, ?_, ?_⟩
    · rw [Nat.zero_add, ← Nat.mul_pow]
      exact hbelow
    · rw [Nat.zero_add]
      exact Nat.pow_le_pow_right (by decide) hk
  obtain ⟨root, hroot, hloop, hchecked⟩ := isqrt_of_digit hdigit
  rw [Nat.zero_mul] at hloop hchecked
  have hvalue : isqrtU64 n = root := by
    unfold isqrtU64
    rw [hstart, hshrink 32 (Nat.le_refl _)]
    exact hloop 32 hk
  refine ⟨hvalue ▸ hroot, ?_⟩
  unfold isqrtU64Checked
  rw [hstart, hiterate 64 (by decide), hvalue]
  exact hchecked 64 (by omega)

/-! ## The rule -/

/-- Four times a number and one is an odd square exactly for a product of two neighbours. -/
theorem oddSquare_iff {delta root : Nat} (h : IsRoot (4 * delta + 1) root) :
    (root * root = 4 * delta + 1 ∧ root % 2 = 1) ↔ ∃ k, delta = k * (k + 1) := by
  constructor
  · rintro ⟨hsquare, hodd⟩
    refine ⟨root / 2, ?_⟩
    obtain ⟨k, hk⟩ : ∃ k, root = 2 * k + 1 := ⟨root / 2, by omega⟩
    have hhalf : root / 2 = k := by omega
    rw [hhalf]
    rw [hk] at hsquare
    have hexpand : (2 * k + 1) * (2 * k + 1) = 4 * (k * (k + 1)) + 1 := by ring
    omega
  · rintro ⟨k, rfl⟩
    have hsquare : root * root = 4 * (k * (k + 1)) + 1 := by
      refine h.square_iff.mpr ⟨2 * k + 1, ?_⟩
      ring
    refine ⟨hsquare, ?_⟩
    rcases Nat.even_or_odd' root with ⟨m, rfl | rfl⟩
    · have hexpand : 2 * m * (2 * m) = 4 * (m * m) := by ring
      omega
    · omega

private theorem IsRoot.square_lt {n root : Nat} (h : IsRoot n root) (hn : n < 2 ^ 64) :
    root * root < 2 ^ 64 :=
  h.below.trans_lt hn

/-- The distances the rule allows. -/
def Justifiable (delta : Nat) : Prop :=
  delta ≤ 5 ∨ (∃ k, delta = k * k) ∨ ∃ k, delta = k * (k + 1)

/-- **Both readings of `is_justifiable_after` follow the rule.** -/
theorem isJustifiableAfter_spec {candidate finalized : Nat} (le : finalized ≤ candidate)
    (near : candidate - finalized < 2 ^ 62) :
    ∃ b, isJustifiableAfterChecked candidate finalized = some (.ok b) ∧
      isJustifiableAfter candidate finalized = .ok b ∧
      (b = true ↔ Justifiable (candidate - finalized)) := by
  unfold isJustifiableAfterChecked isJustifiableAfter Justifiable
  rw [if_neg (Nat.not_lt.mpr le), if_neg (Nat.not_lt.mpr le)]
  dsimp only
  generalize candidate - finalized = delta at near
  by_cases hfew : delta ≤ 5
  · rw [if_pos hfew, if_pos hfew]
    exact ⟨true, rfl, rfl, fun _ => .inl hfew, fun _ => rfl⟩
  have hdelta : delta < 2 ^ 64 := by omega
  have hfour : 4 * delta + 1 < 2 ^ 64 := by omega
  obtain ⟨hroot, hchecked⟩ := isqrtU64_spec hdelta
  obtain ⟨hroot2, hchecked2⟩ := isqrtU64_spec hfour
  have hmul : Checked.mul 4 delta = .ok (4 * delta) := Checked.mul_ok (by omega)
  rw [if_neg hfew, if_neg hfew, hchecked, Nat.mod_eq_of_lt (hroot.square_lt hdelta),
    Nat.mod_eq_of_lt hfour, Nat.mod_eq_of_lt (hroot2.square_lt hfour)]
  simp only [bind, Option.bind, Except.bind, Checked.mul_ok (hroot.square_lt hdelta), hmul,
    Checked.add_ok hfour, hchecked2, Checked.mul_ok (hroot2.square_lt hfour), pure, Except.pure]
  by_cases hsquare : isqrtU64 delta * isqrtU64 delta = delta
  · rw [if_pos hsquare, if_pos hsquare]
    exact ⟨true, rfl, rfl, fun _ => .inr (.inl (hroot.square_iff.mp hsquare)), fun _ => rfl⟩
  · rw [if_neg hsquare, if_neg hsquare]
    refine ⟨_, rfl, rfl, ?_⟩
    rw [decide_eq_true_iff, oddSquare_iff hroot2]
    refine ⟨fun h => .inr (.inr h), ?_⟩
    rintro (h | h | h)
    · exact absurd h hfew
    · exact absurd (hroot.square_iff.mpr h) hsquare
    · exact h

/-- **Justifiability arithmetic is exact.** The square root is the greatest whose square is not
above the number, for every number of 64 bits. A slot less than `2 ^ 62` past the finalized one may
be justified exactly when the distance is at most five, a square or a product of two neighbours.
With overflow checks on, both return the same. -/
theorem justifiability_exact :
    (∀ n < 2 ^ 64, isqrtU64Checked n = some (.ok (isqrtU64 n)) ∧
      isqrtU64 n * isqrtU64 n ≤ n ∧ ∀ r, r * r ≤ n → r ≤ isqrtU64 n) ∧
    ∀ candidate finalized, finalized ≤ candidate → candidate - finalized < 2 ^ 62 →
      ∃ b, isJustifiableAfterChecked candidate finalized = some (.ok b) ∧
        isJustifiableAfter candidate finalized = .ok b ∧
        (b = true ↔ candidate - finalized ≤ 5 ∨ (∃ k, candidate - finalized = k * k) ∨
          ∃ k, candidate - finalized = k * (k + 1)) := by
  refine ⟨fun n hn => ?_, fun candidate finalized le near => isJustifiableAfter_spec le near⟩
  obtain ⟨hroot, hchecked⟩ := isqrtU64_spec hn
  exact ⟨hchecked, hroot.below, fun r hr => hroot.greatest hr⟩

/-- The largest number of 64 bits, and slot 112 after slot 100: a distance of three times four. -/
theorem justifiability_exact_twelve :
    isqrtU64Checked (2 ^ 64 - 1) = some (.ok (isqrtU64 (2 ^ 64 - 1))) ∧
      isJustifiableAfterChecked 112 100 = some (.ok true) := by
  refine ⟨(justifiability_exact.1 (2 ^ 64 - 1) (by decide)).1, ?_⟩
  obtain ⟨b, hchecked, -, hiff⟩ := justifiability_exact.2 112 100 (by decide) (by decide)
  rw [hchecked, hiff.mpr (.inr (.inr ⟨3, rfl⟩))]

end Peam
