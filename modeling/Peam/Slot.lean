import Peam.Types
import Peam.Lib.Checked
import Peam.Lib.Loop

/-!
# Slot logic

`src/slot.rs`: which slots may be justified after a finalized slot, and the clock's arithmetic.

The integer square root follows the bit-by-bit loops of `isqrt_u64`; each carries a fuel that its
halving exponent exhausts, so the recursion is structural.
-/

namespace Peam

open Calls (Failure Outcome)

/-! ## Integer square root -/

/-- The first loop, `while bit > x { bit >>= 2 }`. -/
def isqrtShrink : Nat → Nat → Nat → Nat
  | 0, _, bit => bit
  | fuel + 1, x, bit => if bit > x then isqrtShrink fuel x (bit / 4) else bit

/-- The second loop, `while bit != 0`: subtract the trial square and fold the bit in. -/
def isqrtLoop : Nat → Nat → Nat → Nat → Nat
  | 0, _, res, _ => res
  | fuel + 1, x, res, bit =>
    if bit = 0 then res
    else if x ≥ res + bit then isqrtLoop fuel (x - (res + bit)) (res / 2 + bit) (bit / 4)
    else isqrtLoop fuel x (res / 2) (bit / 4)

/-- `isqrt_u64`. `bit` starts at `1 << 62`, a power of four, so 32 halvings by two clear it. -/
def isqrtU64 (n : Nat) : Nat :=
  isqrtLoop 32 n 0 (isqrtShrink 32 n (2 ^ 62))

/-! ## Justifiability -/

/-- `is_justifiable_after`: the distance to the finalized slot is at most five, a square, or a
product of two neighbours. The products wrap at 64 bits, as the release build's do. -/
def isJustifiableAfter (candidate finalized : Nat) : Outcome Bool :=
  if candidate < finalized then
    .error (.err "candidate slot must be >= finalized slot")
  else
    let delta := candidate - finalized
    if delta ≤ 5 then .ok true
    else
      let sqrt := isqrtU64 delta
      if sqrt * sqrt % 2 ^ 64 = delta then .ok true
      else
        let fourDeltaPlusOne := (4 * delta + 1) % 2 ^ 64
        let sqrt2 := isqrtU64 fourDeltaPlusOne
        .ok (decide (sqrt2 * sqrt2 % 2 ^ 64 = fourDeltaPlusOne ∧ sqrt2 % 2 = 1))

/-- The rule fails only below the finalized slot. -/
theorem isJustifiableAfter_error_iff {candidate finalized : Nat} {failure : Failure} :
    isJustifiableAfter candidate finalized = .error failure ↔
      candidate < finalized ∧ failure = .err "candidate slot must be >= finalized slot" := by
  unfold isJustifiableAfter
  split
  · rename_i below
    simp [below, eq_comm]
  · rename_i above
    simp only [above, false_and, iff_false]
    split
    · simp
    · split <;> simp

/-- The finalized slot itself passes the rule. -/
theorem isJustifiableAfter_self (slot : Nat) : isJustifiableAfter slot slot = .ok true := by
  simp [isJustifiableAfter]

example : (isJustifiableAfter 9 0, isJustifiableAfter 8 0, isJustifiableAfter 12 0) =
    (.ok true, .ok false, .ok true) := by decide

/-! ## With overflow checks

The same two functions as a build with overflow checks runs them. The loops of the square root run
under a bound on their turns and are `none` when it is used up. -/

open Loops (Turn iterate)

/-- One turn of the first loop of `isqrt_u64`. -/
def isqrtShrinkTurn (x bit : Nat) : Turn Nat Nat :=
  if bit > x then .again (bit / 4) else .done bit

/-- The body of the second loop of `isqrt_u64`, for a `bit` that is not zero. -/
def isqrtStep (x res bit : Nat) : Outcome (Nat × Nat × Nat) := do
  let tmp ← Checked.add res bit
  if x ≥ tmp then
    let x ← Checked.sub x tmp
    let res ← Checked.add (res / 2) bit
    return (x, res, bit / 4)
  else
    return (x, res / 2, bit / 4)

/-- One turn of the second loop of `isqrt_u64`. -/
def isqrtTurn : Nat × Nat × Nat → Turn (Nat × Nat × Nat) (Outcome Nat)
  | (x, res, bit) =>
    if bit = 0 then .done (.ok res)
    else
      match isqrtStep x res bit with
      | .ok next => .again next
      | .error failure => .done (.error failure)

/-- `isqrt_u64` with overflow checks. -/
def isqrtU64Checked (n : Nat) : Option (Outcome Nat) := do
  let bit ← iterate (isqrtShrinkTurn n) 64 (2 ^ 62)
  iterate isqrtTurn 64 (n, 0, bit)

/-- `is_justifiable_after` with overflow checks. The second root is computed only where the source
reaches it. -/
def isJustifiableAfterChecked (candidate finalized : Nat) : Option (Outcome Bool) :=
  if candidate < finalized then
    some (.error (.err "candidate slot must be >= finalized slot"))
  else
    let delta := candidate - finalized
    if delta ≤ 5 then some (.ok true)
    else do
      let sqrt ← isqrtU64Checked delta
      match sqrt >>= fun sqrt => Checked.mul sqrt sqrt with
      | .error failure => return .error failure
      | .ok square =>
        if square = delta then return .ok true
        match Checked.mul 4 delta >>= (Checked.add · 1) with
        | .error failure => return .error failure
        | .ok fourDeltaPlusOne =>
          let sqrt2 ← isqrtU64Checked fourDeltaPlusOne
          return do
            let sqrt2 ← sqrt2
            let square2 ← Checked.mul sqrt2 sqrt2
            return decide (square2 = fourDeltaPlusOne ∧ sqrt2 % 2 = 1)

/-! ## The clock -/

def slotDurationMillis : Nat := 4000
def slotIntervalMillis : Nat := 800
def attestationIntervalIndex : Nat := 1

/-- `slot_index_from_unix_millis`: slot zero before genesis. -/
def slotIndexFromUnixMillis (genesisTimeSecs unixNowMillis : Nat) : Nat :=
  (unixNowMillis - genesisTimeSecs * 1000) / slotDurationMillis

/-- `interval_index_from_unix_millis`. -/
def intervalIndexFromUnixMillis (genesisTimeSecs unixNowMillis : Nat) : Nat :=
  (unixNowMillis - genesisTimeSecs * 1000) % slotDurationMillis / slotIntervalMillis

end Peam
