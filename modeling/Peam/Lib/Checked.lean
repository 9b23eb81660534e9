import Mathlib.Algebra.Group.Nat.Defs
import Peam.Lib.Outcome

/-!
# Checked machine arithmetic

The 64-bit operators of a build with overflow checks: a result that does not fit panics. A call
that returns has therefore computed with the numbers themselves.
-/

namespace Checked

open Calls (Outcome)

/-- `a + b` on `u64`. -/
def add (a b : Nat) : Outcome Nat :=
  if a + b < 2 ^ 64 then .ok (a + b) else .error (.panicked "attempt to add with overflow")

/-- `a - b` on `u64`. -/
def sub (a b : Nat) : Outcome Nat :=
  if b ≤ a then .ok (a - b) else .error (.panicked "attempt to subtract with overflow")

/-- `a * b` on `u64`. -/
def mul (a b : Nat) : Outcome Nat :=
  if a * b < 2 ^ 64 then .ok (a * b) else .error (.panicked "attempt to multiply with overflow")

/-- A sum that fits is the sum. -/
theorem add_ok {a b : Nat} (fits : a + b < 2 ^ 64) : add a b = .ok (a + b) := if_pos fits

/-- A difference that fits is the difference. -/
theorem sub_ok {a b : Nat} (le : b ≤ a) : sub a b = .ok (a - b) := if_pos le

/-- A product that fits is the product. -/
theorem mul_ok {a b : Nat} (fits : a * b < 2 ^ 64) : mul a b = .ok (a * b) := if_pos fits

end Checked
