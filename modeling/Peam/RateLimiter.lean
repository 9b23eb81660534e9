import Mathlib.Data.List.AList

/-!
# The rate limiter

One count and one window start for each key. Instants are numbers of nanoseconds. The count is a
`u64` in the source and a natural number here: it is no larger than the number of calls.
-/

namespace Peam

structure RateLimiter where
  window : Nat
  maxEvents : Nat
  counts : AList fun _ : String => Nat × Nat

namespace RateLimiter

def new (window maxEvents : Nat) : RateLimiter := ⟨window, maxEvents, ∅⟩

/-- The entry of a key after a call of `allow`, from the one before. -/
def count (window : Nat) (entry : Option (Nat × Nat)) (now : Nat) : Nat × Nat :=
  let (count, start) := entry.getD (0, now)
  let (count, start) := if now - start > window then (0, now) else (count, start)
  (count + 1, start)

/-- `allow`, called at `now`. -/
def allow (limiter : RateLimiter) (key : String) (now : Nat) : Bool × RateLimiter :=
  let entry := count limiter.window (limiter.counts.lookup key) now
  (entry.1 ≤ limiter.maxEvents, { limiter with counts := limiter.counts.insert key entry })

/-- The limiter after a schedule of calls. -/
def allowAll (limiter : RateLimiter) (calls : List (String × Nat)) : RateLimiter :=
  calls.foldl (fun limiter call => (limiter.allow call.1 call.2).2) limiter

/-- How many calls for `key` at an instant from `lo` to `hi` return `true`. -/
def allowed (key : String) (lo hi : Nat) : RateLimiter → List (String × Nat) → Nat
  | _, [] => 0
  | limiter, (caller, now) :: calls =>
    let (answer, limiter) := limiter.allow caller now
    (if caller = key ∧ answer = true ∧ lo ≤ now ∧ now ≤ hi then 1 else 0) +
      allowed key lo hi limiter calls

end RateLimiter

end Peam
