import Mathlib.Algebra.Group.Nat.Defs
import Peam.RateLimiter

/-!
# What the rate limiter bounds

A window starts with the first call after the last one is over, wherever that call falls. So the
calls allowed at the end of a window and those at the start of the next one may lie close together,
up to `max_events` in each, and a sliding window is bounded in every schedule only if a window takes
one call at most. With a higher limit it is bounded in a schedule that is silent for a window's
length before it opens the next one (`rateLimiter_bound_iff`).
-/

namespace Peam

namespace RateLimiter

variable {window maxEvents lo hi c s now : Nat} {key : String} {entry : Option (Nat × Nat)}
  {times : List Nat}

/-- The calls for one key, by their instants. -/
def allowedAt (window maxEvents lo hi : Nat) : Option (Nat × Nat) → List Nat → Nat
  | _, [] => 0
  | entry, now :: times =>
    let next := count window entry now
    (if next.1 ≤ maxEvents ∧ lo ≤ now ∧ now ≤ hi then 1 else 0) +
      allowedAt window maxEvents lo hi (some next) times

private theorem allowed_eq (limiter : RateLimiter) (calls : List (String × Nat)) :
    limiter.allowed key lo hi calls = allowedAt limiter.window limiter.maxEvents lo hi
      (limiter.counts.lookup key) ((calls.filter (·.1 = key)).map (·.2)) := by
  induction calls generalizing limiter with
  | nil => rfl
  | cons call calls ih =>
    obtain ⟨caller, now⟩ := call
    simp only [allowed, allow, ih]
    by_cases hkey : caller = key
    · subst hkey
      simp [allowedAt]
    · simp [hkey, Ne.symm hkey]

private theorem count_le : (count window entry now).1 ≤ (entry.getD (0, now)).1 + 1 := by
  unfold count
  dsimp only
  split <;> simp

/-- **No count is larger than the number of calls.** -/
theorem allowAll_count_le (limiter : RateLimiter) (calls : List (String × Nat)) {n : Nat}
    (start : ∀ key, ∀ entry ∈ limiter.counts.lookup key, entry.1 ≤ n) :
    ∀ key, ∀ entry ∈ (limiter.allowAll calls).counts.lookup key, entry.1 ≤ n + calls.length := by
  induction calls generalizing limiter n with
  | nil => exact start
  | cons call calls ih =>
    intro key entry hentry
    have hle := ih (limiter.allow call.1 call.2).2 (n := n + 1) ?_ key entry hentry
    · rw [List.length_cons]
      omega
    · intro key entry hentry
      by_cases hkey : key = call.1
      · subst hkey
        rw [allow, AList.lookup_insert] at hentry
        cases hentry
        refine Nat.le_trans count_le (Nat.succ_le_succ ?_)
        cases hfound : limiter.counts.lookup call.1 with
        | none => exact Nat.zero_le n
        | some found => exact start call.1 found hfound
      · rw [allow, AList.lookup_insert_ne hkey] at hentry
        exact Nat.le_trans (start key entry hentry) (Nat.le_succ n)

private theorem count_stay (here : now ≤ s + window) :
    count window (some (c, s)) now = (c + 1, s) := by
  simp only [count, Option.getD_some, if_neg (show ¬ now - s > window by omega)]

/-- A call after the end of a window starts the next one. -/
theorem allowedAt_reset (late : s + window < now) :
    allowedAt window maxEvents lo hi (some (c, s)) (now :: times) =
      allowedAt window maxEvents lo hi (some (0, now)) (now :: times) := by
  have hcount : count window (some (c, s)) now = count window (some (0, now)) now := by
    simp [count, show now - s > window by omega]
  rw [allowedAt, allowedAt, hcount]

private theorem allowedAt_late (late : ∀ now ∈ times, hi < now) :
    allowedAt window maxEvents lo hi entry times = 0 := by
  induction times generalizing entry with
  | nil => rfl
  | cons now times ih =>
    rw [List.forall_mem_cons] at late
    rw [allowedAt, ih late.2, if_neg (by omega)]

private theorem allowedAt_past (late : hi < now) (later : ∀ next ∈ times, now ≤ next) :
    allowedAt window maxEvents lo hi entry (now :: times) = 0 :=
  allowedAt_late (List.forall_mem_cons.mpr
    ⟨late, fun next hnext => Nat.lt_of_lt_of_le late (later next hnext)⟩)

/-- Calls at one instant are allowed up to the limit. -/
theorem allowedAt_burst {k : Nat} (inside : lo ≤ s ∧ s ≤ hi) (room : c + k ≤ maxEvents) :
    allowedAt window maxEvents lo hi (some (c, s)) (List.replicate k s) = k := by
  induction k generalizing c with
  | zero => rfl
  | succ k ih =>
    rw [List.replicate_succ, allowedAt, count_stay (by omega), ih (by omega),
      if_pos ⟨by dsimp only; omega, inside⟩]
    omega

/-- A window opened at `start`, with a call at `last`, goes on with calls within its length, and the
next one opens only after a silence of that length. -/
def Apart (window : Nat) : Nat → Nat → List Nat → Prop
  | _, _, [] => True
  | start, last, now :: times =>
    if now ≤ start + window then Apart window start now times
    else last + window < now ∧ Apart window now now times

/-- The calls for a key come in windows that are apart. -/
def Spaced (window : Nat) (key : String) (calls : List (String × Nat)) : Prop :=
  ∀ first ∈ ((calls.filter (·.1 = key)).map (·.2)).head?,
    Apart window first first ((calls.filter (·.1 = key)).map (·.2)).tail

section Bound

variable (sorted : times.Pairwise (· ≤ ·))

include sorted

private theorem allowedAt_started (started : lo ≤ s) :
    allowedAt window maxEvents lo (lo + window) (some (c, s)) times ≤ maxEvents - c := by
  induction times generalizing c with
  | nil => exact Nat.zero_le _
  | cons now times ih =>
    obtain ⟨later, sorted⟩ := List.pairwise_cons.mp sorted
    by_cases hlate : lo + window < now
    · rw [allowedAt_past hlate later]
      exact Nat.zero_le _
    · have := @ih (c + 1) sorted
      rw [allowedAt, count_stay (by omega)]
      split <;> omega

/-- With a limit of one, only the first call of a window is allowed. -/
theorem allowedAt_single (single : maxEvents ≤ 1) (pos : 0 < c) :
    allowedAt window maxEvents lo (lo + window) (some (c, s)) times ≤ maxEvents := by
  induction times generalizing c s with
  | nil => exact Nat.zero_le _
  | cons now times ih =>
    obtain ⟨-, hrest⟩ := List.pairwise_cons.mp sorted
    by_cases hreset : s + window < now
    · rw [allowedAt_reset hreset]
      by_cases hin : lo ≤ now
      · exact allowedAt_started sorted hin
      · rw [allowedAt, if_neg (by omega), Nat.zero_add]
        exact ih hrest (Nat.succ_pos _)
    · rw [allowedAt, count_stay (by omega), if_neg (by dsimp only; omega), Nat.zero_add]
      exact ih hrest (Nat.succ_pos c)

/-- In a schedule of windows that are apart, an interval of their length meets one of them. What is
left of it is what its limit leaves, once a call of the window was in the interval. -/
theorem allowedAt_apart {last : Nat} (apart : Apart window s last times)
    (after : ∀ now ∈ times, last ≤ now) :
    allowedAt window maxEvents lo (lo + window) (some (c, s)) times ≤ maxEvents ∧
      (lo ≤ last →
        allowedAt window maxEvents lo (lo + window) (some (c, s)) times ≤ maxEvents - c) := by
  induction times generalizing c s last with
  | nil => exact ⟨Nat.zero_le _, fun _ => Nat.zero_le _⟩
  | cons now times ih =>
    obtain ⟨later, hrest⟩ := List.pairwise_cons.mp sorted
    have hlast := after now List.mem_cons_self
    by_cases hlate : lo + window < now
    · rw [allowedAt_past hlate later]
      exact ⟨Nat.zero_le _, fun _ => Nat.zero_le _⟩
    unfold Apart at apart
    split at apart
    · next here =>
      have hnext := @ih (c + 1) s hrest now apart later
      rw [allowedAt, count_stay here]
      split <;> omega
    · next hreset =>
      -- the window opens in the interval or before it, and no earlier call is in the interval
      refine ⟨?_, fun hin => absurd (show lo + window < now by omega) hlate⟩
      rw [allowedAt_reset (by omega)]
      by_cases hin : lo ≤ now
      · exact allowedAt_started sorted hin
      · rw [allowedAt, if_neg (by omega), Nat.zero_add, count_stay (by omega)]
        exact (@ih _ now hrest now apart.2 later).1

private theorem allowedAt_le (single : maxEvents ≤ 1) :
    allowedAt window maxEvents lo (lo + window) none times ≤ maxEvents := by
  cases times with
  | nil => exact Nat.zero_le _
  | cons now times =>
    by_cases hin : lo ≤ now
    · exact allowedAt_started (c := 0) sorted hin
    · rw [allowedAt, if_neg (by omega), Nat.zero_add]
      exact allowedAt_single (List.pairwise_cons.mp sorted).2 single (Nat.succ_pos _)

/-- A schedule of one key that is spaced is bounded. -/
theorem allowedAt_spaced (spaced : ∀ first ∈ times.head?, Apart window first first times.tail) :
    allowedAt window maxEvents lo (lo + window) none times ≤ maxEvents := by
  cases times with
  | nil => exact Nat.zero_le _
  | cons first times =>
    by_cases hin : lo ≤ first
    · exact allowedAt_started (c := 0) sorted hin
    · have hcount : count window none first = (1, first) := by simp [count]
      obtain ⟨later, hrest⟩ := List.pairwise_cons.mp sorted
      rw [allowedAt, if_neg (by omega), Nat.zero_add, hcount]
      exact (allowedAt_apart hrest (spaced first rfl) later).1

end Bound

end RateLimiter

open RateLimiter

/-- **What the limiter bounds.** In every schedule of calls at most `max_events` of those for a key
are allowed in each interval of the window's length, exactly if that is at most one. Whatever the
limit is, this holds of a schedule in which the key is silent for a window's length before it opens
the next window. A schedule of fewer than 2⁶⁴ calls keeps every count in the range of `u64`. -/
theorem rateLimiter_bound_iff {window maxEvents : Nat} (pos : 0 < window) (key : String) :
    ((∀ calls : List (String × Nat), (calls.map (·.2)).Pairwise (· ≤ ·) →
      ∀ t, (RateLimiter.new window maxEvents).allowed key t (t + window) calls ≤ maxEvents) ↔
      maxEvents ≤ 1) ∧
    (∀ calls : List (String × Nat), (calls.map (·.2)).Pairwise (· ≤ ·) → Spaced window key calls →
      ∀ t, (RateLimiter.new window maxEvents).allowed key t (t + window) calls ≤ maxEvents) ∧
    ∀ calls : List (String × Nat), calls.length < 2 ^ 64 → ∀ caller,
      ∀ entry ∈ ((RateLimiter.new window maxEvents).allowAll calls).counts.lookup caller,
        entry.1 < 2 ^ 64 := by
  simp only [allowed_eq]
  refine ⟨⟨?_, ?_⟩, ?_, ?_⟩
  · intro bound
    by_contra hwide
    obtain ⟨m, rfl⟩ : ∃ m, maxEvents = m + 2 := ⟨maxEvents - 2, by omega⟩
    -- one call opens a window, one comes at its end, and the next window is filled at once
    have hrest := @allowedAt_burst window (m + 2) window (window + window) 0 (window + 1) (m + 2)
      ⟨by omega, by omega⟩ (by omega)
    have hkey : ∀ times : List Nat,
        (((times.map (key, ·)).filter (·.1 = key)).map (·.2)) = times := by
      intro times
      rw [List.filter_eq_self.mpr (by simp), List.map_map]
      exact List.map_id times
    have hle : allowedAt window (m + 2) window (window + window) none
        (0 :: window :: List.replicate (m + 2) (window + 1)) ≤ m + 2 := by
      have := bound ((0 :: window :: List.replicate (m + 2) (window + 1)).map (key, ·))
        (by simp) window
      rwa [hkey] at this
    have hsecond : count window (some (count window none 0)) window = (2, 0) := by simp [count]
    rw [allowedAt, if_neg (by omega), Nat.zero_add, allowedAt, hsecond,
      if_pos (by dsimp only; omega), List.replicate_succ, allowedAt_reset (by omega),
      ← List.replicate_succ, hrest] at hle
    omega
  · intro single calls sorted t
    exact allowedAt_le (sorted.sublist (List.filter_sublist.map _)) single
  · intro calls sorted spaced t
    exact allowedAt_spaced (sorted.sublist (List.filter_sublist.map _)) spaced
  · intro calls short caller entry hentry
    have := allowAll_count_le (RateLimiter.new window maxEvents) calls (n := 0)
      nofun caller entry hentry
    omega

/-- A limit of one, and a limit of two for calls that are silent before the second window. -/
theorem rateLimiter_bound_iff_one :
    0 < 10 ∧
      (∀ t, (RateLimiter.new 10 1).allowed "peer" t (t + 10) [("peer", 0), ("peer", 11)] ≤ 1) ∧
      ∀ t, (RateLimiter.new 10 2).allowed "peer" t (t + 10)
        [("peer", 0), ("peer", 10), ("other", 11), ("peer", 21), ("peer", 21), ("peer", 22)] ≤ 2 :=
  ⟨by decide, (rateLimiter_bound_iff (by decide) "peer").1.mpr (by decide) _ (by decide),
    (rateLimiter_bound_iff (by decide) "peer").2.1 _ (by decide)
      fun _ h => by cases h; simp [Apart]⟩

/-- **Two windows side by side**: of three calls within one, all are allowed. -/
theorem rateLimiter_burst :
    (RateLimiter.new 10 2).allowed "peer" 10 (10 + 10)
      [("peer", 0), ("peer", 10), ("peer", 11), ("peer", 11)] = 3 := by
  decide

end Peam
