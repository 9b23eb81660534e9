/-!
# Outcomes of a fallible call

A call of a Rust function returns, returns an error or panics. `Failure` keeps the last two apart,
so that "returns `Ok` or `Err`" is a statement about the model. A pure call is an `Outcome`; a call
on `&mut self` is a `Mutation`, which keeps the state an early return leaves behind.

A call with a loop inside that need not end is an `Attempt`, which has no outcome then.

The inversion lemmas (`Outcome.bind_ok`, `Mutation.bind_ok`, `Attempt.returns_bind`) take a
successful call apart into its successful parts.
-/

namespace Calls

/-- How a call fails: with an error value, or by a panic. -/
inductive Failure where
  | err (text : String)
  | panicked (text : String)
  deriving DecidableEq, Repr

/-- The outcome of a call without side effects. -/
abbrev Outcome (α : Type) := Except Failure α

/-- The outcome of a call on `&mut self`: an early return keeps what was written before it. -/
abbrev Mutation (σ α : Type) := EStateM Failure σ α

namespace Outcome

variable {α β : Type}

/-- `return Err(text)`. -/
def err (text : String) : Outcome α := .error (.err text)

/-- `if cond { return Err(text) }`. -/
def failIf (cond : Prop) [Decidable cond] (text : String) : Outcome Unit :=
  if cond then err text else .ok ()

/-- The call did not panic. -/
def Total (r : Outcome α) : Prop := ∀ text, r ≠ .error (.panicked text)

/-- A sequence succeeds exactly if its parts do. -/
theorem bind_ok {x : Outcome α} {f : α → Outcome β} {b : β} :
    (x >>= f) = .ok b ↔ ∃ a, x = .ok a ∧ f a = .ok b := by
  cases x with
  | error e => simp [bind, Except.bind]
  | ok a => simp [bind, Except.bind]

/-- A sequence fails in its first or in its second part. -/
theorem bind_error {x : Outcome α} {f : α → Outcome β} {e : Failure} :
    (x >>= f) = .error e ↔ x = .error e ∨ ∃ a, x = .ok a ∧ f a = .error e := by
  cases x with
  | error e => simp [bind, Except.bind]
  | ok a => simp [bind, Except.bind]

variable {cond : Prop} {text : String} {bytes out front part : List α} {lo hi : Nat}

theorem failIf_ok [Decidable cond] : failIf cond text = .ok () ↔ ¬ cond := by
  unfold failIf err
  split <;> simp_all

theorem total_ok (a : α) : Total (.ok a : Outcome α) := by
  intro text h
  cases h

theorem total_err (text : String) : Total (err text : Outcome α) := by
  intro text' h
  cases h

/-- A sequence is panic free exactly when its head is and every continuation it reaches is. -/
theorem total_bind {x : Outcome α} {f : α → Outcome β} :
    Total (x >>= f) ↔ Total x ∧ ∀ a, x = .ok a → Total (f a) := by
  constructor
  · intro h
    refine ⟨fun text hx => h text (bind_error.mpr (.inl hx)), fun a ha text hf => ?_⟩
    exact h text (bind_error.mpr (.inr ⟨a, ha, hf⟩))
  · rintro ⟨hx, hf⟩ text h
    rcases bind_error.mp h with h | ⟨a, ha, h⟩
    · exact hx text h
    · exact hf a ha text h

/-- Mapping the value adds no panic. -/
theorem total_map {x : Outcome α} {g : α → β} : Total (g <$> x) ↔ Total x := by
  cases x with
  | error e => exact ⟨fun total text h => total text (by cases h; rfl),
      fun total text h => total text (by cases h; rfl)⟩
  | ok a => exact ⟨fun _ => total_ok a, fun _ => total_ok (g a)⟩

/-- `&bytes[lo..hi]`: out of range it panics. -/
def slice (bytes : List α) (lo hi : Nat) : Outcome (List α) :=
  if lo ≤ hi ∧ hi ≤ bytes.length then .ok ((bytes.take hi).drop lo)
  else .error (.panicked "slice index out of range")

/-- `&bytes[lo..]`. -/
def sliceFrom (bytes : List α) (lo : Nat) : Outcome (List α) :=
  slice bytes lo bytes.length

/-- A slice in range. -/
theorem slice_ok (h : lo ≤ hi ∧ hi ≤ bytes.length) :
    slice bytes lo hi = .ok ((bytes.take hi).drop lo) := if_pos h

/-- A slice has the length of its range. -/
theorem length_slice (h : slice bytes lo hi = .ok out) :
    out.length = hi - lo ∧ lo ≤ hi ∧ hi ≤ bytes.length := by
  unfold slice at h
  split at h
  · rename_i hrange
    cases h
    refine ⟨?_, hrange⟩
    simp only [List.length_drop, List.length_take]
    omega
  · cases h

variable {parts : List (List α)} {part : List α}

/-- The range of one part of a string written part by part is that part. -/
theorem slice_part {k lo hi : Nat}
    (hpart : parts[k]? = some part) (hlo : lo = (parts.take k).flatten.length)
    (hhi : hi = lo + part.length) : slice parts.flatten lo hi = .ok part := by
  obtain ⟨hk, hget⟩ := List.getElem?_eq_some_iff.mp hpart
  have hsplit : parts.flatten =
      (parts.take k).flatten ++ (part ++ (parts.drop (k + 1)).flatten) := by
    conv => lhs; rw [← List.take_append_drop k parts, List.drop_eq_getElem_cons hk, hget]
    rw [List.flatten_append, List.flatten_cons]
  have range : lo ≤ hi ∧ hi ≤ parts.flatten.length := by
    rw [hsplit]
    simp only [List.length_append]
    omega
  rw [slice_ok range, hsplit, hhi, hlo, List.take_length_add_append, List.take_left,
    List.drop_left]

/-- A reader of one part, called on the part's range. -/
theorem slice_part_bind {k lo hi : Nat}
    {read : List α → Outcome β} {b : β} (hpart : parts[k]? = some part)
    (hlo : lo = (parts.take k).flatten.length) (hhi : hi = lo + part.length)
    (reads : read part = .ok b) : (slice parts.flatten lo hi >>= read) = .ok b :=
  bind_ok.mpr ⟨part, slice_part hpart hlo hhi, reads⟩

/-- The same, and what is done with the value. -/
theorem part_bind {γ : Type} {k lo hi : Nat}
    {read : List α → Outcome β} {b : β} {f : β → Outcome γ} {c : γ} (hpart : parts[k]? = some part)
    (hlo : lo = (parts.take k).flatten.length) (hhi : hi = lo + part.length)
    (reads : read part = .ok b) (next : f b = .ok c) :
    (slice parts.flatten lo hi >>= read) >>= f = .ok c :=
  bind_ok.mpr ⟨b, slice_part_bind hpart hlo hhi reads, next⟩

/-- A check that passes. -/
theorem check_bind [Decidable cond] {f : Unit → Outcome β} {b : β} (pass : ¬ cond)
    (next : f () = .ok b) : (failIf cond text >>= f) = .ok b :=
  bind_ok.mpr ⟨(), failIf_ok.mpr pass, next⟩

/-- The start of the last part, up to `hi`. -/
theorem slice_last (hlo : lo = front.length) (hle : lo ≤ hi)
    (hhi : hi ≤ front.length + part.length) :
    slice (front ++ part) lo hi = .ok (part.take (hi - lo)) := by
  rw [slice_ok ⟨hle, by rw [List.length_append]; exact hhi⟩, List.drop_take, hlo, List.drop_left]

/-- The last part of what was written. -/
theorem sliceFrom_last (hlo : lo = front.length) : sliceFrom (front ++ part) lo = .ok part := by
  have hlen : (front ++ part).length = front.length + part.length := List.length_append
  rw [sliceFrom, slice_last hlo (by omega) (Nat.le_of_eq hlen), List.take_of_length_le (by omega)]

/-- What `&bytes[lo..]` hands on of a prefix that reaches into the last part. -/
theorem sliceFrom_take_last {n : Nat} (hlo : lo = front.length)
    (h : sliceFrom ((front ++ part).take n) lo = .ok out) : lo ≤ n ∧ out = part.take (n - lo) := by
  obtain ⟨-, hle, -⟩ := length_slice h
  rw [sliceFrom, slice_ok ⟨hle, Nat.le_refl _⟩, List.take_length, List.drop_take, hlo,
    List.drop_left] at h
  rw [List.length_take] at hle
  cases h
  exact ⟨by omega, by rw [hlo]⟩

/-- What lies in a prefix lies in the whole. -/
theorem slice_of_take {n : Nat} (h : slice (bytes.take n) lo hi = .ok out) :
    slice bytes lo hi = .ok out := by
  obtain ⟨-, hlo, hhi⟩ := length_slice h
  rw [slice_ok ⟨hlo, hhi⟩] at h
  rw [List.length_take] at hhi
  rw [slice_ok ⟨hlo, by omega⟩, ← h, List.take_take, Nat.min_eq_left (by omega)]

/-- `buf.copy_from_slice(bytes)` into a buffer of `len` entries: other lengths panic. -/
def copyFromSlice (len : Nat) (bytes : List α) : Outcome (List α) :=
  if bytes.length = len then .ok bytes
  else .error (.panicked "source slice length does not match destination slice length")

/-- `xs[i] = f(xs[i])`: out of range it panics. -/
def update (xs : List α) (i : Nat) (f : α → α) : Outcome (List α) :=
  if i < xs.length then .ok (xs.modify i f) else .error (.panicked "index out of bounds")

/-! ## Accesses that only need room

A read of a fixed part of a buffer returns when the buffer is long enough and panics otherwise. It
has no errors of its own, so one condition on lengths says all there is to know about it. -/

/-- The call returns when `room` holds and panics when it does not. -/
structure Needs (x : Outcome α) (room : Prop) : Prop where
  returns : room → ∃ a, x = .ok a
  panics : ¬ room → ∃ text, x = .error (.panicked text)

namespace Needs

variable {x : Outcome α} {room : Prop}

section

variable (needs : Needs x room)

include needs

theorem total : Total x ↔ room := by
  constructor
  · intro total
    refine Classical.byContradiction fun none => ?_
    obtain ⟨text, h⟩ := needs.panics none
    exact total text h
  · intro h
    obtain ⟨a, rfl⟩ := needs.returns h
    exact total_ok a

/-- A call that returned had its room. -/
theorem room_of_ok {a : α} (h : x = .ok a) : room := by
  refine Classical.byContradiction fun none => ?_
  obtain ⟨text, panicked⟩ := needs.panics none
  cases h.symm.trans panicked

/-- With the room there, only what follows decides. -/
theorem total_bind {f : α → Outcome β} {p : Prop} (h : room)
    (next : ∀ a, x = .ok a → (Total (f a) ↔ p)) : Total (x >>= f) ↔ p := by
  obtain ⟨a, rfl⟩ := needs.returns h
  exact next a rfl

/-- The room and what follows decide together. -/
theorem total_bind_iff {f : α → Outcome β} {p : Prop}
    (next : ∀ a, x = .ok a → (Total (f a) ↔ p)) : Total (x >>= f) ↔ room ∧ p := by
  by_cases h : room
  · obtain ⟨a, rfl⟩ := needs.returns h
    rw [and_iff_right h]
    exact next a rfl
  · obtain ⟨text, rfl⟩ := needs.panics h
    exact iff_of_false (fun total => total text rfl) fun both => h both.1

/-- Without the room the whole sequence panics. -/
theorem not_total_bind {f : α → Outcome β} (h : ¬ room) :
    ¬ Total (x >>= f) := by
  obtain ⟨text, rfl⟩ := needs.panics h
  exact fun total => total text rfl

theorem congr {room' : Prop} (h : room ↔ room') : Needs x room' :=
  ⟨fun h' => needs.returns (h.mpr h'), fun h' => needs.panics fun hr => h' (h.mp hr)⟩

theorem bind {f : α → Outcome β} {room' : Prop}
    (next : ∀ a, x = .ok a → Needs (f a) room') : Needs (x >>= f) (room ∧ room') := by
  by_cases h : room
  · obtain ⟨a, rfl⟩ := needs.returns h
    exact (next a rfl).congr ⟨fun h' => ⟨h, h'⟩, And.right⟩
  · obtain ⟨text, rfl⟩ := needs.panics h
    exact ⟨fun h' => absurd h'.1 h, fun _ => ⟨text, rfl⟩⟩

/-- A continuation that returns whatever it is given needs no room of its own. -/
theorem bind_returns {f : α → Outcome β}
    (next : ∀ a, x = .ok a → ∃ b, f a = .ok b) : Needs (x >>= f) room := by
  refine ⟨fun h => ?_, fun h => ?_⟩
  · obtain ⟨a, rfl⟩ := needs.returns h
    exact next a rfl
  · obtain ⟨text, rfl⟩ := needs.panics h
    exact ⟨text, rfl⟩

theorem map {g : α → β} : Needs (x >>= fun a => .ok (g a)) room :=
  needs.bind_returns fun a _ => ⟨g a, rfl⟩

end

end Needs

/-- What the indexing calls need. -/
theorem needs_slice (bytes : List α) (lo hi : Nat) :
    Needs (slice bytes lo hi) (lo ≤ hi ∧ hi ≤ bytes.length) :=
  ⟨fun h => ⟨_, slice_ok h⟩, fun h => ⟨_, if_neg h⟩⟩

theorem needs_copyFromSlice (len : Nat) (bytes : List α) :
    Needs (copyFromSlice len bytes) (bytes.length = len) :=
  ⟨fun h => ⟨_, if_pos h⟩, fun h => ⟨_, if_neg h⟩⟩

theorem needs_update (xs : List α) (i : Nat) (f : α → α) : Needs (update xs i f) (i < xs.length) :=
  ⟨fun h => ⟨_, if_pos h⟩, fun h => ⟨_, if_neg h⟩⟩

variable {f : List α → Outcome β}

/-- A reader that returns on every piece of the range's length needs the range to lie in the
buffer. -/
theorem needs_slice_bind (h : lo ≤ hi)
    (reads : ∀ piece : List α, piece.length = hi - lo → ∃ b, f piece = .ok b) :
    Needs (slice bytes lo hi >>= f) (hi ≤ bytes.length) := by
  refine ((needs_slice bytes lo hi).bind_returns fun piece hp => ?_).congr ⟨And.right, ?_⟩
  · exact reads piece (length_slice hp).1
  · exact fun hr => ⟨h, hr⟩

/-- Handing the rest of a buffer on. -/
theorem total_sliceFrom_bind :
    Total (sliceFrom bytes lo >>= f) ↔ lo ≤ bytes.length ∧ Total (f (bytes.drop lo)) := by
  by_cases h : lo ≤ bytes.length
  · have hs : sliceFrom bytes lo = .ok (bytes.drop lo) := by
      rw [sliceFrom, slice_ok ⟨h, Nat.le_refl _⟩, List.take_length]
    rw [hs]
    exact ⟨fun total => ⟨h, total⟩, And.right⟩
  · have needs := needs_slice bytes lo bytes.length
    exact ⟨fun total => absurd total (needs.not_total_bind fun hr => h hr.1),
      fun hr => absurd hr.1 h⟩

/-- A slice in range, and a rest that does not panic on it. -/
theorem total_slice_bind :
    Total (slice bytes lo hi >>= f) ↔
      (lo ≤ hi ∧ hi ≤ bytes.length) ∧ Total (f ((bytes.take hi).drop lo)) := by
  by_cases h : lo ≤ hi ∧ hi ≤ bytes.length
  · rw [slice_ok h]
    exact ⟨fun total => ⟨h, total⟩, And.right⟩
  · exact ⟨fun total => absurd total ((needs_slice bytes lo hi).not_total_bind h),
      fun hr => absurd hr.1 h⟩

/-- What follows a check may rely on it. -/
theorem total_failIf_bind [Decidable cond] {f : Unit → Outcome β} :
    Total (failIf cond text >>= f) ↔ (¬ cond → Total (f ())) := by
  by_cases h : cond
  · rw [failIf, if_pos h]
    exact ⟨fun _ hn => absurd h hn, fun _ => total_err text⟩
  · rw [failIf, if_neg h]
    exact ⟨fun total _ => total, fun total => total h⟩

/-- Wrapping the result changes nothing. -/
theorem total_bind_ok {x : Outcome α} {g : α → β} :
    Total (x >>= fun a => .ok (g a)) ↔ Total x := by
  rw [total_bind]
  exact ⟨And.left, fun total => ⟨total, fun a _ => total_ok (g a)⟩⟩

end Outcome

namespace Mutation

variable {σ α β : Type}

/-- A pure call inside a mutation: its failure leaves the state as it is. -/
def lift (x : Outcome α) : Mutation σ α := fun s =>
  match x with
  | .ok a => .ok a s
  | .error e => .error e s

variable {s s' : σ}

theorem lift_ok {x : Outcome α} {a : α} : lift x s = .ok a s' ↔ x = .ok a ∧ s' = s := by
  cases x with
  | error e => simp [lift]
  | ok b => simp [lift, eq_comm]

/-- `if cond { return Err(text) }`. -/
def failIf (cond : Prop) [Decidable cond] (text : String) : Mutation σ Unit :=
  lift (Outcome.failIf cond text)

theorem failIf_ok {cond : Prop} [Decidable cond] {text : String} :
    failIf cond text s = .ok () s' ↔ ¬ cond ∧ s' = s := by
  rw [failIf, lift_ok, Outcome.failIf_ok]

/-- **Inversion of a sequence**: a successful sequence is two successful calls. -/
theorem bind_ok {x : Mutation σ α} {f : α → Mutation σ β} {b : β} :
    (x >>= f) s = .ok b s' ↔ ∃ a t, x s = .ok a t ∧ f a t = .ok b s' := by
  simp only [bind, EStateM.bind]
  cases x s with
  | error e t => simp
  | ok a t => simp [and_assoc]

/-- A sequence fails in its head or in what follows. -/
theorem bind_error {x : Mutation σ α} {f : α → Mutation σ β} {e : Failure} :
    (x >>= f) s = .error e s' ↔
      x s = .error e s' ∨ ∃ a t, x s = .ok a t ∧ f a t = .error e s' := by
  simp only [bind, EStateM.bind]
  cases x s with
  | error e t => simp
  | ok a t => simp [and_assoc]

/-- The state a successful mutation leaves. -/
def after (x : Mutation σ Unit) (s : σ) : Option σ :=
  match x s with
  | .ok () s' => some s'
  | .error _ _ => none

/-- The state a successful call leaves. -/
theorem after_eq_some {x : Mutation σ Unit} : x.after s = some s' ↔ x s = .ok () s' := by
  unfold after
  split <;> simp_all

/-! ## What a call does not look at -/

/-- The call succeeds as before on a state changed where it does not look, and leaves there what it
found. -/
def Blind (f : σ → σ) (x : Mutation σ α) : Prop :=
  ∀ ⦃s a s'⦄, x s = .ok a s' → x (f s) = .ok a (f s')

namespace Blind

variable {f : σ → σ}

theorem lift (f : σ → σ) (x : Outcome α) : Blind f (lift x) := by
  intro s a s' h
  obtain ⟨hx, rfl⟩ := lift_ok.mp h
  exact lift_ok.mpr ⟨hx, rfl⟩

theorem failIf (f : σ → σ) (cond : Prop) [Decidable cond] (text : String) :
    Blind f (failIf cond text) := Blind.lift f _

theorem modify {g : σ → σ} (h : ∀ s, g (f s) = f (g s)) : Blind f (modify g) := by
  intro s a s' hs
  cases hs
  show EStateM.Result.ok PUnit.unit (g (f s)) = _
  rw [h]

theorem bind {x : Mutation σ α} {k : α → Mutation σ β} (hx : Blind f x)
    (hk : ∀ a, Blind f (k a)) : Blind f (x >>= k) := by
  intro s b s' h
  obtain ⟨a, t, hxs, hks⟩ := bind_ok.mp h
  exact bind_ok.mpr ⟨a, f t, hx hxs, hk a hks⟩

/-- A call that goes on with what it reads, and reads nothing of what changes. -/
theorem get_bind {k : σ → Mutation σ α} (same : ∀ s, k (f s) = k s) (hk : ∀ s, Blind f (k s)) :
    Blind f (get >>= k) := by
  intro s a s' h
  show k (f s) (f s) = _
  rw [same]
  exact hk s h

theorem forM {items : List β} {body : β → Mutation σ PUnit} (h : ∀ item, Blind f (body item)) :
    Blind f (ForM.forM items body) := by
  induction items with
  | nil =>
    intro s a s' hs
    cases hs
    rfl
  | cons item items ih =>
    rw [List.forM_cons]
    exact bind (h item) fun _ => ih

end Blind

/-! ## Two calls side by side -/

/-- From related states the second call succeeds whenever the first does, with the same result, and
leaves a related state. -/
def Follows {τ : Type} (R : σ → τ → Prop) (x : Mutation σ α) (y : Mutation τ α) : Prop :=
  ∀ ⦃s t a s'⦄, R s t → x s = .ok a s' → ∃ t', y t = .ok a t' ∧ R s' t'

/-- Two loops in step. -/
theorem Follows.forM {τ : Type} {R : σ → τ → Prop} {items : List β}
    {body : β → Mutation σ PUnit} {body' : β → Mutation τ PUnit}
    (h : ∀ item, Follows R (body item) (body' item)) :
    Follows R (ForM.forM items body) (ForM.forM items body') := by
  induction items with
  | nil =>
    intro s t a s' related hs
    cases hs
    exact ⟨t, rfl, related⟩
  | cons item items ih =>
    intro s t a s' related hs
    rw [List.forM_cons, bind_ok] at hs
    obtain ⟨b, mid, hitem, hrest⟩ := hs
    obtain ⟨mid', hitem', related'⟩ := h item related hitem
    obtain ⟨t', hrest', related''⟩ := ih related' hrest
    refine ⟨t', ?_, related''⟩
    rw [List.forM_cons, bind_ok]
    exact ⟨b, mid', hitem', hrest'⟩

end Mutation

/-! ## Calls that need not end -/

/-- The outcome of a call, if it has one. -/
abbrev Attempt (α : Type) := ExceptT Failure Option α

namespace Attempt

variable {α β : Type}

/-- A loop inside an attempt. -/
def ofLoop (x : Option α) : Attempt α := ExceptT.mk (x.map .ok)

/-- The call ends, and with this result. -/
def Returns (x : Attempt α) (a : α) : Prop := x.run = some (.ok a)

variable {a : α}

theorem returns_pure {b : α} : Returns (pure a) b ↔ b = a := by
  simp [Returns, pure, ExceptT.pure, ExceptT.run, ExceptT.mk, eq_comm]

/-- A loop that ended. -/
theorem returns_ofLoop {x : Option α} : Returns (ofLoop x) a ↔ x = some a := by
  cases x with
  | none => simp [Returns, ofLoop, ExceptT.run, ExceptT.mk]
  | some b => simp [Returns, ofLoop, ExceptT.run, ExceptT.mk]

/-- A failure returns nothing. -/
theorem not_returns_throw {e : Failure} : ¬ Returns (throw e) a := by
  simp [Returns, throw, throwThe, MonadExceptOf.throw, ExceptT.run, ExceptT.mk]

variable {x : Attempt α}

/-- A call that returns is a call of parts that return. -/
theorem returns_bind {f : α → Attempt β} {b : β} :
    Returns (x >>= f) b ↔ ∃ a, Returns x a ∧ Returns (f a) b := by
  unfold Returns
  simp only [bind, ExceptT.bind, ExceptT.run, ExceptT.mk]
  cases x with
  | none => simp
  | some r =>
    cases r with
    | error e => simp [ExceptT.bindCont]
    | ok a => simp [ExceptT.bindCont]

/-- The result of a call that ends with one. -/
def value? (x : Attempt α) : Option α := x.run.bind Except.toOption

/-- The value of a call that returns. -/
theorem value?_eq_some : x.value? = some a ↔ Returns x a := by
  unfold Returns
  rw [value?, Option.bind_eq_some_iff]
  constructor
  · rintro ⟨outcome, hrun, hvalue⟩
    cases outcome with
    | error e => cases hvalue
    | ok b =>
      cases hvalue
      exact hrun
  · exact fun h => ⟨.ok a, h, rfl⟩

/-- A call seen to end returns its result. -/
theorem returns_getD (h : x.value?.isSome = true) :
    Returns x (x.value?.getD a) := by
  obtain ⟨b, hb⟩ := Option.isSome_iff_exists.mp h
  rw [hb]
  exact value?_eq_some.mp hb

end Attempt

end Calls
