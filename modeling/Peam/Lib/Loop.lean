import Mathlib.Order.Lattice

/-!
# Loops

A `while` loop whose end is not visible from its text, run under a bound on its turns. The body
says for a state whether the loop goes round again or returns; `iterate` is `none` when the bound
is used up, so that a loop that does not end has no result.

The rules below are total: they conclude that the loop returns. `iterate_of_variant` asks for an
invariant and a number that falls with every turn, `foldlM_of_step` for an invariant that may speak
of the elements already visited. Where a call keeps an invariant only if it is made in the right
state, `Along` says so of the calls of a run.
-/

namespace Loops

/-- One turn of a loop: go round again, or return. -/
inductive Turn (σ β : Type) where
  | again (state : σ)
  | done (result : β)

variable {σ α β : Type}

/-- Run the loop for at most `fuel` turns. -/
def iterate (body : σ → Turn σ β) : Nat → σ → Option β
  | 0, _ => none
  | fuel + 1, state =>
    match body state with
    | .again next => iterate body fuel next
    | .done result => some result

/-- The total rule: with an invariant and a falling variant below the bound, the loop returns, and
returns what a last turn under the invariant returns. -/
theorem iterate_of_variant {body : σ → Turn σ β} (Inv : σ → Prop) (Post : β → Prop)
    (variant : σ → Nat)
    (again : ∀ state next, Inv state → body state = .again next →
      Inv next ∧ variant next < variant state)
    (done : ∀ state result, Inv state → body state = .done result → Post result) :
    ∀ {fuel : Nat} {state : σ}, Inv state → variant state < fuel →
      ∃ result, iterate body fuel state = some result ∧ Post result := by
  intro fuel
  induction fuel with
  | zero =>
    intro state _ hlt
    exact absurd hlt (Nat.not_lt_zero _)
  | succ fuel ih =>
    intro state hinv hlt
    cases hturn : body state with
    | again next =>
      obtain ⟨hnext, hfall⟩ := again state next hinv hturn
      obtain ⟨result, hrun, hpost⟩ := ih hnext (by omega)
      refine ⟨result, ?_, hpost⟩
      rw [iterate, hturn]
      exact hrun
    | done result =>
      refine ⟨result, ?_, done state result hinv hturn⟩
      rw [iterate, hturn]

/-- The partial rule: what every turn keeps holds of the result, if there is one. -/
theorem iterate_keeps {body : σ → Turn σ β} (Inv : σ → Prop) (Post : β → Prop)
    (again : ∀ state next, Inv state → body state = .again next → Inv next)
    (done : ∀ state result, Inv state → body state = .done result → Post result) :
    ∀ {fuel : Nat} {state : σ} {result : β}, Inv state →
      iterate body fuel state = some result → Post result := by
  intro fuel
  induction fuel with
  | zero =>
    intro state result _ h
    cases h
  | succ fuel ih =>
    intro state result hinv h
    rw [iterate] at h
    split at h
    · rename_i next hturn
      exact ih (again state next hinv hturn) h
    · rename_i last hturn
      cases h
      exact done state result hinv hturn

variable {body : σ → α → Option σ} {state : σ}

/-- The rule for a bounded loop over a list whose body may have no result: the invariant may name
the elements visited so far. -/
theorem foldlM_of_step (Inv : List α → σ → Prop) (items : List α)
    (step : ∀ seen item rest state, items = seen ++ item :: rest → Inv seen state →
      ∃ next, body state item = some next ∧ Inv (seen ++ [item]) next) (start : Inv [] state) :
    ∃ final, items.foldlM body state = some final ∧ Inv items final := by
  suffices h : ∀ rest seen state, items = seen ++ rest → Inv seen state →
      ∃ final, rest.foldlM body state = some final ∧ Inv items final from
    h items [] state rfl start
  intro rest
  induction rest with
  | nil =>
    intro seen state hsplit hinv
    rw [List.append_nil] at hsplit
    exact ⟨state, rfl, hsplit ▸ hinv⟩
  | cons item rest ih =>
    intro seen state hsplit hinv
    obtain ⟨next, hbody, hnext⟩ := step seen item rest state hsplit hinv
    have hsplit' : items = (seen ++ [item]) ++ rest := by
      rw [hsplit, List.append_assoc, List.singleton_append]
    obtain ⟨final, hrun, hfinal⟩ := ih (seen ++ [item]) next hsplit' hnext
    refine ⟨final, ?_, hfinal⟩
    rw [List.foldlM_cons, hbody]
    exact hrun

/-- The partial rule for a bounded loop over a list: the invariant may name the elements visited so
far. -/
theorem foldlM_keeps_seen (Inv : List α → σ → Prop) (items : List α)
    (step : ∀ seen item rest state next, items = seen ++ item :: rest → Inv seen state →
      body state item = some next → Inv (seen ++ [item]) next) {final : σ} (start : Inv [] state)
    (h : items.foldlM body state = some final) : Inv items final := by
  suffices hrest : ∀ rest seen state, items = seen ++ rest → Inv seen state →
      rest.foldlM body state = some final → Inv items final from
    hrest items [] state rfl start h
  intro rest
  induction rest with
  | nil =>
    intro seen state hsplit hinv hrun
    rw [List.append_nil] at hsplit
    cases hrun
    exact hsplit ▸ hinv
  | cons item rest ih =>
    intro seen state hsplit hinv hrun
    rw [List.foldlM_cons] at hrun
    obtain ⟨next, hbody, hrun⟩ := Option.bind_eq_some_iff.mp hrun
    refine ih (seen ++ [item]) next ?_ (step seen item rest state next hsplit hinv hbody) hrun
    rw [hsplit, List.append_assoc, List.singleton_append]

/-- The partial rule for an invariant of the state alone. -/
theorem foldlM_keeps (Inv : σ → Prop)
    (step : ∀ state item next, Inv state → body state item = some next → Inv next)
    (items : List α) {final : σ} (start : Inv state) (h : items.foldlM body state = some final) :
    Inv final :=
  foldlM_keeps_seen (fun _ => Inv) items
    (fun _ item _ state next _ hinv hbody => step state item next hinv hbody) start h

/-- A bounded loop whose body always has a result has one. -/
theorem foldlM_returns (items : List α) (step : ∀ state item, ∃ next, body state item = some next)
    (state : σ) : ∃ final, items.foldlM body state = some final := by
  induction items generalizing state with
  | nil => exact ⟨state, rfl⟩
  | cons item items ih =>
    obtain ⟨next, hbody⟩ := step state item
    rw [List.foldlM_cons, hbody]
    exact ih next

/-- A scan that moves to what an item offers when that is higher ends at the highest offer, or where
it started. -/
theorem foldlM_greatest {κ : Type} [LinearOrder κ] {key : σ → κ} {offer : α → Option σ}
    (items : List α) (step : ∀ item ∈ items, ∀ best, body best item =
      some ((offer item).elim best fun c => if key best < key c then c else best)) (start : σ) :
    ∃ final, items.foldlM body start = some final ∧
      (final = start ∨ ∃ item ∈ items, offer item = some final) ∧ key start ≤ key final ∧
      ∀ item ∈ items, ∀ c ∈ offer item, key c ≤ key final := by
  let Inv : List α → σ → Prop := fun seen best =>
    (best = start ∨ ∃ item ∈ seen, offer item = some best) ∧ key start ≤ key best ∧
      ∀ item ∈ seen, ∀ c ∈ offer item, key c ≤ key best
  refine foldlM_of_step Inv items ?_ ⟨.inl rfl, le_rfl, fun _ h => absurd h List.not_mem_nil⟩
  rintro seen item rest best hsplit ⟨hfrom, hstart, hall⟩
  have hitem : item ∈ items := by
    rw [hsplit]
    exact List.mem_append_right _ List.mem_cons_self
  rw [step item hitem]
  refine ⟨_, rfl, ?_⟩
  -- the next best is no lower than the old one and than the offer
  have hcover : ∀ next, key best ≤ key next → (∀ c ∈ offer item, key c ≤ key next) →
      (next = best ∨ offer item = some next) → Inv (seen ++ [item]) next := by
    intro next hle hoffer hnext
    refine ⟨?_, hstart.trans hle, fun old hold c hc => ?_⟩
    · rcases hnext with rfl | hnext
      · refine hfrom.imp_right fun ⟨old, hold, heq⟩ => ?_
        exact ⟨old, List.mem_append_left _ hold, heq⟩
      · exact .inr ⟨item, List.mem_append_right _ List.mem_cons_self, hnext⟩
    · rcases List.mem_append.mp hold with hold | hold
      · exact (hall old hold c hc).trans hle
      · obtain rfl := List.mem_singleton.mp hold
        exact hoffer c hc
  cases hoffer : offer item with
  | none => exact hcover best le_rfl (fun c hc => by rw [hoffer] at hc; cases hc) (.inl rfl)
  | some c =>
    have honly : ∀ c' ∈ offer item, c' = c := fun c' hc' =>
      Option.some_inj.mp (hc'.symm.trans hoffer)
    show Inv _ (if key best < key c then c else best)
    split
    · rename_i hlt
      exact hcover c hlt.le (fun c' hc' => (congrArg key (honly c' hc')).le) (.inr hoffer)
    · rename_i hge
      refine hcover best le_rfl (fun c' hc' => ?_) (.inl rfl)
      rw [honly c' hc']
      exact not_lt.mp hge

/-! ## Runs of calls -/

section Runs

variable {step : σ → α → σ} {ok : σ → α → Prop} {calls : List α}

/-- Every call of a run may be made where it is made. -/
def Along (step : σ → α → σ) (ok : σ → α → Prop) : σ → List α → Prop
  | _, [] => True
  | state, call :: rest => ok state call ∧ Along step ok (step state call) rest

instance Along.decidable [∀ state call, Decidable (ok state call)] :
    (state : σ) → (calls : List α) → Decidable (Along step ok state calls)
  | _, [] => instDecidableTrue
  | state, call :: rest =>
    have := Along.decidable (step state call) rest
    inferInstanceAs (Decidable (_ ∧ _))

/-- The rule of runs: what every call keeps where it may be made, the run keeps. -/
theorem Along.keeps (Inv : σ → Prop)
    (keeps : ∀ state call, Inv state → ok state call → Inv (step state call))
    (along : Along step ok state calls) (start : Inv state) : Inv (calls.foldl step state) := by
  induction calls generalizing state with
  | nil => exact start
  | cons call rest ih => exact ih along.2 (keeps state call start along.1)

/-- A run and what follows it. -/
theorem Along.split {later : List α} (along : Along step ok state (calls ++ later)) :
    Along step ok state calls ∧ Along step ok (calls.foldl step state) later := by
  induction calls generalizing state with
  | nil => exact ⟨trivial, along⟩
  | cons call rest ih =>
    obtain ⟨hrest, hlater⟩ := ih along.2
    exact ⟨⟨along.1, hrest⟩, hlater⟩

end Runs

end Loops
