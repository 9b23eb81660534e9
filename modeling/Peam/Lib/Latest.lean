import Mathlib.Data.List.Basic
import Mathlib.Order.Lattice

/-!
# Latest messages

Senders say things at times. `IsLatest` says which of a sender's messages counts when several were
heard: one whose time no other exceeds. The order in which they were heard does not enter, and if no
sender says two things at one time, there is one such thing (`IsLatest.unique`).

A register that keeps what it was told last holds the latest message as long as every sender's
messages come in order (`InOrder.isLatest`).
-/

namespace Messages

variable {ν δ τ ρ : Type} [LinearOrder τ] (time : δ → τ) (value : δ → ρ)

/-- What the latest message of a sender tells; nothing, if none was heard. -/
def IsLatest (heard : List (ν × δ)) (sender : ν) : Option ρ → Prop
  | none => ∀ message ∈ heard, message.1 ≠ sender
  | some told => ∃ message ∈ heard, message.1 = sender ∧ value message.2 = told ∧
      ∀ other ∈ heard, other.1 = sender → time other.2 ≤ time message.2

instance [DecidableEq ν] [DecidableEq ρ] (heard : List (ν × δ)) (sender : ν) :
    (told : Option ρ) → Decidable (IsLatest time value heard sender told)
  | none => inferInstanceAs (Decidable (∀ message ∈ heard, message.1 ≠ sender))
  | some told => inferInstanceAs (Decidable (∃ message ∈ heard, message.1 = sender ∧
      value message.2 = told ∧ ∀ other ∈ heard, other.1 = sender → time other.2 ≤ time message.2))

/-- Every sender's messages come in the order of their times. -/
def InOrder (heard : List (ν × δ)) : Prop :=
  heard.Pairwise fun earlier later => earlier.1 = later.1 → time earlier.2 ≤ time later.2

instance [DecidableEq ν] (heard : List (ν × δ)) : Decidable (InOrder time heard) :=
  inferInstanceAs (Decidable (heard.Pairwise _))

/-- No sender says two things at one time. -/
def OneVoice (heard : List (ν × δ)) : Prop :=
  ∀ message ∈ heard, ∀ other ∈ heard, message.1 = other.1 → time message.2 = time other.2 →
    value message.2 = value other.2

variable {time : δ → τ} {value : δ → ρ} {heard more : List (ν × δ)} {sender : ν}

/-- What is the latest depends on the sender's own messages, and not on their order. -/
theorem IsLatest.congr {heard' : List (ν × δ)} {told : Option ρ}
    (h : IsLatest time value heard sender told)
    (same : ∀ message, message.1 = sender → (message ∈ heard ↔ message ∈ heard')) :
    IsLatest time value heard' sender told := by
  cases told with
  | none =>
    intro message hmem hsender
    exact h message ((same message hsender).mpr hmem) hsender
  | some told =>
    obtain ⟨message, hmem, hsender, htold, hlatest⟩ := h
    refine ⟨message, (same message hsender).mp hmem, hsender, htold, ?_⟩
    intro other hother hsender'
    exact hlatest other ((same other hsender').mpr hother) hsender'

/-- **There is one latest message.** -/
theorem IsLatest.unique (voice : OneVoice time value heard) {told told' : Option ρ}
    (h : IsLatest time value heard sender told) (h' : IsLatest time value heard sender told') :
    told = told' := by
  cases told with
  | none =>
    cases told' with
    | none => rfl
    | some told' =>
      obtain ⟨message, hmem, hsender, _⟩ := h'
      exact absurd hsender (h message hmem)
  | some told =>
    obtain ⟨message, hmem, hsender, rfl, hlatest⟩ := h
    cases told' with
    | none => exact absurd hsender (h' message hmem)
    | some told' =>
      obtain ⟨message', hmem', hsender', rfl, hlatest'⟩ := h'
      have htime := le_antisymm (hlatest' message hmem hsender) (hlatest message' hmem' hsender')
      rw [voice message hmem message' hmem' (hsender.trans hsender'.symm) htime]

/-- Who says nothing new is where they were. -/
theorem IsLatest.append_of_silent {told : Option ρ} (h : IsLatest time value heard sender told)
    (silent : ∀ message ∈ more, message.1 ≠ sender) :
    IsLatest time value (heard ++ more) sender told := by
  refine h.congr fun message hsender => ?_
  rw [List.mem_append]
  constructor
  · exact .inl
  · intro hmem
    exact hmem.resolve_right fun hmore => silent message hmore hsender

/-- The last message of a sender is the latest, if they come in order. -/
theorem InOrder.isLatest {message : δ} (order : InOrder time (heard ++ (sender, message) :: more))
    (last : ∀ other ∈ more, other.1 ≠ sender) :
    IsLatest time value (heard ++ (sender, message) :: more) sender (some (value message)) := by
  refine ⟨(sender, message), by simp, rfl, rfl, ?_⟩
  intro other hother hsender
  rcases List.mem_append.mp hother with hearlier | hlater
  · exact (List.pairwise_append.mp order).2.2 other hearlier _ List.mem_cons_self hsender
  · rcases List.mem_cons.mp hlater with rfl | hlater
    · exact le_rfl
    · exact absurd hsender (last other hlater)

end Messages
