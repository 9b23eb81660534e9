import Mathlib.Data.Finset.Card
import Mathlib.Order.WellFounded

/-!
# Accountable finality

What a finality rule by two-thirds votes can promise, over any type of checkpoints with a slot and
any set of voters. A `View` is what one chain has seen: the votes, the line of its own checkpoints,
and the ones it justified, each by a quorum whose sources lie at or below a justified slot under the
target.

Two quorums share a third of the voters (`Quorum.inter`). Where one view has left behind a
checkpoint the other justified, these are convicted of a double or a surround vote
(`View.accountable`). The one gap is a slot justified strictly inside a link, where the two
intervals only cross.
-/

namespace Accountability

variable {V C : Type}

/-- Two thirds of the voters. -/
structure Quorum (voters : Finset V) (members : Finset V) : Prop where
  subset : members ⊆ voters
  enough : 2 * voters.card ≤ 3 * members.card

/-- **Two quorums share a third of the voters.** -/
theorem Quorum.inter [DecidableEq V] {voters a b : Finset V} (ha : Quorum voters a)
    (hb : Quorum voters b) : voters.card ≤ 3 * (a ∩ b).card := by
  have hunion : (a ∪ b).card ≤ voters.card :=
    Finset.card_le_card (Finset.union_subset ha.subset hb.subset)
  have hsum := Finset.card_union_add_card_inter a b
  have := ha.enough
  have := hb.enough
  omega

/-- A pair of votes no voter may cast: two targets in one slot, or one link strictly inside the
other. -/
def Slashable (slot : C → Nat) (voted : V → C → C → Prop) (v : V) : Prop :=
  ∃ source target source' target', voted v source target ∧ voted v source' target' ∧
    (slot target = slot target' ∧ target ≠ target' ∨
      slot source < slot source' ∧ slot target' < slot target)

/-- What one chain has seen. -/
structure View (slot : C → Nat) (voters : Finset V) where
  voted : V → C → C → Prop
  line : C → Prop
  justified : C → Prop
  line_unique : ∀ {c d}, line c → line d → slot c = slot d → c = d
  justified_line : ∀ {c}, justified c → line c
  justified_pos : ∀ {c}, justified c → 0 < slot c
  quorum : ∀ {c}, justified c →
    ∃ members, Quorum voters members ∧ ∀ v ∈ members, ∃ source, voted v source c
  source_low : ∀ {v source c}, voted v source c →
    ∃ low, (low = 0 ∨ ∃ d, justified d ∧ slot d = low) ∧ slot source ≤ low ∧ low < slot c

namespace View

variable {slot : C → Nat} {voters : Finset V} (a b : View slot voters)

/-- The lowest justified checkpoint at or past a slot. -/
theorem exists_lowest {b : View slot voters} {e : C} {bound : Nat} (he : b.justified e)
    (hle : bound ≤ slot e) :
    ∃ y, b.justified y ∧ bound ≤ slot y ∧
      ∀ z, b.justified z → bound ≤ slot z → slot y ≤ slot z := by
  obtain ⟨y, ⟨hy, hbound⟩, hmin⟩ := WellFounded.has_min (measure slot).wf
    {y | b.justified y ∧ bound ≤ slot y} ⟨e, he, hle⟩
  exact ⟨y, hy, hbound, fun z hz hzle => Nat.le_of_not_lt (hmin z ⟨hz, hzle⟩)⟩

/-- A link of view `a` from `c` to `d` with its own quorum, such that view `b` has no checkpoint of
its line at `d` without `c` and justifies nothing strictly between them. -/
structure FirmLink (c d : C) : Prop where
  quorum : ∃ members, Quorum voters members ∧ ∀ v ∈ members, a.voted v c d
  follow : b.line d → b.line c
  gap : ∀ g, b.justified g → slot c < slot g → slot d ≤ slot g

/-- **Accountability.** In view `a` the checkpoint `c` is justified; view `b` justifies something at
or past `c`, without `c` on its line. Then a third of the voters is slashable, if `b` justified the
slot of `c` itself or there is a firm link from `c`. -/
theorem accountable [DecidableEq V] {c e : C} (hc : a.justified c) (hoff : ¬ b.line c)
    (he : b.justified e) (hle : slot c ≤ slot e)
    (hlink : (∃ g, b.justified g ∧ slot g = slot c) ∨ ∃ d, a.FirmLink b c d) :
    ∃ guilty, guilty ⊆ voters ∧ voters.card ≤ 3 * guilty.card ∧
      ∀ v ∈ guilty, Slashable slot (fun v s t => a.voted v s t ∨ b.voted v s t) v := by
  obtain ⟨y, hy, hbound, hlow⟩ := exists_lowest he hle
  obtain ⟨other, hother, hvotes⟩ := b.quorum hy
  -- whichever quorum of `a` the case needs, the guilty are those who also voted for `y`
  have convict : ∀ members, Quorum voters members →
      (∀ v ∈ members, v ∈ other →
        Slashable slot (fun v s t => a.voted v s t ∨ b.voted v s t) v) →
      ∃ guilty, guilty ⊆ voters ∧ voters.card ≤ 3 * guilty.card ∧
        ∀ v ∈ guilty, Slashable slot (fun v s t => a.voted v s t ∨ b.voted v s t) v := by
    intro members hmembers hguilty
    refine ⟨members ∩ other, fun v hv => hmembers.subset (Finset.mem_inter.mp hv).1,
      hmembers.inter hother, fun v hv => ?_⟩
    exact hguilty v (Finset.mem_inter.mp hv).1 (Finset.mem_inter.mp hv).2
  rcases Nat.eq_or_lt_of_le hbound with hsame | hpast
  · -- both views justify this slot, with different checkpoints
    obtain ⟨members, hmembers, hfor⟩ := a.quorum hc
    refine convict members hmembers fun v hv hvo => ?_
    obtain ⟨s, hs⟩ := hfor v hv
    obtain ⟨s', hs'⟩ := hvotes v hvo
    refine ⟨s, c, s', y, .inl hs, .inr hs', .inl ⟨hsame, fun heq => hoff ?_⟩⟩
    rw [heq]
    exact b.justified_line hy
  · have hnone : ¬ ∃ g, b.justified g ∧ slot g = slot c := fun ⟨g, hg, hslot⟩ =>
      Nat.not_lt.mpr (hlow g hg hslot.ge) (hslot ▸ hpast)
    obtain ⟨d, ⟨members, hmembers, hfor⟩, hfollow, hgap⟩ := hlink.resolve_left hnone
    refine convict members hmembers fun v hv hvo => ?_
    obtain ⟨s', hs'⟩ := hvotes v hvo
    rcases Nat.eq_or_lt_of_le (hgap y hy hpast) with htarget | hbeyond
    · -- two votes for the slot of `d`
      refine ⟨c, d, s', y, .inl (hfor v hv), .inr hs', .inl ⟨htarget, fun heq => hoff ?_⟩⟩
      exact hfollow (heq ▸ b.justified_line hy)
    · -- the source of a vote for `y` lies below `c`: nothing is justified between `c` and `y`
      obtain ⟨low, hjustified, hsource, hunder⟩ := b.source_low hs'
      have hlowc : low < slot c := by
        rcases hjustified with rfl | ⟨g, hg, rfl⟩
        · exact a.justified_pos hc
        · exact Nat.lt_of_not_le fun hge => Nat.not_lt.mpr (hlow g hg hge) hunder
      exact ⟨s', y, c, d, .inr hs', .inl (hfor v hv), .inr ⟨by omega, hbeyond⟩⟩

end View

end Accountability
