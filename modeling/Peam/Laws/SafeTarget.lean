import Mathlib.Data.Prod.Lex
import Peam.Laws.ForkChoice

/-!
# Laws of the fork choice store: the safe target

`refresh_safe_target` scans the block map, in whatever order that comes, for the blocks below its
anchor with two thirds of the votes. `is_descendant` on a stored anchor is the climb along stored
parents (`isDescendant_spec`), a block's weight is its support, and the scan keeps the later of two
candidates, the smaller root on a tie. So the result is the greatest candidate in one linear order
(`refreshSafeTarget_safest`), and does not depend on the order of the scan.
-/

namespace Peam

open Loops (foldlM_greatest)
open Forests

variable {rank : Bytes32 → Nat} {store : ForkChoiceStore} {root ancestor node : Bytes32}

/-! ## Walks up the recorded links -/

theorem ForkChoiceStore.storedParent_eq_none
    (h : ∀ parent, store.parents.lookup root = some parent → parent ∉ store.blocks) :
    store.storedParent root = none := by
  rw [Option.eq_none_iff_forall_ne_some]
  intro parent hparent
  obtain ⟨hlink, hstored⟩ := ForkChoiceStore.storedParent_eq_some.mp hparent
  exact h parent hlink hstored

section

variable (skeleton : Skeleton rank store)

include skeleton

/-- A step along a recorded link is a step of the climb to a stored block. -/
theorem Skeleton.climbs_parent {parent : Bytes32} (stored : ancestor ∈ store.blocks)
    (link : store.parents.lookup node = some parent) (hne : node ≠ ancestor) :
    Climbs store.storedParent node ancestor ↔ Climbs store.storedParent parent ancestor := by
  by_cases hparent : parent ∈ store.blocks
  · have hup := ForkChoiceStore.storedParent_eq_some.mpr ⟨link, hparent⟩
    rw [climbs_of_up hup, or_iff_right hne]
  · -- an unknown parent ends both climbs, and it is not the ancestor
    have hnode : store.storedParent node = none := by
      refine ForkChoiceStore.storedParent_eq_none fun other hother => ?_
      rw [link, Option.some_inj] at hother
      exact hother ▸ hparent
    have hend : store.storedParent parent = none := by
      refine ForkChoiceStore.storedParent_eq_none fun other hother _ => hparent ?_
      exact skeleton.stored.mpr (skeleton.parented.mp (mem_of_lookup hother))
    rw [climbs_of_top hnode, climbs_of_top hend]
    exact iff_of_false hne fun h => hparent (h ▸ stored)

/-- A block without a recorded parent, or with the zero root for one, climbs to itself only. -/
theorem Skeleton.climbs_rootless
    (rootless : ∀ parent, store.parents.lookup node = some parent → parent = Bytes32.zero) :
    Climbs store.storedParent node ancestor ↔ node = ancestor := by
  refine climbs_of_top (ForkChoiceStore.storedParent_eq_none fun parent hparent => ?_)
  rw [rootless parent hparent]
  exact fun h => skeleton.ne_zero h rfl

/-- `is_descendant` of a stored block is the climb to it. -/
theorem Skeleton.isDescendant_spec (stored : ancestor ∈ store.blocks) (node : Bytes32) :
    ∃ below, store.isDescendant node ancestor = some below ∧
      (below = true ↔ Climbs store.storedParent node ancestor) := by
  unfold ForkChoiceStore.isDescendant
  by_cases hself : node = ancestor
  · rw [if_pos hself]
    exact ⟨true, rfl, iff_of_true rfl (hself ▸ .refl _ node)⟩
  rw [if_neg hself]
  refine skeleton.parentWalk
    (fun current => current ≠ ancestor ∧
      (Climbs store.storedParent node ancestor ↔ Climbs store.storedParent current ancestor))
    (fun below => below = true ↔ Climbs store.storedParent node ancestor) ?_ ?_ ⟨hself, Iff.rfl⟩
  · rintro current next ⟨hne, hsame⟩ hturn
    obtain ⟨hlink, hnext⟩ := isDescendantTurn_again hturn
    refine ⟨⟨?_, hsame.trans (skeleton.climbs_parent stored hlink hne)⟩, hlink, hnext⟩
    rintro rfl
    rw [isDescendantTurn, hlink] at hturn
    simp only [if_pos] at hturn
    cases hturn
  · rintro current below ⟨hne, hsame⟩ hturn
    rw [hsame]
    unfold isDescendantTurn at hturn
    split at hturn
    · next hlink =>
      cases hturn
      rw [skeleton.climbs_rootless fun parent hparent => by rw [hlink] at hparent; cases hparent]
      exact iff_of_false Bool.false_ne_true hne
    · next parent hlink =>
      split at hturn
      · rename_i hparent
        cases hturn
        rw [skeleton.climbs_parent stored hlink hne, hparent]
        exact iff_of_true rfl (.refl _ ancestor)
      · split at hturn
        · rename_i hzero
          cases hturn
          have hrootless : ∀ other, store.parents.lookup current = some other →
              other = Bytes32.zero := by
            intro other hother
            rw [hlink, Option.some_inj] at hother
            rw [← hother, hzero]
          rw [skeleton.climbs_rootless hrootless]
          exact iff_of_false Bool.false_ne_true hne
        · cases hturn

end

/-! ## Candidates -/

/-- `subtree_weight` is the support of the block. -/
theorem Consistent.subtreeWeight_eq (consistent : Consistent rank store)
    (stored : root ∈ store.blocks) :
    store.subtreeWeight root = support store.storedParent store.activeVote root := by
  obtain ⟨i, hi, hroot⟩ :=
    consistent.skeleton.rootAt_of_mem (consistent.skeleton.stored.mp stored)
  obtain ⟨node, hnode, rfl⟩ := Option.map_eq_some_iff.mp hroot
  rw [ForkChoiceStore.subtreeWeight, hi, Option.bind_some, hnode, Option.elim_some,
    consistent.weight_eq hnode, Int.toNat_natCast]

/-- The block is stored below the anchor and has two thirds of the votes. -/
structure Supported (store : ForkChoiceStore) (anchor : Bytes32) (checkpoint : Checkpoint) :
    Prop where
  slot : store.blockSlot checkpoint.root = some checkpoint.slot
  below : Climbs store.storedParent checkpoint.root anchor
  enough : 2 * store.validatorCount ≤
    3 * support store.storedParent store.activeVote checkpoint.root

/-- The checkpoint the scan starts from. -/
def anchorCheckpoint (store : ForkChoiceStore) (anchor : Bytes32) : Checkpoint :=
  ⟨anchor, (store.blockSlot anchor).getD store.headSlot⟩

/-- The order of the scan: by slot, and by root the other way. -/
def precedence (checkpoint : Checkpoint) : Nat ×ₗ Bytes32ᵒᵈ :=
  toLex (checkpoint.slot, OrderDual.toDual checkpoint.root)

/-- Higher slots first, then smaller roots. -/
theorem precedence_lt {a b : Checkpoint} :
    precedence a < precedence b ↔ b.slot > a.slot ∨ b.slot = a.slot ∧ b.root < a.root := by
  rw [precedence, precedence, Prod.Lex.toLex_lt_toLex]
  exact or_congr Iff.rfl (and_congr_left' eq_comm)

private theorem precedence_injective : Function.Injective precedence := by
  intro a b h
  have hpair := toLex.injective h
  exact Checkpoint.ext (OrderDual.toDual.injective (congrArg Prod.snd hpair))
    (congrArg Prod.fst hpair)

open Classical in
/-- What the scan is offered at an entry of the block map. -/
noncomputable def offered (store : ForkChoiceStore) (anchor : Bytes32)
    (entry : Sigma fun _ : Bytes32 => SignedBlockWithAttestation) : Option Checkpoint :=
  if Supported store anchor ⟨entry.1, entry.2.message.block.slot⟩ then
    some ⟨entry.1, entry.2.message.block.slot⟩
  else none

private theorem Consistent.safeTargetStep_eq (consistent : Consistent rank store) {anchor : Bytes32}
    (stored : anchor ∈ store.blocks)
    {entry : Sigma fun _ : Bytes32 => SignedBlockWithAttestation}
    (hentry : entry ∈ store.blocks.entries) (best : Checkpoint) :
    store.safeTargetStep anchor best entry.1 entry.2.message.block.slot =
      some ((offered store anchor entry).elim best fun c =>
        if precedence best < precedence c then c else best) := by
  have hlook : store.blocks.lookup entry.1 = some entry.2 := AList.mem_lookup_iff.mpr hentry
  have hslot : store.blockSlot entry.1 = some entry.2.message.block.slot := by
    rw [ForkChoiceStore.blockSlot, hlook]
    rfl
  obtain ⟨below, hrun, hbelow⟩ := consistent.skeleton.isDescendant_spec stored entry.1
  have hweight := consistent.subtreeWeight_eq (mem_of_lookup hlook)
  rw [ForkChoiceStore.safeTargetStep, hrun, hweight]
  unfold offered
  by_cases hsupported : Supported store anchor ⟨entry.1, entry.2.message.block.slot⟩
  · have henough := hsupported.enough
    rw [if_pos hsupported, Option.elim_some]
    simp only [hbelow.mpr hsupported.below, Option.bind_eq_bind, Option.bind_some,
      not_true_eq_false, if_false, if_neg (Nat.not_lt.mpr henough), precedence_lt]
    split <;> rfl
  · rw [if_neg hsupported, Option.elim_none]
    cases below with
    | false => rfl
    | true =>
      have hfew : 3 * support store.storedParent store.activeVote entry.1 <
          2 * store.validatorCount := by
        by_contra henough
        exact hsupported ⟨hslot, hbelow.mp rfl, Nat.not_lt.mp henough⟩
      simp only [Option.bind_eq_bind, Option.bind_some, not_true_eq_false, if_false, if_pos hfew]
      rfl

/-- What the safe target is chosen from: the anchor and the supported blocks below it. -/
def Candidate (store : ForkChoiceStore) (checkpoint : Checkpoint) : Prop :=
  checkpoint = anchorCheckpoint store store.safeAnchor ∨
    Supported store store.safeAnchor checkpoint

/-- The candidate before all others. -/
structure IsSafest (store : ForkChoiceStore) (best : Checkpoint) : Prop where
  candidate : Candidate store best
  greatest : ∀ c, Candidate store c → precedence c ≤ precedence best

/-- Stores with the same candidates have one safest one. -/
theorem IsSafest.unique {store' : ForkChoiceStore} {best best' : Checkpoint}
    (h : IsSafest store best) (h' : IsSafest store' best')
    (same : ∀ c, Candidate store' c ↔ Candidate store c) : best' = best := by
  apply precedence_injective
  apply le_antisymm
  · exact h.greatest _ ((same best').mp h'.candidate)
  · exact h'.greatest _ ((same best).mpr h.candidate)

/-- **`refresh_safe_target` finds the greatest candidate.** -/
theorem Consistent.refreshSafeTarget_safest (consistent : Consistent rank store)
    (stored : store.safeAnchor ∈ store.blocks) (validators : store.validatorCount ≠ 0) :
    ∃ best, store.refreshSafeTarget = some { store with safeTarget := best.root } ∧
      IsSafest store best := by
  obtain ⟨best, hrun, hfrom, hstart, hall⟩ := foldlM_greatest store.blocks.entries
    (fun entry hentry best => consistent.safeTargetStep_eq stored hentry best)
    (anchorCheckpoint store store.safeAnchor)
  refine ⟨best, ?_, ?_, ?_⟩
  · rw [ForkChoiceStore.refreshSafeTarget, if_neg validators]
    unfold anchorCheckpoint at hrun
    simp only [hrun]
    rfl
  · refine hfrom.imp_right fun ⟨entry, _, hoffer⟩ => ?_
    unfold offered at hoffer
    split at hoffer
    · cases hoffer
      assumption
    · cases hoffer
  · rintro c (rfl | hc)
    · exact hstart
    · obtain ⟨signed, hsigned, hslot⟩ := Option.map_eq_some_iff.mp hc.slot
      refine hall ⟨c.root, signed⟩ (AList.mem_lookup_iff.mp hsigned) c ?_
      rw [Option.mem_def, offered, hslot, if_pos hc]

end Peam
