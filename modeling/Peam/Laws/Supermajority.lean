import Peam.Laws.Ghost
import Peam.Laws.SafeTarget

/-!
# The safe target is well defined

Two blocks with two thirds of the votes have a voter in common, whose one vote climbs to both: the
blocks below the anchor with enough weight lie on one chain. Slots rise along it, so that one of
them is the highest, and the scan of `refresh_safe_target` finds it in whatever order the block map
is walked. Its rule for equal slots never decides.
-/

namespace Peam

open Forests
open ForkChoiceStore (safeAnchor storedParent_eq_some storedParent blockSlot refreshSafeTarget)

variable {rank : Bytes32 → Nat} {store : ForkChoiceStore} {a b root target : Bytes32}

/-- A stored block below the anchor with two thirds of the weight. -/
structure Weighty (store : ForkChoiceStore) (root : Bytes32) : Prop where
  stored : root ∈ store.blocks
  below : Climbs store.storedParent root store.safeAnchor
  enough : 2 * store.validatorCount ≤ 3 * store.subtreeWeight root

/-- What the safe target is chosen from. -/
def SafeCandidate (store : ForkChoiceStore) (root : Bytes32) : Prop :=
  root = store.safeAnchor ∨ Weighty store root

/-- The one candidate that is higher than all others. -/
structure HighestCandidate (store : ForkChoiceStore) (target : Bytes32) : Prop where
  candidate : SafeCandidate store target
  highest : ∀ other, SafeCandidate store other → other ≠ target →
    ∃ slot ∈ store.blockSlot other, ∃ top ∈ store.blockSlot target, slot < top

/-- Votes come from the registry. -/
def Electorate (store : ForkChoiceStore) : Prop :=
  ∀ v root, store.latestVotes.lookup v = some root → v < store.validatorCount

/-- A block is later than its stored parent. -/
def RisingSlots (store : ForkChoiceStore) : Prop :=
  ∀ root parent, store.storedParent root = some parent →
    ∀ slot ∈ store.blockSlot root, ∀ before ∈ store.blockSlot parent, before < slot

private theorem safeAnchor_stored (headed : store.head ∈ store.blocks) :
    store.safeAnchor ∈ store.blocks := by
  unfold safeAnchor
  split
  · assumption
  · split
    · assumption
    · exact headed

/-! ## One chain -/

/-- **The blocks with two thirds of the weight lie on one chain.** -/
theorem Weighty.chain (consistent : Consistent rank store) (validators : 1 ≤ store.validatorCount)
    (electorate : Electorate store) (ha : Weighty store a) (hb : Weighty store b) :
    Climbs store.storedParent a b ∨ Climbs store.storedParent b a := by
  have hwa := ha.enough
  have hwb := hb.enough
  rw [consistent.subtreeWeight_eq ha.stored] at hwa
  rw [consistent.subtreeWeight_eq hb.stored] at hwb
  have hvoters : ∀ v root, store.activeVote v = some root →
      v ∈ Finset.range store.validatorCount :=
    fun v root hvote => Finset.mem_range.mpr (electorate v root hvote)
  refine climbs_of_crowded hvoters ?_
  rw [Finset.card_range]
  omega

private theorem SafeCandidate.chain (consistent : Consistent rank store)
    (validators : 1 ≤ store.validatorCount) (electorate : Electorate store)
    (ha : SafeCandidate store a) (hb : SafeCandidate store b) :
    Climbs store.storedParent a b ∨ Climbs store.storedParent b a := by
  rcases ha with rfl | ha
  · rcases hb with rfl | hb
    · exact .inl (.refl _ _)
    · exact .inr hb.below
  · rcases hb with rfl | hb
    · exact .inl ha.below
    · exact ha.chain consistent validators electorate hb

/-! ## Slots along a chain -/

private theorem RisingSlots.climbs (rising : RisingSlots store) {slot before : Nat}
    (h : Climbs store.storedParent a b) (hslot : store.blockSlot a = some slot)
    (hbefore : store.blockSlot b = some before) (hne : a ≠ b) : before < slot := by
  induction h using Relation.ReflTransGen.head_induction_on generalizing slot with
  | refl => exact absurd rfl hne
  | @head a p hup _ ih =>
    obtain ⟨between, hbetween⟩ :=
      exists_blockSlot (storedParent_eq_some.mp hup).2
    have hstep := rising a p hup slot hslot between hbetween
    by_cases hp : p = b
    · subst hp
      rw [Option.some_inj.mp (hbefore.symm.trans hbetween)]
      exact hstep
    · exact (ih hbetween hp).trans hstep

/-! ## The scan -/

/-- The candidates of the scan, with their slots. -/
theorem Consistent.candidate_iff (consistent : Consistent rank store)
    (headed : store.head ∈ store.blocks) {c : Checkpoint} :
    Candidate store c ↔ SafeCandidate store c.root ∧ store.blockSlot c.root = some c.slot := by
  obtain ⟨slot, hslot⟩ := exists_blockSlot (safeAnchor_stored headed)
  have hanchor : anchorCheckpoint store store.safeAnchor = ⟨store.safeAnchor, slot⟩ := by
    rw [anchorCheckpoint, hslot, Option.getD_some]
  unfold Candidate SafeCandidate
  rw [hanchor]
  constructor
  · rintro (rfl | h)
    · exact ⟨.inl rfl, hslot⟩
    · have stored : c.root ∈ store.blocks := by
        by_contra hout
        have hnone := blockSlot_eq_none.mpr hout
        rw [h.slot] at hnone
        cases hnone
      refine ⟨.inr ⟨stored, h.below, ?_⟩, h.slot⟩
      rw [consistent.subtreeWeight_eq stored]
      exact h.enough
  · rintro ⟨hroot | h, hc⟩
    · rw [hroot, hslot, Option.some_inj] at hc
      exact .inl (Checkpoint.ext hroot hc.symm)
    · refine .inr ⟨hc, h.below, ?_⟩
      rw [← consistent.subtreeWeight_eq h.stored]
      exact h.enough

private theorem SafeCandidate.stored (headed : store.head ∈ store.blocks)
    (h : SafeCandidate store root) : root ∈ store.blocks :=
  h.elim (fun heq => heq ▸ safeAnchor_stored headed) Weighty.stored

/-- The first candidate in the order of the scan is higher than all others. -/
theorem IsSafest.highest (consistent : Consistent rank store) (headed : store.head ∈ store.blocks)
    (validators : 1 ≤ store.validatorCount) (electorate : Electorate store)
    (rising : RisingSlots store) {best : Checkpoint} (safest : IsSafest store best) :
    HighestCandidate store best.root := by
  obtain ⟨hbest, htop⟩ := (consistent.candidate_iff headed).mp safest.candidate
  refine ⟨hbest, fun other hother hne => ?_⟩
  obtain ⟨slot, hslot⟩ := exists_blockSlot (hother.stored headed)
  refine ⟨slot, hslot, best.slot, htop, ?_⟩
  have hle := safest.greatest ⟨other, slot⟩
    ((consistent.candidate_iff headed).mpr ⟨hother, hslot⟩)
  rcases hother.chain consistent validators electorate hbest with habove | hbelow
  · -- a later candidate would come first in the scan
    have hlater := rising.climbs habove hslot htop hne
    exact absurd (precedence_lt.mpr (.inl hlater)) (not_lt.mpr hle)
  · exact rising.climbs hbelow htop hslot hne.symm

private theorem HighestCandidate.unique {other : Bytes32} (h : HighestCandidate store target)
    (h' : HighestCandidate store other) : other = target := by
  by_contra hne
  obtain ⟨slot, hslot, top, htop, hlt⟩ := h.highest other h'.candidate hne
  obtain ⟨slot', hslot', top', htop', hlt'⟩ := h'.highest target h.candidate (Ne.symm hne)
  rw [Option.mem_def] at hslot htop hslot' htop'
  obtain rfl := Option.some_inj.mp (hslot.symm.trans htop')
  obtain rfl := Option.some_inj.mp (htop.symm.trans hslot')
  omega

/-! ## The order of the block map -/

section Order

variable {blocks : RapidHashMap SignedBlockWithAttestation}
  (perm : blocks.entries.Perm store.blocks.entries)

include perm

private theorem lookup_of_perm (root : Bytes32) : blocks.lookup root = store.blocks.lookup root :=
  AList.perm_lookup perm

private theorem mem_of_perm : root ∈ blocks ↔ root ∈ store.blocks := by
  rw [← AList.lookup_isSome, ← AList.lookup_isSome, lookup_of_perm perm]

private theorem Consistent.of_perm (consistent : Consistent rank store) :
    Consistent rank { store with blocks } where
  skeleton :=
    { index := consistent.skeleton.index
      stored := (mem_of_perm perm).trans consistent.skeleton.stored
      stated := consistent.skeleton.stated
      parented := consistent.skeleton.parented
      nonzero := consistent.skeleton.nonzero
      linked := consistent.skeleton.linked
      family := consistent.skeleton.family
      falls := consistent.skeleton.falls }
  votes := consistent.votes
  newVotes := consistent.newVotes
  arena := consistent.arena

private theorem safeAnchor_of_perm :
    safeAnchor { store with blocks } = store.safeAnchor := by
  simp only [safeAnchor, mem_of_perm perm]

private theorem storedParent_of_perm :
    storedParent { store with blocks } = store.storedParent := by
  funext root
  simp only [storedParent, mem_of_perm perm]

private theorem blockSlot_of_perm (root : Bytes32) :
    blockSlot { store with blocks } root = store.blockSlot root := by
  rw [blockSlot, blockSlot, lookup_of_perm perm]

/-- **The candidates do not depend on the order of the map.** -/
theorem candidate_of_perm (c : Checkpoint) :
    Candidate { store with blocks } c ↔ Candidate store c := by
  have hsupported : Supported { store with blocks } store.safeAnchor c ↔
      Supported store store.safeAnchor c := by
    constructor
    · rintro ⟨slot, below, enough⟩
      rw [blockSlot_of_perm perm] at slot
      rw [storedParent_of_perm perm] at below enough
      exact ⟨slot, below, enough⟩
    · rintro ⟨slot, below, enough⟩
      refine ⟨?_, ?_, ?_⟩
      · rw [blockSlot_of_perm perm]
        exact slot
      · rw [storedParent_of_perm perm]
        exact below
      · rw [storedParent_of_perm perm]
        exact enough
  unfold Candidate anchorCheckpoint
  rw [safeAnchor_of_perm perm, blockSlot_of_perm perm, hsupported]

end Order

/-- **The safe target is well defined.** The blocks below the anchor with two thirds of the weight
lie on one chain, there is exactly one highest candidate, and `refresh_safe_target` selects it
whatever the order in which the map hands out its blocks. -/
theorem safeTarget_wellDefined (consistent : Consistent rank store)
    (headed : store.head ∈ store.blocks) (validators : 1 ≤ store.validatorCount)
    (electorate : Electorate store) (rising : RisingSlots store) :
    (∀ a b, Weighty store a → Weighty store b →
      Climbs store.storedParent a b ∨ Climbs store.storedParent b a) ∧
    ∃ target, HighestCandidate store target ∧
      (∀ other, HighestCandidate store other → other = target) ∧
      ∀ blocks : RapidHashMap SignedBlockWithAttestation,
        blocks.entries.Perm store.blocks.entries →
          refreshSafeTarget { store with blocks } =
            some { store with blocks, safeTarget := target } := by
  refine ⟨fun a b ha hb => ha.chain consistent validators electorate hb, ?_⟩
  have some_validator : store.validatorCount ≠ 0 := by omega
  obtain ⟨best, -, hsafest⟩ :=
    consistent.refreshSafeTarget_safest (safeAnchor_stored headed) some_validator
  have hhighest := hsafest.highest consistent headed validators electorate rising
  refine ⟨best.root, hhighest, fun other => hhighest.unique, fun blocks perm => ?_⟩
  obtain ⟨best', hrun, hsafest'⟩ := (consistent.of_perm perm).refreshSafeTarget_safest
    (safeAnchor_stored ((mem_of_perm perm).mpr headed)) some_validator
  rw [hrun, hsafest.unique hsafest' (candidate_of_perm perm)]

private theorem safeTarget_of_orders {chosen : Bytes32}
    (hrun : ∀ blocks : RapidHashMap SignedBlockWithAttestation,
      blocks.entries.Perm store.blocks.entries →
      refreshSafeTarget { store with blocks } =
      some { store with blocks, safeTarget := target })
    (hchosen : store.refreshSafeTarget.map (·.safeTarget) = some chosen) : chosen = target := by
  have hown : store.refreshSafeTarget = some { store with safeTarget := target } :=
    hrun store.blocks (List.Perm.refl _)
  rw [hown] at hchosen
  exact (Option.some_inj.mp hchosen).symm

/-- Two of three validators voted for the second block, whose parent came after it. -/
theorem safeTarget_wellDefined_lateParent :
    HighestCandidate lateParentRun.2 ((plannedRoots twoBlocks anchorGenesis).getD 1 0#256) := by
  obtain ⟨rank, hfalls⟩ := lateParent_sound.1.exists_rank
  have consistent := (lateParent_run.tracked (new_anchoredStore (by decide +kernel))
    lateParent_sound.1 lateParent_sound.2 hfalls).consistent
  have hvoters : ∀ entry ∈ lateParentRun.2.latestVotes.entries,
      entry.1 < lateParentRun.2.validatorCount := by
    decide +kernel
  have hslots : ∀ entry ∈ lateParentRun.2.parents.entries,
      ∀ slot ∈ lateParentRun.2.blockSlot entry.1, ∀ before ∈ lateParentRun.2.blockSlot entry.2,
        before < slot := by
    decide +kernel
  obtain ⟨-, target, hhighest, -, hrun⟩ := safeTarget_wellDefined consistent (by decide +kernel)
    (by decide +kernel) (fun v root hvote => hvoters ⟨v, root⟩ (AList.mem_lookup_iff.mp hvote))
    fun root parent hup => hslots ⟨root, parent⟩
      (AList.mem_lookup_iff.mp (storedParent_eq_some.mp hup).1)
  have hchosen : lateParentRun.2.refreshSafeTarget.map (·.safeTarget) =
      some ((plannedRoots twoBlocks anchorGenesis).getD 1 0#256) := by
    decide +kernel
  rw [safeTarget_of_orders hrun hchosen]
  exact hhighest

end Peam
