import Mathlib.Data.Set.Card
import Mathlib.Logic.Relation
import Mathlib.Order.Defs.LinearOrder

/-!
# Voted forests

A forest is given by its parent links `up : α → Option α`, votes by `vote : ν → Option α`. The
support of `a` is the number of voters whose vote climbs to `a`.

The two ways a forest with votes changes are covered: a tree is hung below a node (`hang`), and a
voter changes its vote. Each says by how much every support changes, which is what an algorithm
that keeps the supports up to date by increments has to know.

The head of a tree is found from its root by taking the best supported child over and over
(`GhostHead`). Ties go to the smaller child, so there is at most one head (`GhostHead.unique`).
-/

namespace Forests

variable {α ν : Type*}

/-! ## Climbing -/

/-- Going up from `a` reaches `b`, in no or more steps. -/
def Climbs (up : α → Option α) : α → α → Prop := Relation.ReflTransGen fun a b => up a = some b

/-- A rank that falls with every link: the links form no cycle. -/
def Falls (up : α → Option α) (rank : α → Nat) : Prop := ∀ ⦃a b⦄, up a = some b → rank b < rank a

variable {up : α → Option α} {rank : α → Nat} {a b c p : α}

theorem Climbs.refl (up : α → Option α) (a : α) : Climbs up a a := Relation.ReflTransGen.refl

theorem Climbs.trans (hab : Climbs up a b) (hbc : Climbs up b c) : Climbs up a c :=
  Relation.ReflTransGen.trans hab hbc

/-- One link up, and on. -/
theorem Climbs.step (h : up a = some p) (hp : Climbs up p b) : Climbs up a b :=
  Relation.ReflTransGen.head h hp

/-- The first step of a climb. -/
theorem climbs_iff : Climbs up a b ↔ a = b ∨ ∃ p, up a = some p ∧ Climbs up p b := by
  constructor
  · intro h
    rcases Relation.ReflTransGen.cases_head h with rfl | ⟨p, hup, hp⟩
    · exact .inl rfl
    · exact .inr ⟨p, hup, hp⟩
  · rintro (rfl | ⟨p, hup, hp⟩)
    · exact .refl up a
    · exact .step hup hp

/-- A climb stops at once or takes the link. -/
theorem climbs_of_up (h : up a = some p) : Climbs up a b ↔ a = b ∨ Climbs up p b := by
  rw [climbs_iff, h]
  simp

/-- From a top there is nowhere to climb. -/
theorem climbs_of_top (h : up a = none) : Climbs up a b ↔ a = b := by
  rw [climbs_iff, h]
  simp

/-- Two climbs from one place meet: one of the ends climbs to the other. -/
theorem Climbs.total (hab : Climbs up a b) (hac : Climbs up a c) :
    Climbs up b c ∨ Climbs up c b :=
  Relation.ReflTransGen.total_of_right_unique
    (fun _ _ _ h h' => Option.some_inj.mp (h.symm.trans h')) hab hac

/-- A climb goes down in rank. -/
theorem Climbs.rank_le (falls : Falls up rank) (h : Climbs up a b) : rank b ≤ rank a := by
  induction h with
  | refl => exact le_rfl
  | tail _ hlast ih => exact (falls hlast).le.trans ih

/-- Nothing climbs back to what it came from. -/
theorem Falls.not_climbs (falls : Falls up rank) (h : up a = some p) : ¬ Climbs up p a := by
  intro hclimb
  have hle := hclimb.rank_le falls
  have hlt := falls h
  omega

/-- A climb that does not lower the rank stays where it is. -/
theorem Climbs.eq_of_rank_le (falls : Falls up rank) (h : Climbs up a b) (hle : rank a ≤ rank b) :
    a = b := by
  rcases climbs_iff.mp h with heq | ⟨p, hup, hp⟩
  · exact heq
  · have hp := hp.rank_le falls
    have hup := falls hup
    omega

/-- There are no cycles. -/
theorem Climbs.antisymm (falls : Falls up rank) (h : Climbs up a b) (h' : Climbs up b a) : a = b :=
  h.eq_of_rank_le falls (h'.rank_le falls)

/-- A climb only reads the links of the places it passes. -/
theorem Climbs.congr {up' : α → Option α} (h : Climbs up a b)
    (agree : ∀ x, Climbs up a x → ∀ p, up x = some p → up' x = some p) : Climbs up' a b := by
  induction h with
  | refl => exact .refl up' a
  | tail hmid hlast ih => exact Relation.ReflTransGen.tail ih (agree _ hmid _ hlast)

/-! ## Descent in a finite set -/

/-- How many members of a finite set lie on the far side of `a`: this falls with every step to a
member, whichever way the steps go. -/
theorem card_filter_lt {S : Finset α} {r : α → α → Prop} [DecidableRel r]
    (trans : ∀ {x y z}, r x y → r y z → r x z) (irrefl : ∀ x, ¬ r x x) (hb : b ∈ S) (h : r b a) :
    (S.filter (r · b)).card < (S.filter (r · a)).card := by
  apply Finset.card_lt_card
  rw [Finset.ssubset_iff_of_subset]
  · exact ⟨b, Finset.mem_filter.mpr ⟨hb, h⟩, fun hmem => irrefl b (Finset.mem_filter.mp hmem).2⟩
  · intro x hx
    obtain ⟨hxS, hxb⟩ := Finset.mem_filter.mp hx
    exact Finset.mem_filter.mpr ⟨hxS, trans hxb h⟩

/-- Finitely many links without a cycle have a falling rank: the number of places above. -/
theorem exists_rank (links : List (α × α))
    (acyclic : ∀ a, ¬ Relation.TransGen (fun a b => (a, b) ∈ links) a a) :
    ∃ rank : α → Nat, ∀ a b, (a, b) ∈ links → rank b < rank a := by
  classical
  let above (a : α) : Finset α :=
    (links.map Prod.snd).toFinset.filter fun b =>
      Relation.TransGen (fun a b => (a, b) ∈ links) a b
  refine ⟨fun a => (above a).card, ?_⟩
  intro a b hlink
  apply Finset.card_lt_card
  rw [Finset.ssubset_iff_of_subset]
  · refine ⟨b, Finset.mem_filter.mpr ⟨?_, .single hlink⟩, ?_⟩
    · rw [List.mem_toFinset]
      exact List.mem_map_of_mem (f := Prod.snd) hlink
    · intro hmem
      exact acyclic b (Finset.mem_filter.mp hmem).2
  · intro x hx
    obtain ⟨hxS, hbx⟩ := Finset.mem_filter.mp hx
    exact Finset.mem_filter.mpr ⟨hxS, .head hlink hbx⟩

/-- Links with a falling rank have no cycle. -/
theorem acyclic_of_rank {links : List (α × α)} (falls : ∀ link ∈ links, rank link.2 < rank link.1)
    (a : α) : ¬ Relation.TransGen (fun a b => (a, b) ∈ links) a a := by
  have hlt : ∀ {a b}, Relation.TransGen (fun a b => (a, b) ∈ links) a b → rank b < rank a := by
    intro a b h
    induction h with
    | single hlink => exact falls _ hlink
    | tail _ hlink ih => exact (falls _ hlink).trans ih
  exact fun h => lt_irrefl _ (hlt h)

/-! ## Hanging a tree below a node -/

/-- From below a top `c` nothing is reached that `p`, which does not lie below `c`, reaches. -/
theorem hang_disjoint (top : up c = none) (free : ¬ Climbs up p c) (hac : Climbs up a c)
    (hpb : Climbs up p b) : ¬ Climbs up a b := by
  intro hab
  rcases hab.total hac with hbc | hcb
  · exact free (hpb.trans hbc)
  · rw [climbs_of_top top] at hcb
    exact free (hcb ▸ hpb)

section Hang

variable [DecidableEq α]

/-- The forest in which `c` hangs below `p`. -/
def hang (up : α → Option α) (c p : α) : α → Option α := Function.update up c (some p)

/-- Hanging a tree keeps the climbs. -/
theorem climbs_hang_of_climbs (top : up c = none) (h : Climbs up a b) :
    Climbs (hang up c p) a b := by
  refine h.congr fun x _ y hxy => ?_
  have hne : x ≠ c := by
    rintro rfl
    rw [top] at hxy
    cases hxy
  rw [hang, Function.update_of_ne hne]
  exact hxy

/-- What a climb reaches once `c` hangs below `p`: what it reached before, and if it comes through
`c`, whatever `p` reaches. -/
theorem climbs_hang_iff (top : up c = none) :
    Climbs (hang up c p) a b ↔ Climbs up a b ∨ Climbs up a c ∧ Climbs up p b := by
  constructor
  · intro h
    induction h with
    | refl => exact .inl (.refl up a)
    | @tail x y hmid hlast ih =>
      by_cases hx : x = c
      · subst hx
        rw [hang, Function.update_self, Option.some_inj] at hlast
        subst hlast
        have hax : Climbs up a x := ih.elim id fun h => h.1
        exact .inr ⟨hax, .refl up p⟩
      · rw [hang, Function.update_of_ne hx] at hlast
        rcases ih with ih | ⟨hac, hpx⟩
        · exact .inl (Relation.ReflTransGen.tail ih hlast)
        · exact .inr ⟨hac, Relation.ReflTransGen.tail hpx hlast⟩
  · rintro (h | ⟨hac, hpb⟩)
    · exact climbs_hang_of_climbs top h
    · have hcp : hang up c p c = some p := Function.update_self ..
      exact (climbs_hang_of_climbs top hac).trans (.step hcp (climbs_hang_of_climbs top hpb))

end Hang

/-! ## Support -/

/-- The voters whose vote is for `a` or for something below it. -/
def supporters (up : α → Option α) (vote : ν → Option α) (a : α) : Set ν :=
  { v | ∃ x, vote v = some x ∧ Climbs up x a }

/-- The number of supporters. -/
noncomputable def support (up : α → Option α) (vote : ν → Option α) (a : α) : Nat :=
  (supporters up vote a).ncard

variable {vote : ν → Option α} {v : ν}

/-- Whoever votes below a node supports it. -/
theorem mem_supporters : v ∈ supporters up vote a ↔ ∃ x, vote v = some x ∧ Climbs up x a := Iff.rfl

/-- Only finitely many vote. -/
def FiniteVotes (vote : ν → Option α) : Prop := { v | (vote v).isSome }.Finite

private theorem FiniteVotes.supporters (finite : FiniteVotes vote) (up : α → Option α) (a : α) :
    (supporters up vote a).Finite := by
  refine finite.subset ?_
  rintro v ⟨x, hx, _⟩
  show (vote v).isSome
  rw [hx]
  rfl

/-- A place no vote climbs to has no support. -/
theorem support_eq_zero (h : ∀ v x, vote v = some x → ¬ Climbs up x a) :
    support up vote a = 0 := by
  have hempty : supporters up vote a = ∅ := by
    ext v
    rw [mem_supporters, Set.mem_empty_iff_false, iff_false]
    rintro ⟨x, hx, hclimb⟩
    exact h v x hx hclimb
  rw [support, hempty, Set.ncard_empty]

/-- Two places with more support than there are voters lie on one line: some vote climbs to
both. -/
theorem climbs_of_crowded {voters : Finset ν} (electorate : ∀ v x, vote v = some x → v ∈ voters)
    (crowded : voters.card < support up vote a + support up vote b) :
    Climbs up a b ∨ Climbs up b a := by
  have hsub (c : α) : supporters up vote c ⊆ voters := by
    rintro v ⟨x, hx, _⟩
    exact electorate v x hx
  have hfinite (c : α) : (supporters up vote c).Finite := voters.finite_toSet.subset (hsub c)
  by_contra apart
  have hdisjoint : Disjoint (supporters up vote a) (supporters up vote b) := by
    rw [Set.disjoint_left]
    rintro v ⟨x, hx, hxa⟩ ⟨y, hy, hyb⟩
    obtain rfl : x = y := Option.some_inj.mp (hx.symm.trans hy)
    exact apart (hxa.total hyb)
  have hunion := Set.ncard_union_eq hdisjoint (hfinite a) (hfinite b)
  have hle := Set.ncard_le_ncard (Set.union_subset (hsub a) (hsub b)) voters.finite_toSet
  rw [hunion, Set.ncard_coe_finset] at hle
  exact Nat.not_lt.mpr hle crowded

open Classical in
/-- Hanging `c` below `p` brings the support of `c` to everything from `p` upwards. -/
theorem support_hang [DecidableEq α] (finite : FiniteVotes vote) (top : up c = none)
    (free : ¬ Climbs up p c) (b : α) :
    support (hang up c p) vote b =
      support up vote b + if Climbs up p b then support up vote c else 0 := by
  by_cases hpb : Climbs up p b
  · have hunion : supporters (hang up c p) vote b =
        supporters up vote b ∪ supporters up vote c := by
      ext v
      simp only [Set.mem_union, mem_supporters, climbs_hang_iff top, hpb, and_true]
      constructor
      · rintro ⟨x, hx, h | h⟩
        · exact .inl ⟨x, hx, h⟩
        · exact .inr ⟨x, hx, h⟩
      · rintro (⟨x, hx, h⟩ | ⟨x, hx, h⟩)
        · exact ⟨x, hx, .inl h⟩
        · exact ⟨x, hx, .inr h⟩
    have hdisjoint : Disjoint (supporters up vote b) (supporters up vote c) := by
      rw [Set.disjoint_left]
      rintro v ⟨x, hx, hxb⟩ ⟨y, hy, hyc⟩
      obtain rfl : x = y := Option.some_inj.mp (hx.symm.trans hy)
      exact hang_disjoint top free hyc hpb hxb
    rw [if_pos hpb, support, hunion,
      Set.ncard_union_eq hdisjoint (finite.supporters up b) (finite.supporters up c)]
    rfl
  · have hsame : supporters (hang up c p) vote b = supporters up vote b := by
      ext v
      simp only [mem_supporters, climbs_hang_iff top, hpb, and_false, or_false]
    rw [if_neg hpb, support, hsame, Nat.add_zero]
    rfl

section Vote

variable [DecidableEq ν]

private theorem FiniteVotes.update (finite : FiniteVotes vote) (v : ν) (choice : Option α) :
    FiniteVotes (Function.update vote v choice) := by
  refine (finite.insert v).subset ?_
  intro u hu
  by_cases huv : u = v
  · exact .inl huv
  · refine .inr ?_
    have hu' : (Function.update vote v choice u).isSome := hu
    rw [Function.update_of_ne huv] at hu'
    exact hu'

open Classical in
/-- A first vote counts for everything from its place upwards. -/
theorem support_first (finite : FiniteVotes vote) (fresh : vote v = none) (x a : α) :
    support up (Function.update vote v (some x)) a =
      support up vote a + if Climbs up x a then 1 else 0 := by
  have hnot : v ∉ supporters up vote a := by
    rintro ⟨y, hy, _⟩
    rw [fresh] at hy
    cases hy
  have hother : ∀ u, u ≠ v → (u ∈ supporters up (Function.update vote v (some x)) a ↔
      u ∈ supporters up vote a) := by
    intro u hu
    rw [mem_supporters, mem_supporters, Function.update_of_ne hu]
  have hself : v ∈ supporters up (Function.update vote v (some x)) a ↔ Climbs up x a := by
    rw [mem_supporters, Function.update_self]
    simp
  by_cases hclimb : Climbs up x a
  · have hinsert : supporters up (Function.update vote v (some x)) a =
        insert v (supporters up vote a) := by
      ext u
      by_cases hu : u = v
      · subst hu
        simp only [hself, hclimb, Set.mem_insert_iff, true_or]
      · rw [hother u hu, Set.mem_insert_iff, or_iff_right hu]
    rw [if_pos hclimb, support, hinsert, Set.ncard_insert_of_notMem hnot (finite.supporters up a)]
    rfl
  · have hsame : supporters up (Function.update vote v (some x)) a = supporters up vote a := by
      ext u
      by_cases hu : u = v
      · subst hu
        exact iff_of_false (hclimb ∘ hself.mp) hnot
      · exact hother u hu
    rw [if_neg hclimb, support, hsame, Nat.add_zero]
    rfl

open Classical in
/-- A vote that moves from `x` to `y` takes one from everything above `x` and gives one to
everything above `y`. -/
theorem support_move (finite : FiniteVotes vote) {x : α} (held : vote v = some x) (y a : α) :
    (support up (Function.update vote v (some y)) a : Int) =
      support up vote a - (if Climbs up x a then 1 else 0) + if Climbs up y a then 1 else 0 := by
  -- both votes are first votes over the votes without `v`
  have hbare : FiniteVotes (Function.update vote v none) := finite.update v none
  have hfresh : Function.update vote v none v = none := Function.update_self ..
  have hfirst : ∀ z, support up (Function.update vote v (some z)) a =
      support up (Function.update vote v none) a + if Climbs up z a then 1 else 0 := by
    intro z
    have hidem : Function.update (Function.update vote v none) v (some z) =
        Function.update vote v (some z) := Function.update_idem ..
    rw [← hidem]
    exact support_first hbare hfresh z a
  have hx := hfirst x
  rw [← held, Function.update_eq_self] at hx
  rw [hx, hfirst y]
  split <;> split <;> push_cast <;> omega

end Vote

/-! ## Choosing a child -/

/-- The scan that keeps the better of what it has and what it sees. -/
def pick (better : α → α → Bool) (items : List α) : Option α :=
  items.foldl
    (fun best item =>
      match best with
      | some current => if better item current then some item else some current
      | none => some item)
    none

private theorem pick_concat (better : α → α → Bool) (items : List α) (item : α) :
    pick better (items ++ [item]) =
      match pick better items with
      | some current => if better item current then some item else some current
      | none => some item := by
  rw [pick, List.foldl_append]
  rfl

variable {better : α → α → Bool} {items : List α}

/-- The scan only compares the items it sees. -/
theorem pick_congr {better' : α → α → Bool}
    (agree : ∀ x ∈ items, ∀ y ∈ items, better x y = better' x y) :
    pick better items = pick better' items ∧ ∀ x ∈ pick better items, x ∈ items := by
  induction items using List.reverseRecOn with
  | nil => exact ⟨rfl, by simp [pick]⟩
  | append_singleton items item ih =>
    obtain ⟨hsame, hmem⟩ := ih fun x hx y hy => agree x (List.mem_append_left _ hx) y
      (List.mem_append_left _ hy)
    rw [pick_concat, pick_concat, ← hsame]
    cases hpick : pick better items with
    | none => simp
    | some current =>
      have hcurrent : current ∈ items := hmem current hpick
      have hagree := agree item (by simp) current (List.mem_append_left _ hcurrent)
      show (if better item current = true then some item else some current) =
          (if better' item current = true then some item else some current) ∧
        ∀ x ∈ (if better item current = true then some item else some current), _
      rw [← hagree]
      refine ⟨rfl, ?_⟩
      split
      · simp
      · rintro x ⟨⟩
        exact List.mem_append_left _ hcurrent

/-- What is picked is one of the items. -/
theorem mem_of_pick (h : pick better items = some a) :
    a ∈ items :=
  (pick_congr fun _ _ _ _ => rfl).2 a h

/-- Only from an empty list nothing is picked. -/
theorem pick_eq_none_iff : pick better items = none ↔ items = [] := by
  induction items using List.reverseRecOn with
  | nil => simp [pick]
  | append_singleton items item ih =>
    rw [pick_concat]
    cases hpick : pick better items with
    | none => simp
    | some current =>
      show (if better item current = true then some item else some current) = none ↔ _
      split <;> simp

/-- Where the comparison orders the items strictly, the scan returns the best one. -/
theorem pick_best
    (trans : ∀ x ∈ items, ∀ y ∈ items, ∀ z ∈ items, better x y → better y z → better x z)
    (total : ∀ x ∈ items, ∀ y ∈ items, x ≠ y → better x y ∨ better y x)
    (h : pick better items = some a) : ∀ x ∈ items, x ≠ a → better a x := by
  induction items using List.reverseRecOn generalizing a with
  | nil => simp
  | append_singleton items item ih =>
    have hsub : ∀ x ∈ items, x ∈ items ++ [item] := fun x hx => List.mem_append_left _ hx
    have hitem : item ∈ items ++ [item] := by simp
    have ih' := fun {current} => @ih current
      (fun x hx y hy z hz => trans x (hsub x hx) y (hsub y hy) z (hsub z hz))
      (fun x hx y hy => total x (hsub x hx) y (hsub y hy))
    rw [pick_concat] at h
    cases hpick : pick better items with
    | none =>
      rw [hpick] at h
      cases h
      rw [pick_eq_none_iff] at hpick
      subst hpick
      intro x hx hne
      exact absurd (List.mem_singleton.mp hx) hne
    | some current =>
      rw [hpick] at h
      have hcurrent := hsub current (mem_of_pick hpick)
      have hbest := ih' hpick
      change (if better item current = true then some item else some current) = some a at h
      intro x hx hne
      rw [List.mem_append, List.mem_singleton] at hx
      split at h <;> cases h
      · rename_i hbetter
        rcases hx with hx | hx
        · by_cases hxc : x = current
          · subst hxc
            exact hbetter
          · exact trans _ hitem _ hcurrent _ (hsub x hx) hbetter (hbest x hx hxc)
        · exact absurd hx hne
      · rename_i hworse
        rcases hx with hx | hx
        · exact hbest x hx hne
        · subst hx
          exact (total _ hitem _ hcurrent hne).resolve_left hworse

/-! ## The head of a tree -/

section Head

variable [LinearOrder α]

/-- `c` outweighs `d`: more support, or as much and a smaller name. -/
def Outweighs (up : α → Option α) (vote : ν → Option α) (c d : α) : Prop :=
  support up vote d < support up vote c ∨ support up vote d = support up vote c ∧ c < d

/-- `c` is the child of `parent` that outweighs all others. -/
structure BestChild (up : α → Option α) (vote : ν → Option α) (parent c : α) : Prop where
  child : up c = some parent
  best : ∀ d, up d = some parent → d ≠ c → Outweighs up vote c d

/-- The head below a root: the leaf reached by going to the best child as long as there is one. -/
inductive GhostHead (up : α → Option α) (vote : ν → Option α) : α → α → Prop where
  | leaf {root : α} (none : ∀ c, up c ≠ some root) : GhostHead up vote root root
  | down {root c head : α} (best : BestChild up vote root c) (rest : GhostHead up vote c head) :
    GhostHead up vote root head

variable {d root head : α}

private theorem Outweighs.asymm {c : α} (h : Outweighs up vote c d) : ¬ Outweighs up vote d c := by
  rintro (h' | ⟨h', hlt'⟩) <;> rcases h with h | ⟨h, hlt⟩
  · omega
  · omega
  · omega
  · exact lt_asymm hlt hlt'

theorem Outweighs.trans {c e : α} (h : Outweighs up vote c d) (h' : Outweighs up vote d e) :
    Outweighs up vote c e := by
  rcases h with h | ⟨h, hlt⟩ <;> rcases h' with h' | ⟨h', hlt'⟩
  · exact .inl (h'.trans h)
  · exact .inl (h' ▸ h)
  · exact .inl (h ▸ h')
  · exact .inr ⟨h'.trans h, hlt.trans hlt'⟩

/-- Of two nodes one outweighs the other. -/
theorem outweighs_total {c : α} (hne : c ≠ d) : Outweighs up vote c d ∨ Outweighs up vote d c := by
  rcases lt_trichotomy (support up vote c) (support up vote d) with h | h | h
  · exact .inr (.inl h)
  · rcases lt_or_gt_of_ne hne with hlt | hlt
    · exact .inl (.inr ⟨h.symm, hlt⟩)
    · exact .inr (.inr ⟨h, hlt⟩)
  · exact .inl (.inl h)

/-- **There is one best child.** -/
theorem BestChild.unique {parent c : α} (hc : BestChild up vote parent c)
    (hd : BestChild up vote parent d) : c = d := by
  by_contra hne
  exact (hc.best d hd.child (Ne.symm hne)).asymm (hd.best c hc.child hne)

section

variable (h : GhostHead up vote root head)

include h

/-- **There is one head.** -/
theorem GhostHead.unique {head' : α}
    (h' : GhostHead up vote root head') : head = head' := by
  induction h with
  | leaf hnone =>
    cases h' with
    | leaf => rfl
    | down hbest => exact absurd hbest.child (hnone _)
  | down hbest _ ih =>
    cases h' with
    | leaf hnone => exact absurd hbest.child (hnone _)
    | down hbest' hrest' => exact ih (hbest.unique hbest' ▸ hrest')

/-- A head other than the root is some node's child. -/
theorem GhostHead.eq_or_child :
    head = root ∨ ∃ parent, up head = some parent := by
  induction h with
  | leaf => exact .inl rfl
  | down hbest _ ih =>
    rcases ih with rfl | hchild
    · exact .inr ⟨_, hbest.child⟩
    · exact .inr hchild

/-- The head lies below a place that is above the root or on the way from the root to the best
child, its best child and so on, and below no other. -/
theorem GhostHead.climbs_iff :
    Climbs up head a ↔ Climbs up root a ∨ Relation.ReflTransGen (BestChild up vote) root a := by
  induction h with
  | @leaf root none =>
    refine ⟨.inl, fun h => h.elim id fun way => ?_⟩
    rcases Relation.ReflTransGen.cases_head way with rfl | ⟨c, best, -⟩
    · exact .refl up root
    · exact absurd best.child (none c)
  | @down root c head best _ ih =>
    rw [ih, climbs_of_up best.child]
    constructor
    · rintro ((rfl | hroot) | way)
      · exact .inr (.single best)
      · exact .inl hroot
      · exact .inr (.head best way)
    · rintro (hroot | way)
      · exact .inl (.inr hroot)
      · rcases Relation.ReflTransGen.cases_head way with rfl | ⟨d, best', way⟩
        · exact .inl (.inr (.refl up root))
        · exact .inr (best.unique best' ▸ way)

/-- The head lies below the root it is looked up from. -/
theorem GhostHead.climbs : Climbs up head root := by
  induction h with
  | leaf => exact .refl up _
  | down hbest _ ih => exact ih.trans (.step hbest.child (.refl up _))

end

end Head

/-! ## Cutting a forest down to what lies below a node -/

/-- `up'` and `vote'` are the part of `up` and `vote` below `top`: links and votes there are as they
were, `top` has no parent, and all other votes are gone or are for `top`. -/
structure Trims (up : α → Option α) (vote : ν → Option α) (top : α) (up' : α → Option α)
    (vote' : ν → Option α) : Prop where
  link : ∀ {a}, Climbs up a top → a ≠ top → up' a = up a
  cut : up' top = none
  inside : ∀ {a b}, up' a = some b → Climbs up a top
  stays : ∀ {v x}, vote v = some x → Climbs up x top → vote' v = some x
  moved : ∀ {v x}, vote' v = some x → x ≠ top → vote v = some x

namespace Trims

variable {up up' : α → Option α} {vote vote' : ν → Option α} {top a b : α} {rank : α → Nat}
  (trims : Trims up vote top up' vote')
include trims

private theorem up_eq (h : up' a = some b) : up a = some b := by
  have hne : a ≠ top := by
    rintro rfl
    rw [trims.cut] at h
    cases h
  rw [← trims.link (trims.inside h) hne]
  exact h

/-- A trimmed forest has no new climbs. -/
theorem climbs_of_climbs (h : Climbs up' a b) : Climbs up a b := by
  induction h using Relation.ReflTransGen.head_induction_on with
  | refl => exact .refl up b
  | head hlink _ ih => exact .step (trims.up_eq hlink) ih

/-- Nothing is lost below `top`. -/
theorem link_iff (falls : Falls up rank) (hb : Climbs up b top) :
    up' a = some b ↔ up a = some b := by
  refine ⟨trims.up_eq, fun h => ?_⟩
  have hne : a ≠ top := by
    rintro rfl
    exact falls.not_climbs h hb
  rw [trims.link (.step h hb) hne]
  exact h

/-- A trimmed forest has the climbs below its top. -/
theorem climbs_iff (falls : Falls up rank) (hb : Climbs up b top) :
    Climbs up' a b ↔ Climbs up a b := by
  refine ⟨trims.climbs_of_climbs, fun h => ?_⟩
  induction h using Relation.ReflTransGen.head_induction_on with
  | refl => exact .refl up' b
  | head hlink hrest ih =>
    have hup := (trims.link_iff falls (Climbs.trans hrest hb)).mpr hlink
    exact .step hup ih

/-- Strictly below `top` the support stays. -/
theorem support_eq (falls : Falls up rank) (hb : Climbs up b top) (hne : b ≠ top) :
    support up' vote' b = support up vote b := by
  have hsame : supporters up' vote' b = supporters up vote b := by
    ext v
    rw [mem_supporters, mem_supporters]
    constructor
    · rintro ⟨x, hx, hclimb⟩
      have hxtop : x ≠ top := by
        rintro rfl
        exact hne ((climbs_of_top trims.cut).mp hclimb).symm
      exact ⟨x, trims.moved hx hxtop, trims.climbs_of_climbs hclimb⟩
    · rintro ⟨x, hx, hclimb⟩
      exact ⟨x, trims.stays hx (hclimb.trans hb), (trims.climbs_iff falls hb).mpr hclimb⟩
  rw [support, support, hsame]

variable [LinearOrder α]

private theorem outweighs_iff (falls : Falls up rank) {c d : α} (hc : Climbs up c top)
    (hctop : c ≠ top) (hd : Climbs up d top) (hdtop : d ≠ top) :
    Outweighs up' vote' c d ↔ Outweighs up vote c d := by
  rw [Outweighs, Outweighs, trims.support_eq falls hc hctop, trims.support_eq falls hd hdtop]

/-- Trimming keeps the best children below the top. -/
theorem bestChild_iff (falls : Falls up rank) {c : α} (hb : Climbs up b top) :
    BestChild up' vote' b c ↔ BestChild up vote b c := by
  -- every child of `b` lies strictly below `top`
  have hchild : ∀ {d}, up d = some b → Climbs up d top ∧ d ≠ top := by
    intro d hd
    refine ⟨.step hd hb, ?_⟩
    rintro rfl
    exact falls.not_climbs hd hb
  constructor
  · rintro ⟨hc, hbest⟩
    have hc' := trims.up_eq hc
    refine ⟨hc', fun d hd hne => ?_⟩
    have hd' := (trims.link_iff falls hb).mpr hd
    exact (trims.outweighs_iff falls (hchild hc').1 (hchild hc').2 (hchild hd).1
      (hchild hd).2).mp (hbest d hd' hne)
  · rintro ⟨hc, hbest⟩
    refine ⟨(trims.link_iff falls hb).mpr hc, fun d hd hne => ?_⟩
    have hd' := trims.up_eq hd
    exact (trims.outweighs_iff falls (hchild hc).1 (hchild hc).2 (hchild hd').1
      (hchild hd').2).mpr (hbest d hd' hne)

/-- **The head below a kept node stays.** -/
theorem ghostHead (falls : Falls up rank) {root head : α} (hroot : Climbs up root top)
    (h : GhostHead up vote root head) : GhostHead up' vote' root head := by
  induction h with
  | leaf none => exact .leaf fun c hc => none c (trims.up_eq hc)
  | down best _ ih =>
    exact .down ((trims.bestChild_iff falls hroot).mpr best) (ih (.step best.child hroot))

end Trims

end Forests
