import Peam.Laws.ForkTree

/-!
# Laws of the fork choice store: pruning

`prune_finalized_history` keeps the finalized block and what is stored below it. The kept roots are
found by a work stack (`keptRoots_spec`), the tree over them is rebuilt by a second one
(`rebuild_spec`), votes for blocks that are gone are moved or dropped, and the weights are counted
anew. What comes out is a consistent store over exactly the kept blocks (`prune_spec`).

Both stacks are bounded by the child lists: a root is expanded once, and what it pushes is its own
list.
-/

namespace Peam

open Loops (iterate iterate_of_variant foldlM_of_step foldlM_keeps_seen foldlM_returns)
open Forests
open ForkChoiceStore (storedParent_eq_some keepTurn addKeptNode rebuildTurn pruneFinalizedHistory)
open Option (map_eq_some_iff some_inj)
open Function (update update_self update_of_ne)

variable {rank : Bytes32 → Nat} {store : ForkChoiceStore} {finalized : Bytes32}
  {children : List (Sigma fun _ : Bytes32 => List Bytes32)} {votes' : VoteMap} {cursor : Bytes32}

/-! ## The bound of the work stacks -/

/-- The children of the roots that are not yet expanded. -/
def unexpanded (children : List (Sigma fun _ : Bytes32 => List Bytes32)) (seen : Bytes32 → Prop)
    [DecidablePred seen] : Nat :=
  ((children.filter fun entry => ¬ seen entry.1).map (·.2.length)).sum

private theorem unexpanded_cons (entry : Sigma fun _ : Bytes32 => List Bytes32)
    (children : List (Sigma fun _ : Bytes32 => List Bytes32)) (seen : Bytes32 → Prop)
    [DecidablePred seen] :
    unexpanded (entry :: children) seen =
      (if seen entry.1 then 0 else entry.2.length) + unexpanded children seen := by
  unfold unexpanded
  by_cases h : seen entry.1
  · rw [if_pos h, List.filter_cons_of_neg (by simpa using h), Nat.zero_add]
  · rw [if_neg h, List.filter_cons_of_pos (by simpa using h), List.map_cons, List.sum_cons]

variable {seen seen' : Bytes32 → Prop} {kept : List Bytes32} {votes : VoteMap}
  {parents : RapidHashMap Bytes32}

private theorem unexpanded_le [DecidablePred seen] [DecidablePred seen']
    (more : ∀ r, seen r → seen' r) : unexpanded children seen' ≤ unexpanded children seen := by
  induction children with
  | nil => exact le_rfl
  | cons entry children ih =>
    rw [unexpanded_cons, unexpanded_cons]
    by_cases h : seen entry.1
    · rw [if_pos h, if_pos (more _ h)]
      omega
    · rw [if_neg h]
      split <;> omega

variable {root : Bytes32}

private theorem unexpanded_expand [DecidablePred seen] [DecidablePred seen']
    (more : ∀ r, seen r → seen' r) {list : List Bytes32}
    (hmem : (⟨root, list⟩ : Sigma fun _ : Bytes32 => List Bytes32) ∈ children) (fresh : ¬ seen root)
    (now : seen' root) : unexpanded children seen' + list.length ≤ unexpanded children seen := by
  induction children with
  | nil => exact absurd hmem List.not_mem_nil
  | cons entry children ih =>
    rw [unexpanded_cons, unexpanded_cons]
    rcases List.mem_cons.mp hmem with rfl | hrest
    · rw [if_pos now, if_neg fresh]
      have hle : unexpanded children seen' ≤ unexpanded children seen := unexpanded_le more
      show 0 + _ + list.length ≤ list.length + _
      omega
    · have hle := ih hrest
      by_cases h : seen entry.1
      · rw [if_pos h, if_pos (more _ h)]
        omega
      · rw [if_neg h]
        split <;> omega

variable {children : RapidHashMap (List Bytes32)}

private theorem unexpanded_lookup [DecidablePred seen]
    [DecidablePred seen'] (more : ∀ r, seen r → seen' r) (fresh : ¬ seen root)
    (now : seen' root) :
    unexpanded children.entries seen' + ((children.lookup root).getD []).length ≤
      unexpanded children.entries seen := by
  cases hlook : children.lookup root with
  | none => exact unexpanded_le more
  | some list => exact unexpanded_expand more (AList.mem_lookup_iff.mp hlook) fresh now

private theorem unexpanded_lt_stackFuel (store : ForkChoiceStore) (seen : Bytes32 → Prop)
    [DecidablePred seen] : 1 + unexpanded store.children.entries seen < store.stackFuel := by
  have hle : unexpanded store.children.entries seen ≤
      unexpanded store.children.entries fun _ => False :=
    unexpanded_le fun _ h => h.elim
  have hall : unexpanded store.children.entries (fun _ => False) =
      (store.children.entries.map (·.2.length)).sum := by
    unfold unexpanded
    simp
  rw [ForkChoiceStore.stackFuel]
  omega

/-! ## The kept roots -/

/-- A stored block at or below the finalized one. -/
def Below (store : ForkChoiceStore) (finalized root : Bytes32) : Prop :=
  root ∈ store.blocks ∧ Climbs store.storedParent root finalized

section Kept

variable (skeleton : Skeleton rank store)
include skeleton

/-- The children of a stored block are those it is the stored parent of. -/
theorem Skeleton.mem_children {root child : Bytes32} (hroot : root ∈ store.blocks) :
    child ∈ (store.children.lookup root).getD [] ↔ store.storedParent child = some root := by
  rw [skeleton.family (skeleton.ne_zero hroot), storedParent_eq_some]
  exact (and_iff_left hroot).symm

theorem Skeleton.mem_of_storedParent {root parent : Bytes32}
    (h : store.storedParent root = some parent) : root ∈ store.blocks :=
  skeleton.stored.mpr (skeleton.parented.mp
    (mem_of_lookup (storedParent_eq_some.mp h).1))

/-- Stored parents fall in rank. -/
theorem Skeleton.falls_storedParent : Falls store.storedParent rank := by
  intro a b hab
  obtain ⟨hab, hb⟩ := storedParent_eq_some.mp hab
  exact skeleton.falls hab (skeleton.ne_zero hb)

private theorem Below.child {root child : Bytes32} (below : Below store finalized root)
    (hchild : store.storedParent child = some root) : Below store finalized child :=
  ⟨skeleton.mem_of_storedParent hchild, .step hchild below.2⟩

/-- The work stack finds the blocks at or below the finalized one. -/
theorem keptRoots_spec (stored : finalized ∈ store.blocks) :
    ∃ kept, store.keptRoots finalized = some kept ∧
      ∀ root, root ∈ kept ↔ Below store finalized root := by
  -- everything seen is below; what is kept has its children on the stack or kept as well
  let Inv : List Bytes32 × List Bytes32 → Prop := fun state =>
    (∀ r, r ∈ state.1 ∨ r ∈ state.2 → Below store finalized r) ∧
      (finalized ∈ state.1 ∨ finalized ∈ state.2) ∧
      ∀ r ∈ state.2, ∀ c, store.storedParent c = some r → c ∈ state.1 ∨ c ∈ state.2
  let Post : List Bytes32 → Prop := fun kept => ∀ root, root ∈ kept ↔ Below store finalized root
  let variant : List Bytes32 × List Bytes32 → Nat := fun state =>
    state.1.length + unexpanded store.children.entries (· ∈ state.2)
  have hstart : Inv ([finalized], []) := by
    refine ⟨?_, .inl List.mem_cons_self, ?_⟩
    · rintro r (hr | hr)
      · obtain rfl := List.mem_singleton.mp hr
        exact ⟨stored, .refl _ _⟩
      · exact absurd hr List.not_mem_nil
    · exact fun r hr => absurd hr List.not_mem_nil
  refine iterate_of_variant Inv Post variant ?_ ?_ hstart (unexpanded_lt_stackFuel store _)
  · rintro ⟨stack, kept⟩ next ⟨hbelow, hfinal, hclosed⟩ hturn
    cases stack with
    | nil => cases hturn
    | cons root stack =>
      rw [keepTurn] at hturn
      split at hturn
      · rename_i hkept
        cases hturn
        have hseen : ∀ r, r ∈ root :: stack ∨ r ∈ kept ↔ r ∈ stack ∨ r ∈ kept := by
          intro r
          rw [List.mem_cons, or_assoc, or_iff_right_of_imp]
          rintro rfl
          exact .inr hkept
        simp only [hseen] at hbelow hfinal hclosed
        exact ⟨⟨hbelow, hfinal, hclosed⟩, Nat.add_lt_add_right (Nat.lt_succ_self _) _⟩
      · rename_i hnew
        cases hturn
        have hroot : Below store finalized root := hbelow root (.inl List.mem_cons_self)
        have hseen : ∀ r, r ∈ (((store.children.lookup root).getD []).filter
            (· ∈ store.blocks)).reverse ++ stack ∨ r ∈ root :: kept ↔
            store.storedParent r = some root ∨ r ∈ root :: stack ∨ r ∈ kept := by
          intro r
          rw [List.mem_append, List.mem_reverse, List.mem_filter, skeleton.mem_children hroot.1,
            decide_eq_true_iff, and_iff_left_of_imp skeleton.mem_of_storedParent, List.mem_cons,
            List.mem_cons, or_assoc, or_assoc, or_left_comm (a := r ∈ stack)]
        refine ⟨⟨fun r hr => ?_, (hseen _).mpr (.inr hfinal), fun r hr c hc => (hseen c).mpr ?_⟩, ?_⟩
        · exact ((hseen r).mp hr).elim (hroot.child skeleton) (hbelow r)
        · rcases List.mem_cons.mp hr with rfl | hr
          · exact .inl hc
          · exact .inr (hclosed r hr c hc)
        · have hle : unexpanded store.children.entries (· ∈ root :: kept) +
              ((store.children.lookup root).getD []).length ≤
              unexpanded store.children.entries (· ∈ kept) :=
            unexpanded_lookup (fun r h => List.mem_cons_of_mem _ h) hnew List.mem_cons_self
          have hfilter := List.length_filter_le (fun c => decide (c ∈ store.blocks))
            ((store.children.lookup root).getD [])
          show (_ ++ stack).length + unexpanded store.children.entries (· ∈ root :: kept) <
            (root :: stack).length + unexpanded store.children.entries (· ∈ kept)
          rw [List.length_append, List.length_reverse, List.length_cons]
          omega
  · rintro ⟨stack, kept⟩ result ⟨hbelow, hfinal, hclosed⟩ hturn
    cases stack with
    | cons root stack =>
      rw [keepTurn] at hturn
      split at hturn <;> cases hturn
    | nil =>
      cases hturn
      intro r
      refine ⟨fun hr => hbelow r (.inr hr), fun hr => ?_⟩
      have hmem : ∀ {r}, Climbs store.storedParent r finalized → r ∈ kept := by
        intro r hclimb
        induction hclimb using Relation.ReflTransGen.head_induction_on with
        | refl => exact hfinal.resolve_left List.not_mem_nil
        | head hlink _ ih => exact (hclosed _ ih _ hlink).resolve_left List.not_mem_nil
      exact hmem hr.2

end Kept

/-! ## Arenas without votes -/

/-- An arena in which nothing has weight and no best child is chosen yet. -/
structure Bare (nodes : List ProtoNode) : Prop where
  range : ∀ {i p : Nat}, upOf nodes i = some p → p < nodes.length
  children : ∀ {i : Nat} {node : ProtoNode}, nodes[i]? = some node →
    ∀ c, c ∈ node.children ↔ upOf nodes c = some i
  weight : ∀ {i : Nat} {node : ProtoNode}, nodes[i]? = some node → node.weight = 0

private theorem foldl_recomputeBestChild (indices : List Nat) (nodes : List ProtoNode) :
    SameShape nodes (indices.foldl recomputeBestChild nodes) ∧
      (∀ i, standingAt (indices.foldl recomputeBestChild nodes) i = standingAt nodes i) ∧
      ∀ {i node}, (indices.foldl recomputeBestChild nodes)[i]? = some node → i ∈ indices →
        node.bestChild = bestChildOf nodes node.children := by
  induction indices using List.reverseRecOn with
  | nil => exact ⟨.refl _, fun _ => rfl, fun _ h => absurd h List.not_mem_nil⟩
  | append_singleton indices idx ih =>
    obtain ⟨hshape, hstand, hbest⟩ := ih
    rw [List.foldl_append]
    show SameShape nodes (recomputeBestChild (indices.foldl recomputeBestChild nodes) idx) ∧
      (∀ i, standingAt (recomputeBestChild (indices.foldl recomputeBestChild nodes) idx) i =
        standingAt nodes i) ∧ _
    refine ⟨hshape.trans (sameShape_recomputeBestChild _ idx), ?_, ?_⟩
    · intro i
      rw [standingAt_recomputeBestChild, hstand]
    · intro i node h hmem
      have h' : (recomputeBestChild (indices.foldl recomputeBestChild nodes) idx)[i]? =
        some node := h
      rw [getElem?_recomputeBestChild, map_eq_some_iff] at h'
      obtain ⟨old, hold, rfl⟩ := h'
      by_cases hi : idx = i
      · rw [if_pos hi]
        exact bestChildOf_congr fun c _ => hstand c
      · rw [if_neg hi]
        rw [List.mem_append, List.mem_singleton] at hmem
        exact hbest hold (hmem.resolve_right (Ne.symm hi))

/-- Scanning every node of a bare arena puts it in order. -/
theorem Bare.arena {nodes : List ProtoNode} (bare : Bare nodes) :
    Arena ((List.range nodes.length).reverse.foldl recomputeBestChild nodes) fun _ => 0 := by
  obtain ⟨hshape, hstand, hbest⟩ := foldl_recomputeBestChild (List.range nodes.length).reverse nodes
  refine ⟨?_, ?_, ?_, ?_⟩
  · intro i p h
    rw [hshape.upOf_eq] at h
    rw [hshape.length_eq]
    exact bare.range h
  · intro i node h c
    obtain ⟨old, hold, hsame⟩ := hshape.lookup h
    have hchildren : node.children = old.children :=
      show node.shape.children = old.shape.children by rw [hsame]
    rw [hchildren, hshape.upOf_eq]
    exact bare.children hold c
  · intro i node h
    obtain ⟨old, hold, _⟩ := hshape.lookup h
    have hstanding := hstand i
    rw [standingAt, standingAt, h, hold] at hstanding
    have hweight : node.weight = old.weight := congrArg Prod.fst (some_inj.mp hstanding)
    rw [hweight]
    exact bare.weight hold
  · intro i node h
    have hlt : i < nodes.length := by
      rw [← hshape.length_eq]
      exact (List.getElem?_eq_some_iff.mp h).1
    rw [hbest h (List.mem_reverse.mpr (List.mem_range.mpr hlt))]
    exact bestChildOf_congr fun c _ => (hstand c).symm

section AddKept

variable {nodes : List ProtoNode} {root : Bytes32} {parentIdx : Option Nat}
  {slot proposerIndex : Nat}

section

variable (inside : ∀ p, parentIdx = some p → p < nodes.length)

include inside

private theorem getElem?_addKeptNode (i : Nat) :
    (addKeptNode nodes root parentIdx slot proposerIndex)[i]? =
      if i = nodes.length then some (ProtoNode.fresh root parentIdx slot proposerIndex)
      else (nodes[i]?).map fun node =>
        if parentIdx = some i then { node with children := node.children ++ [nodes.length] }
        else node := by
  have happend : (nodes ++ [ProtoNode.fresh root parentIdx slot proposerIndex])[i]? =
      if i = nodes.length then some (ProtoNode.fresh root parentIdx slot proposerIndex)
      else nodes[i]? := by
    rcases lt_trichotomy i nodes.length with hlt | heq | hgt
    · rw [List.getElem?_append_left hlt, if_neg hlt.ne]
    · subst heq
      rw [List.getElem?_concat_length, if_pos rfl]
    · rw [if_neg hgt.ne', List.getElem?_eq_none hgt.le, List.getElem?_eq_none]
      rw [List.length_append]
      exact hgt
  cases parentIdx with
  | none =>
    show (nodes ++ _)[i]? = _
    rw [happend]
    simp
  | some p =>
    show (List.modify _ p _)[i]? = _
    rw [List.getElem?_modify, happend]
    have hp := inside p rfl
    by_cases hi : i = nodes.length
    · subst hi
      simp [hp.ne]
    · simp [hi]

private theorem rootAt_addKeptNode (i : Nat) :
    rootAt (addKeptNode nodes root parentIdx slot proposerIndex) i =
      if i = nodes.length then some root else rootAt nodes i := by
  rw [rootAt, getElem?_addKeptNode inside]
  split
  · rfl
  · rw [Option.map_map, rootAt]
    congr 1
    funext node
    show (if parentIdx = some i then _ else node).root = node.root
    split <;> rfl

private theorem upOf_addKeptNode :
    upOf (addKeptNode nodes root parentIdx slot proposerIndex) =
      update (upOf nodes) nodes.length parentIdx := by
  funext i
  rw [upOf, getElem?_addKeptNode inside]
  by_cases hi : i = nodes.length
  · subst hi
    rw [if_pos rfl, update_self]
    rfl
  · rw [if_neg hi, update_of_ne hi, upOf]
    cases nodes[i]? with
    | none => rfl
    | some node =>
      show (if parentIdx = some i then _ else node).parent = node.parent
      split <;> rfl

end

private theorem length_addKeptNode :
    (addKeptNode nodes root parentIdx slot proposerIndex).length =
      nodes.length + 1 := by
  cases parentIdx with
  | none => exact List.length_append
  | some p =>
    show (List.modify _ p _).length = _
    rw [List.length_modify]
    exact List.length_append

private theorem Bare.addKept (bare : Bare nodes)
    (inside : ∀ p, parentIdx = some p → p < nodes.length) :
    Bare (addKeptNode nodes root parentIdx slot proposerIndex) where
  range := by
    intro i p h
    rw [upOf_addKeptNode inside] at h
    rw [length_addKeptNode]
    by_cases hi : i = nodes.length
    · subst hi
      rw [update_self] at h
      exact (inside p h).trans (Nat.lt_succ_self _)
    · rw [update_of_ne hi] at h
      exact (bare.range h).trans (Nat.lt_succ_self _)
  children := by
    intro i node h c
    rw [upOf_addKeptNode inside]
    rw [getElem?_addKeptNode inside] at h
    by_cases hi : i = nodes.length
    · subst hi
      rw [if_pos rfl, some_inj] at h
      subst h
      refine iff_of_false List.not_mem_nil fun hup => ?_
      by_cases hc : c = nodes.length
      · rw [hc, update_self] at hup
        exact absurd (inside _ hup) (lt_irrefl _)
      · rw [update_of_ne hc] at hup
        exact absurd (bare.range hup) (lt_irrefl _)
    · rw [if_neg hi, map_eq_some_iff] at h
      obtain ⟨old, hold, rfl⟩ := h
      have hiff := bare.children hold c
      by_cases hc : c = nodes.length
      · subst hc
        have hnot : nodes.length ∉ old.children := fun hmem =>
          absurd (lt_of_upOf (hiff.mp hmem)) (lt_irrefl _)
        rw [update_self]
        by_cases hp : parentIdx = some i
        · simp [hp]
        · simp [hp, hnot]
      · rw [update_of_ne hc, ← hiff]
        by_cases hp : parentIdx = some i
        · simp [hp, hc]
        · simp [hp]
  weight := by
    intro i node h
    rw [getElem?_addKeptNode inside] at h
    split at h
    · cases h
      rfl
    · rw [map_eq_some_iff] at h
      obtain ⟨old, hold, rfl⟩ := h
      have hweight := bare.weight hold
      split <;> exact hweight

end AddKept

/-! ## The rebuilt tree -/

/-- What the rebuild leaves alone. -/
structure SameRest (old new : ForkChoiceStore) : Prop where
  head : new.head = old.head
  justified : new.latestJustified = old.latestJustified
  finalized : new.latestFinalized = old.latestFinalized
  votes : new.latestVotes = old.latestVotes
  newVotes : new.latestNewVotes = old.latestNewVotes

section Carried

variable {β : Type} {map : RapidHashMap β} {old : Bytes32 → Option β} {kept : RapidHashMap Nat}
  (carried : ∀ r, map.lookup r = if r ∈ kept then old r else none)

include carried

private theorem lookup_carry {value : β} (hvalue : old root = some value) {idx : Nat}
    (r : Bytes32) :
    (map.insert root value).lookup r = if r ∈ kept.insert root idx then old r else none := by
  simp only [lookup_insert_eq, AList.mem_insert]
  split
  · next hr => rw [if_pos (.inl hr), hr, hvalue]
  · next hr => exact (carried r).trans (if_congr (or_iff_right hr).symm rfl rfl)

private theorem mem_carried (there : ∀ r ∈ kept, (old r).isSome) {r : Bytes32} :
    r ∈ map ↔ r ∈ kept := by
  rw [← AList.lookup_isSome, carried]
  by_cases hr : r ∈ kept
  · rw [if_pos hr]
    exact iff_of_true (there r hr) hr
  · rw [if_neg hr]
    exact iff_of_false Bool.false_ne_true hr

end Carried

/-- The state of the rebuild: a tree over some of the kept blocks, each with its parent, and a
stack that holds the kept children still to come. -/
structure Rebuilding (old : ForkChoiceStore) (finalized : Bytes32)
    (stack : List (Bytes32 × Option Nat)) (new : ForkChoiceStore) : Prop where
  index : ∀ {r i}, new.nodeIndices.lookup r = some i ↔ rootAt new.nodes i = some r
  below : ∀ {r}, r ∈ new.nodeIndices → Below old finalized r
  blocks : ∀ r, new.blocks.lookup r =
    if r ∈ new.nodeIndices then old.blocks.lookup r else none
  states : ∀ r, new.states.lookup r =
    if r ∈ new.nodeIndices then old.states.lookup r else none
  parents : ∀ r, new.parents.lookup r =
    if r ∈ new.nodeIndices then
      if r = finalized then some Bytes32.zero else old.parents.lookup r
    else none
  rooted : ∀ {r q}, r ∈ new.nodeIndices → r ≠ finalized → old.parents.lookup r = some q →
    q ∈ new.nodeIndices
  linked : ∀ {i p r q}, rootAt new.nodes i = some r → rootAt new.nodes p = some q →
    (upOf new.nodes i = some p ↔ new.parents.lookup r = some q)
  bare : Bare new.nodes
  family : ∀ {p c}, p ≠ Bytes32.zero →
    (c ∈ (new.children.lookup p).getD [] ↔ new.parents.lookup c = some p)
  waiting : ∀ {r parentIdx}, (r, parentIdx) ∈ stack → Below old finalized r ∧
    (r = finalized ∧ parentIdx = none ∨
      ∃ p q, parentIdx = some p ∧ rootAt new.nodes p = some q ∧ old.storedParent r = some q)
  closed : ∀ {r c}, r ∈ new.nodeIndices → old.storedParent c = some r →
    c ∈ new.nodeIndices ∨ ∃ parentIdx, (c, parentIdx) ∈ stack
  final : finalized ∈ new.nodeIndices ∨ (finalized, none) ∈ stack
  rest : SameRest old new

namespace Rebuilding

variable {old new : ForkChoiceStore} {stack : List (Bytes32 × Option Nat)} {root : Bytes32}
  {parentIdx : Option Nat}

private theorem start (stored : finalized ∈ old.blocks) :
    Rebuilding old finalized [(finalized, none)] old.cleared where
  index := iff_of_false nofun nofun
  below := fun h => absurd h (AList.notMem_empty _)
  blocks := fun r => (if_neg (AList.notMem_empty r)).symm
  states := fun r => (if_neg (AList.notMem_empty r)).symm
  parents := fun r => (if_neg (AList.notMem_empty r)).symm
  rooted := fun h => absurd h (AList.notMem_empty _)
  linked := nofun
  bare := ⟨nofun, nofun, nofun⟩
  family := fun _ => iff_of_false List.not_mem_nil nofun
  waiting := by
    intro r parentIdx h
    obtain ⟨rfl, rfl⟩ := Prod.mk.inj (List.mem_singleton.mp h)
    exact ⟨⟨stored, .refl _ _⟩, .inl ⟨rfl, rfl⟩⟩
  closed := fun h => absurd h (AList.notMem_empty _)
  final := .inr List.mem_cons_self
  rest := ⟨rfl, rfl, rfl, rfl, rfl⟩

private theorem skip (building : Rebuilding old finalized ((root, parentIdx) :: stack) new)
    (present : root ∈ new.nodeIndices) : Rebuilding old finalized stack new :=
  { building with
    waiting := fun h => building.waiting (List.mem_cons_of_mem _ h)
    closed := by
      intro r c hr hc
      rcases building.closed hr hc with h | ⟨idx, h⟩
      · exact .inl h
      · rcases List.mem_cons.mp h with heq | h
        · obtain ⟨rfl, _⟩ := Prod.mk.inj heq
          exact .inl present
        · exact .inr ⟨idx, h⟩
    final := by
      rcases building.final with h | h
      · exact .inl h
      · rcases List.mem_cons.mp h with heq | h
        · obtain ⟨rfl, _⟩ := Prod.mk.inj heq
          exact .inl present
        · exact .inr h }

/-- Where a kept block goes: the finalized one is the top, any other hangs below its parent. -/
structure Placed (old : ForkChoiceStore) (finalized : Bytes32) (new : ForkChoiceStore)
    (root : Bytes32) (parentIdx : Option Nat) (parentRoot : Bytes32)
    (children : RapidHashMap (List Bytes32)) : Prop where
  inside : ∀ p, parentIdx = some p → p < new.nodes.length
  recorded : (if root = finalized then some Bytes32.zero else old.parents.lookup root) =
    some parentRoot
  stored : root ≠ finalized → parentRoot ∈ new.nodeIndices
  linked : ∀ {p q}, rootAt new.nodes p = some q → (parentIdx = some p ↔ parentRoot = q)
  family : ∀ {p c}, p ≠ Bytes32.zero →
    (c ∈ (children.lookup p).getD [] ↔ (new.parents.insert root parentRoot).lookup c = some p)

private theorem addKept_placed (skeleton : Skeleton rank old)
    (building : Rebuilding old finalized ((root, parentIdx) :: stack) new)
    (absent : root ∉ new.nodeIndices) (signed : SignedBlockWithAttestation) (state : State) :
    ∃ parentRoot children, Placed old finalized new root parentIdx parentRoot children ∧
      new.addKept root parentIdx signed state =
        { new with
          nodeIndices := new.nodeIndices.insert root new.nodes.length
          blocks := new.blocks.insert root signed
          states := new.states.insert root state
          nodes := addKeptNode new.nodes root parentIdx signed.message.block.slot
            signed.message.block.proposerIndex
          parents := new.parents.insert root parentRoot
          children } := by
  have hnoParent : new.parents.lookup root = none := by rw [building.parents, if_neg absent]
  obtain ⟨hbelow, ⟨rfl, rfl⟩ | ⟨p, q, rfl, hp, hparent⟩⟩ := building.waiting List.mem_cons_self
  · refine ⟨Bytes32.zero, new.children, ⟨?_, if_pos rfl, fun h => absurd rfl h, ?_, ?_⟩, rfl⟩
    · intro p h
      cases h
    · intro p q hq
      have hstored := (building.below (mem_of_lookup (building.index.mpr hq))).1
      exact iff_of_false (Option.some_ne_none p).symm (skeleton.ne_zero hstored).symm
    · intro p c hpz
      rw [building.family hpz]
      by_cases hc : c = root
      · subst hc
        rw [AList.lookup_insert, hnoParent, some_inj]
        exact iff_of_false (Option.some_ne_none p).symm (Ne.symm hpz)
      · rw [AList.lookup_insert_ne hc]
  · have hlt : p < new.nodes.length := lt_of_rootAt hp
    have hlink := (storedParent_eq_some.mp hparent).1
    have hq : q ∈ new.nodeIndices := mem_of_lookup (building.index.mpr hp)
    -- the finalized block is below none of the kept ones
    have hne : root ≠ finalized := by
      rintro rfl
      have hle := (building.below hq).2.rank_le skeleton.falls_storedParent
      have hlt := skeleton.falls hlink (skeleton.ne_zero (building.below hq).1)
      omega
    have hinside : ∀ p', some p = some p' → p' < new.nodes.length := by
      intro p' h
      cases h
      exact hlt
    refine ⟨q, pushChild new.children q root, ⟨hinside, ?_, fun _ => hq, ?_, ?_⟩, ?_⟩
    · rw [if_neg hne]
      exact hlink
    · intro p' q' hq'
      rw [some_inj]
      constructor
      · rintro rfl
        exact some_inj.mp (hp.symm.trans hq')
      · rintro rfl
        have hp' := building.index.mpr hp
        rw [building.index.mpr hq', some_inj] at hp'
        exact hp'.symm
    · intro p' c hpz
      refine family_recorded building.family (fun h => ?_) hpz
      rw [← AList.lookup_isSome, hnoParent] at h
      cases h
    · have hroot : rootAt (addKeptNode new.nodes root (some p)
          signed.message.block.slot signed.message.block.proposerIndex) p = some q := by
        rw [rootAt_addKeptNode hinside, if_neg hlt.ne]
        exact hp
      rw [rootAt, map_eq_some_iff] at hroot
      obtain ⟨node, hnode, hroot⟩ := hroot
      unfold ForkChoiceStore.addKept
      simp only [hnode, Option.elim_some, hroot]

private theorem linked_add (skeleton : Skeleton rank old)
    (building : Rebuilding old finalized ((root, parentIdx) :: stack) new)
    (absent : root ∉ new.nodeIndices) {parentRoot : Bytes32}
    (placed : Placed old finalized new root parentIdx parentRoot children)
    {slot proposerIndex i p : Nat} {r q : Bytes32}
    (hi : rootAt (addKeptNode new.nodes root parentIdx slot proposerIndex) i =
      some r)
    (hp : rootAt (addKeptNode new.nodes root parentIdx slot proposerIndex) p =
      some q) :
    upOf (addKeptNode new.nodes root parentIdx slot proposerIndex) i = some p ↔
      (new.parents.insert root parentRoot).lookup r = some q := by
  have hnonzero := skeleton.ne_zero (building.waiting List.mem_cons_self).1.1
  rw [rootAt_addKeptNode placed.inside] at hi hp
  rw [upOf_addKeptNode placed.inside]
  by_cases hin : i = new.nodes.length
  · -- the new node's own link
    subst hin
    rw [if_pos rfl, some_inj] at hi
    subst hi
    rw [update_self, AList.lookup_insert, some_inj]
    by_cases hpn : p = new.nodes.length
    · rw [if_pos hpn, some_inj] at hp
      refine iff_of_false (fun h => absurd (placed.inside p h) (hpn ▸ lt_irrefl _)) ?_
      rintro rfl
      by_cases hfinal : root = finalized
      · have hrecorded := placed.recorded
        rw [if_pos hfinal, some_inj] at hrecorded
        exact hnonzero (hp.trans hrecorded.symm)
      · exact absent (hp ▸ placed.stored hfinal)
    · rw [if_neg hpn] at hp
      exact placed.linked hp
  · rw [if_neg hin] at hi
    have hr : r ∈ new.nodeIndices := mem_of_lookup (building.index.mpr hi)
    have hne : r ≠ root := fun h => absent (h ▸ hr)
    rw [update_of_ne hin, AList.lookup_insert_ne hne]
    by_cases hpn : p = new.nodes.length
    · -- nothing in the tree is below a block that is not
      rw [if_pos hpn, some_inj] at hp
      subst hp
      refine iff_of_false (fun h => absurd (building.bare.range h) (hpn ▸ lt_irrefl _)) fun h => ?_
      rw [building.parents, if_pos hr] at h
      split at h
      · exact hnonzero (some_inj.mp h).symm
      · rename_i hfinal
        exact absent (building.rooted hr hfinal h)
    · rw [if_neg hpn] at hp
      exact building.linked hi hp

/-- A kept block enters the new tree, and its kept children go on the stack. -/
theorem add (skeleton : Skeleton rank old) {kept : List Bytes32}
    (hkept : ∀ r, r ∈ kept ↔ Below old finalized r)
    (building : Rebuilding old finalized ((root, parentIdx) :: stack) new)
    (absent : root ∉ new.nodeIndices) {signed : SignedBlockWithAttestation} {state : State}
    (hsigned : old.blocks.lookup root = some signed) (hstate : old.states.lookup root = some state) :
    Rebuilding old finalized
      ((((old.children.lookup root).getD []).filter (· ∈ kept)).map (·, some new.nodes.length) ++
        stack)
      (new.addKept root parentIdx signed state) := by
  obtain ⟨parentRoot, children, placed, hadd⟩ := addKept_placed skeleton building absent signed state
  have hbelow : Below old finalized root := (building.waiting List.mem_cons_self).1
  have hmem : ∀ {r}, r ∈ new.nodeIndices.insert root new.nodes.length ↔
      r = root ∨ r ∈ new.nodeIndices := fun {r} => AList.mem_insert _
  have hold : ∀ {r}, r ∈ new.nodeIndices → r ≠ root := fun h heq => absent (heq ▸ h)
  have hroots : ∀ i, rootAt (addKeptNode new.nodes root parentIdx
      signed.message.block.slot signed.message.block.proposerIndex) i =
      if i = new.nodes.length then some root else rootAt new.nodes i :=
    rootAt_addKeptNode placed.inside
  rw [hadd]
  refine ⟨?_, ?_, lookup_carry building.blocks hsigned, lookup_carry building.states hstate,
    lookup_carry building.parents placed.recorded, ?_, ?_, building.bare.addKept placed.inside,
    placed.family, ?_, ?_, ?_,
    ⟨building.rest.head, building.rest.justified, building.rest.finalized, building.rest.votes,
      building.rest.newVotes⟩⟩
  · intro r i
    exact index_insert building.index absent (rootAt_length new.nodes) hroots
  · intro r hr
    rcases hmem.mp hr with rfl | hr
    · exact hbelow
    · exact building.below hr
  · intro r q hr hne hq
    rcases hmem.mp hr with rfl | hr
    · have hrecorded := placed.recorded
      rw [if_neg hne, hq, some_inj] at hrecorded
      exact hmem.mpr (.inr (hrecorded ▸ placed.stored hne))
    · exact hmem.mpr (.inr (building.rooted hr hne hq))
  · intro i p r q hi hp
    exact building.linked_add skeleton absent placed hi hp
  · intro r idx h
    rcases List.mem_append.mp h with h | h
    · obtain ⟨c, hc, heq⟩ := List.mem_map.mp h
      obtain ⟨rfl, rfl⟩ := Prod.mk.inj heq
      obtain ⟨hchild, hckept⟩ := List.mem_filter.mp hc
      refine ⟨(hkept c).mp (of_decide_eq_true hckept), .inr ⟨_, root, rfl, ?_,
        (skeleton.mem_children hbelow.1).mp hchild⟩⟩
      exact (hroots _).trans (if_pos rfl)
    · obtain ⟨hr, hplace⟩ := building.waiting (List.mem_cons_of_mem _ h)
      refine ⟨hr, hplace.imp id ?_⟩
      rintro ⟨p, q, rfl, hp, hq⟩
      exact ⟨p, q, rfl, (hroots p).trans ((if_neg (lt_of_rootAt hp).ne).trans hp), hq⟩
  · intro r c hr hc
    rcases hmem.mp hr with rfl | hr
    · refine .inr ⟨some new.nodes.length, List.mem_append_left _ (List.mem_map.mpr ⟨c, ?_, rfl⟩)⟩
      refine List.mem_filter.mpr ⟨(skeleton.mem_children hbelow.1).mpr hc, decide_eq_true ?_⟩
      exact (hkept c).mpr (hbelow.child skeleton hc)
    · rcases building.closed hr hc with h | ⟨idx, h⟩
      · exact .inl (hmem.mpr (.inr h))
      · rcases List.mem_cons.mp h with heq | h
        · exact .inl (hmem.mpr (.inl (Prod.mk.inj heq).1))
        · exact .inr ⟨idx, List.mem_append_right _ h⟩
  · rcases building.final with h | h
    · exact .inl (hmem.mpr (.inr h))
    · rcases List.mem_cons.mp h with heq | h
      · exact .inl (hmem.mpr (.inl (Prod.mk.inj heq).1))
      · exact .inr (List.mem_append_right _ h)

/-- When the stack is empty the new tree holds exactly the kept blocks. -/
theorem complete (building : Rebuilding old finalized [] new) {r : Bytes32} :
    r ∈ new.nodeIndices ↔ Below old finalized r := by
  refine ⟨building.below, fun hr => ?_⟩
  have hmem : ∀ {r}, Climbs old.storedParent r finalized → r ∈ new.nodeIndices := by
    intro r hclimb
    induction hclimb using Relation.ReflTransGen.head_induction_on with
    | refl => exact building.final.resolve_right List.not_mem_nil
    | head hlink _ ih =>
      exact (building.closed ih hlink).resolve_right fun ⟨_, h⟩ => List.not_mem_nil h
  exact hmem hr.2

end Rebuilding

private theorem nodeIndices_addKept (new : ForkChoiceStore) (root : Bytes32)
    (parentIdx : Option Nat) (signed : SignedBlockWithAttestation) (state : State) :
    (new.addKept root parentIdx signed state).nodeIndices =
      new.nodeIndices.insert root new.nodes.length := by
  cases parentIdx <;> rfl

/-- The rebuild returns the tree over the kept blocks. -/
theorem rebuildLoop_spec (skeleton : Skeleton rank store) (stored : finalized ∈ store.blocks)
    (hkept : ∀ r, r ∈ kept ↔ Below store finalized r) :
    ∃ rebuilt, iterate (store.rebuildTurn kept) store.stackFuel
        ([(finalized, none)], store.cleared) = some rebuilt ∧
      Rebuilding store finalized [] rebuilt := by
  let Inv : List (Bytes32 × Option Nat) × ForkChoiceStore → Prop := fun state =>
    Rebuilding store finalized state.1 state.2
  let variant : List (Bytes32 × Option Nat) × ForkChoiceStore → Nat := fun state =>
    state.1.length + unexpanded store.children.entries (· ∈ state.2.nodeIndices)
  refine iterate_of_variant Inv (fun rebuilt => Rebuilding store finalized [] rebuilt) variant
    ?_ ?_ (Rebuilding.start stored) (unexpanded_lt_stackFuel store _)
  · rintro ⟨stack, new⟩ next hbuilding hturn
    have hbuilding' : Rebuilding store finalized stack new := hbuilding
    cases stack with
    | nil => cases hturn
    | cons entry stack =>
      obtain ⟨root, parentIdx⟩ := entry
      rw [rebuildTurn] at hturn
      split at hturn
      · rename_i hpresent
        cases hturn
        exact ⟨hbuilding'.skip hpresent, Nat.add_lt_add_right (Nat.lt_succ_self _) _⟩
      · rename_i habsent
        have hroot : Below store finalized root := (hbuilding'.waiting List.mem_cons_self).1
        obtain ⟨signed, hsigned⟩ := exists_lookup hroot.1
        obtain ⟨state, hstate⟩ := exists_lookup (skeleton.stated.mpr (skeleton.stored.mp hroot.1))
        rw [hsigned, hstate] at hturn
        cases hturn
        refine ⟨hbuilding'.add skeleton hkept habsent hsigned hstate, ?_⟩
        have hmem : ∀ r, r ∈ (new.addKept root parentIdx signed state).nodeIndices ↔
            r = root ∨ r ∈ new.nodeIndices := by
          intro r
          rw [nodeIndices_addKept, AList.mem_insert]
        have hle : unexpanded store.children.entries
              (· ∈ (new.addKept root parentIdx signed state).nodeIndices) +
              ((store.children.lookup root).getD []).length ≤
            unexpanded store.children.entries (· ∈ new.nodeIndices) :=
          unexpanded_lookup (fun r h => (hmem r).mpr (.inr h)) habsent ((hmem root).mpr (.inl rfl))
        have hfilter := List.length_filter_le (fun c => decide (c ∈ kept))
          ((store.children.lookup root).getD [])
        show (_ ++ stack).length + unexpanded store.children.entries
            (· ∈ (new.addKept root parentIdx signed state).nodeIndices) <
          ((root, parentIdx) :: stack).length +
            unexpanded store.children.entries (· ∈ new.nodeIndices)
        rw [List.length_append, List.length_map, List.length_cons]
        omega
  · rintro ⟨stack, new⟩ result hbuilding hturn
    cases stack with
    | cons entry stack =>
      rw [rebuildTurn] at hturn
      split at hturn
      · cases hturn
      · split at hturn <;> cases hturn
    | nil =>
      cases hturn
      exact hbuilding

/-- What pruning does to the maps of the tree. -/
structure Trimmed (old : ForkChoiceStore) (finalized : Bytes32) (new : ForkChoiceStore) :
    Prop where
  kept : ∀ {r}, r ∈ new.nodeIndices ↔ Below old finalized r
  blocks : ∀ {r}, r ∈ new.nodeIndices → new.blocks.lookup r = old.blocks.lookup r
  states : ∀ {r}, r ∈ new.nodeIndices → new.states.lookup r = old.states.lookup r
  top : new.parents.lookup finalized = some Bytes32.zero
  parents : ∀ {r}, r ∈ new.nodeIndices → r ≠ finalized →
    new.parents.lookup r = old.parents.lookup r

/-- What was trimmed is read off the tree. -/
theorem Trimmed.congr {old new new' : ForkChoiceStore} (trimmed : Trimmed old finalized new)
    (same : SameTree new new') : Trimmed old finalized new' where
  kept := by
    rw [same.nodeIndices]
    exact trimmed.kept
  blocks := by
    rw [same.nodeIndices, same.blocks]
    exact trimmed.blocks
  states := by
    rw [same.nodeIndices, same.states]
    exact trimmed.states
  top := by
    rw [same.parents]
    exact trimmed.top
  parents := by
    rw [same.nodeIndices, same.parents]
    exact trimmed.parents

/-- The tree of the kept blocks, every node scanned: all in order, with no weight anywhere. -/
theorem rebuild_spec (skeleton : Skeleton rank store) (stored : finalized ∈ store.blocks)
    (hkept : ∀ r, r ∈ kept ↔ Below store finalized r) :
    ∃ rebuilt, store.rebuild kept finalized = some rebuilt ∧ Skeleton rank rebuilt ∧
      Arena rebuilt.nodes (fun _ => 0) ∧ Trimmed store finalized rebuilt ∧
      SameRest store rebuilt := by
  obtain ⟨bare, hloop, hbuilt⟩ := rebuildLoop_spec skeleton stored hkept
  let nodes := (List.range bare.nodes.length).reverse.foldl recomputeBestChild bare.nodes
  have hshape : SameShape bare.nodes nodes := (foldl_recomputeBestChild _ _).1
  have hblocks : ∀ r, r ∈ bare.nodeIndices → r ∈ store.blocks := fun r hr => (hbuilt.below hr).1
  have hindices : ∀ r, r ∈ bare.nodeIndices → r ∈ store.nodeIndices := fun r hr =>
    skeleton.stored.mp (hblocks r hr)
  have hfinal : finalized ∈ bare.nodeIndices := hbuilt.complete.mpr ⟨stored, .refl _ _⟩
  have hskeleton : Skeleton rank bare := by
    refine ⟨hbuilt.index, mem_carried hbuilt.blocks fun r hr => AList.lookup_isSome.mpr (hblocks r hr),
      mem_carried hbuilt.states fun r hr =>
        AList.lookup_isSome.mpr (skeleton.stated.mpr (hindices r hr)),
      mem_carried hbuilt.parents fun r hr => ?_,
      fun h => skeleton.nonzero (hindices _ h), hbuilt.linked, hbuilt.family, ?_⟩
    · split
      · rfl
      · exact AList.lookup_isSome.mpr (skeleton.parented.mpr (hindices r hr))
    · intro r q hq hne
      rw [hbuilt.parents] at hq
      split at hq
      · split at hq
        · exact absurd (some_inj.mp hq).symm hne
        · exact skeleton.falls hq hne
      · cases hq
  have hsame : SameTree bare { bare with nodes } := ⟨rfl, rfl, rfl, rfl, rfl, hshape⟩
  have htrimmed : Trimmed store finalized bare := by
    refine ⟨hbuilt.complete, ?_, ?_, ?_, ?_⟩
    · intro r hr
      rw [hbuilt.blocks, if_pos hr]
    · intro r hr
      rw [hbuilt.states, if_pos hr]
    · rw [hbuilt.parents, if_pos hfinal, if_pos rfl]
    · intro r hr hne
      rw [hbuilt.parents, if_pos hr, if_neg hne]
  refine ⟨{ bare with nodes }, ?_, hskeleton.of_sameTree hsame, hbuilt.bare.arena,
    htrimmed.congr hsame, ⟨hbuilt.rest.head, hbuilt.rest.justified, hbuilt.rest.finalized,
      hbuilt.rest.votes, hbuilt.rest.newVotes⟩⟩
  rw [ForkChoiceStore.rebuild, hloop]
  rfl

/-! ## The votes -/

/-- What pruning does to votes: a vote for a kept block stays, any other is dropped or moves to the
finalized block. -/
structure Normalized (kept : List Bytes32) (finalized : Bytes32) (votes votes' : VoteMap) :
    Prop where
  stays : ∀ {v r}, votes.lookup v = some r → r ∈ kept → votes'.lookup v = some r
  moves : ∀ {v r}, votes.lookup v = some r → r ∉ kept →
    votes'.lookup v = none ∨ votes'.lookup v = some finalized
  silent : ∀ {v}, votes.lookup v = none → votes'.lookup v = none

private theorem Normalized.mem_kept (normalized : Normalized kept finalized votes votes')
    (hfinal : finalized ∈ kept) {v : Nat} {r : Bytes32} (h : votes'.lookup v = some r) :
    r ∈ kept := by
  cases hold : votes.lookup v with
  | none =>
    rw [normalized.silent hold] at h
    cases h
  | some old =>
    by_cases hkept : old ∈ kept
    · rw [normalized.stays hold hkept, some_inj] at h
      exact h ▸ hkept
    · rcases normalized.moves hold hkept with hnone | hmoved
      · rw [hnone] at h
        cases h
      · rw [hmoved, some_inj] at h
        exact h ▸ hfinal

theorem normalizeTurn_again {root next : Bytes32}
    (h : normalizeTurn parents root finalized cursor = .again next) :
    parents.lookup cursor = some next ∧ next ≠ Bytes32.zero := by
  unfold normalizeTurn at h
  split at h
  · cases h
  · split at h
    · cases h
    · next hparent =>
      split at h <;> cases h
      next hne => exact ⟨hparent, hne⟩

private theorem normalizeTurn_done {result : Option Bytes32}
    (h : normalizeTurn parents root finalized cursor = .done result) :
    result = none ∨ result = some finalized := by
  unfold normalizeTurn at h
  split at h
  · cases h
    exact .inr rfl
  · split at h
    · cases h
      exact .inl rfl
    · split at h <;> cases h
      exact .inl rfl

private theorem normalizePrunedVoteRoot_spec (skeleton : Skeleton rank store) (kept : List Bytes32)
    (finalized root : Bytes32) :
    ∃ moved, normalizePrunedVoteRoot root finalized kept store.parents = some moved ∧
      (root ∈ kept → moved = some root) ∧
      (root ∉ kept → moved = none ∨ moved = some finalized) := by
  unfold normalizePrunedVoteRoot
  by_cases hroot : root ∈ kept
  · rw [if_pos hroot]
    exact ⟨some root, rfl, fun _ => rfl, fun h => absurd hroot h⟩
  · rw [if_neg hroot]
    obtain ⟨moved, hrun, hmoved⟩ := skeleton.parentWalk (fun _ => True)
      (fun moved => moved = none ∨ moved = some finalized)
      (fun _ _ _ hturn => ⟨trivial, normalizeTurn_again hturn⟩)
      (fun _ _ _ hturn => normalizeTurn_done hturn)
      (show (fun _ => True) finalized from trivial)
    exact ⟨moved, hrun, fun h => absurd h hroot, fun _ => hmoved⟩

private theorem notMem_seen {seen rest : List (Sigma fun _ : Nat => Bytes32)}
    {vote : Sigma fun _ : Nat => Bytes32} (hsplit : votes.entries = seen ++ vote :: rest) :
    vote.1 ∉ seen.keys := by
  have hnodup : votes.entries.keys.Nodup := votes.nodupKeys
  rw [hsplit, List.keys, List.map_append, List.nodup_append] at hnodup
  intro hmem
  exact hnodup.2.2 vote.1 hmem vote.1 (by simp) rfl

/-- Each vote is normalized on its own. -/
theorem lookup_normalizeVotes (h : normalizeVotes votes finalized kept parents = some votes') :
    (∀ {v}, votes.lookup v = none → votes'.lookup v = none) ∧
      ∀ {v r}, votes.lookup v = some r →
        normalizePrunedVoteRoot r finalized kept parents = some (votes'.lookup v) := by
  -- what has been visited is settled, what has not is not there yet
  let Inv : List (Sigma fun _ : Nat => Bytes32) → VoteMap → Prop := fun seen acc =>
    (∀ v, v ∉ seen.keys → acc.lookup v = none) ∧
      ∀ vote ∈ seen, normalizePrunedVoteRoot vote.2 finalized kept parents =
        some (acc.lookup vote.1)
  suffices hinv : Inv votes.entries votes' by
    refine ⟨fun hnone => hinv.1 _ (List.dlookup_eq_none.mp hnone), fun hlook => ?_⟩
    exact hinv.2 ⟨_, _⟩ (AList.mem_lookup_iff.mp hlook)
  refine foldlM_keeps_seen Inv votes.entries ?_
    ⟨fun v _ => AList.lookup_empty v, fun _ hvote => absurd hvote List.not_mem_nil⟩ h
  rintro seen vote rest acc next hsplit ⟨hsilent, hseen⟩ hbody
  obtain ⟨moved, hmoved, hnext⟩ := map_eq_some_iff.mp hbody
  have hnew := notMem_seen hsplit
  obtain ⟨hself, hother⟩ :
      next.lookup vote.1 = moved ∧ ∀ v, v ≠ vote.1 → next.lookup v = acc.lookup v := by
    cases moved with
    | none =>
      subst hnext
      exact ⟨hsilent _ hnew, fun _ _ => rfl⟩
    | some root =>
      subst hnext
      exact ⟨AList.lookup_insert _, fun v hv => AList.lookup_insert_ne hv⟩
  refine ⟨fun v hv => ?_, fun old hold => ?_⟩
  · rw [List.keys_append, List.mem_append, not_or] at hv
    have hne : v ≠ vote.1 := fun heq => hv.2 (by simp [heq])
    rw [hother v hne]
    exact hsilent v hv.1
  · rcases List.mem_append.mp hold with hold | hold
    · rw [hother _ fun heq => hnew (heq ▸ List.mem_map_of_mem hold)]
      exact hseen old hold
    · obtain rfl := List.mem_singleton.mp hold
      rw [hself]
      exact hmoved

private theorem normalizeVotes_spec (skeleton : Skeleton rank store) (kept : List Bytes32)
    (votes : VoteMap) :
    ∃ votes', normalizeVotes votes finalized kept store.parents = some votes' ∧
      Normalized kept finalized votes votes' := by
  obtain ⟨votes', hrun⟩ : ∃ votes', normalizeVotes votes finalized kept store.parents =
      some votes' := by
    refine foldlM_returns votes.entries (fun acc vote => ?_) ∅
    obtain ⟨moved, hmoved, -⟩ := normalizePrunedVoteRoot_spec skeleton kept finalized vote.2
    rw [hmoved]
    exact ⟨_, rfl⟩
  obtain ⟨hsilent, hmoved⟩ := lookup_normalizeVotes hrun
  have hspec : ∀ {v r}, votes.lookup v = some r →
      (r ∈ kept → votes'.lookup v = some r) ∧
        (r ∉ kept → votes'.lookup v = none ∨ votes'.lookup v = some finalized) := by
    intro v r hlook
    obtain ⟨moved, hrun', hin, hout⟩ := normalizePrunedVoteRoot_spec skeleton kept finalized r
    rw [hmoved hlook, some_inj] at hrun'
    rw [hrun']
    exact ⟨hin, hout⟩
  exact ⟨votes', hrun, fun hlook => (hspec hlook).1, fun hlook => (hspec hlook).2, hsilent⟩

/-! ## Counting anew -/

open Classical in
/-- Every vote of a rebuilt tree is counted once. -/
theorem countVotes_spec (skeleton : Skeleton rank store) (arena : Arena store.nodes fun _ => 0)
    (votes : KnownVotes store store.latestVotes)
    (newVotes : KnownVotes store store.latestNewVotes) :
    ∃ voted, (store.latestVotes.entries.map (·.2)).foldlM
        (fun store root => store.applyVoteDelta root 1) store = some voted ∧
      Consistent rank voted ∧ Voted store.latestVotes store.latestNewVotes store voted := by
  let voteOf : List (Sigma fun _ : Nat => Bytes32) → Nat → Option Nat := fun seen v =>
    (seen.dlookup v).bind store.nodeIndices.lookup
  let Inv : List (Sigma fun _ : Nat => Bytes32) → ForkChoiceStore → Prop := fun seen voted =>
    Voted store.latestVotes store.latestNewVotes store voted ∧
      Arena voted.nodes fun i => (support (upOf store.nodes) (voteOf seen) i : Nat)
  have hfalls := skeleton.falls_arena arena.range
  have hstep : ∀ seen vote rest voted, store.latestVotes.entries = seen ++ vote :: rest →
      Inv seen voted → ∃ next, voted.applyVoteDelta vote.2 1 = some next ∧
        Inv (seen ++ [vote]) next := by
    rintro seen vote rest voted hsplit ⟨hvoted, harena⟩
    have hmem : vote ∈ store.latestVotes.entries := by
      rw [hsplit]
      simp
    obtain ⟨idx, hidx⟩ := exists_lookup (votes (AList.mem_lookup_iff.mpr hmem))
    have hup : upOf voted.nodes = upOf store.nodes := hvoted.tree.shape.upOf_eq
    rw [← hup] at hfalls
    obtain ⟨nodes, hrun, hshape, hnext⟩ := applyVoteDelta_spec harena hfalls
      (by rw [hvoted.tree.nodeIndices]; exact hidx) 1
    refine ⟨{ voted with nodes }, hrun, hvoted.trans ⟨⟨rfl, rfl, rfl, rfl, rfl, hshape⟩, rfl, rfl,
      rfl, rfl, hvoted.votes, hvoted.newVotes⟩, ?_⟩
    have hnone : seen.dlookup vote.1 = none := List.dlookup_eq_none.mpr (notMem_seen hsplit)
    have hupdate : voteOf (seen ++ [vote]) = update (voteOf seen) vote.1 (some idx) := by
      funext v
      show ((seen ++ [vote]).dlookup v).bind _ = _
      rw [List.dlookup_append]
      by_cases hv : v = vote.1
      · subst hv
        rw [hnone, Option.none_or, update_self, List.dlookup_cons_eq]
        exact hidx
      · rw [update_of_ne hv, List.dlookup_cons_ne _ _ hv, List.dlookup_nil, Option.or_none]
    have hfresh : voteOf seen vote.1 = none := by
      show (seen.dlookup vote.1).bind _ = _
      rw [hnone]
      rfl
    have hfinite : FiniteVotes (voteOf seen) := by
      refine seen.keys.toFinset.finite_toSet.subset fun v hv => ?_
      have hv' : ((seen.dlookup v).bind store.nodeIndices.lookup).isSome := hv
      rw [Finset.mem_coe, List.mem_toFinset]
      by_contra hnot
      rw [List.dlookup_eq_none.mpr hnot] at hv'
      cases hv'
    convert hnext using 2 with i
    rw [hupdate, support_first hfinite hfresh, hup]
    push_cast
    rfl
  have hstart : Inv [] store := by
    refine ⟨⟨.refl store, rfl, rfl, rfl, rfl, rfl, rfl⟩, ?_⟩
    have hzero : ∀ i, support (upOf store.nodes) (voteOf []) i = 0 := fun i =>
      support_eq_zero fun v x hx => by cases hx
    simpa only [hzero, Nat.cast_zero] using arena
  obtain ⟨voted, hrun, hvoted, harena⟩ := foldlM_of_step Inv _ hstep hstart
  refine ⟨voted, ?_, ⟨skeleton.of_sameTree hvoted.tree, ?_, ?_, ?_⟩, hvoted⟩
  · rw [List.foldlM_map]
    exact hrun
  · unfold KnownVotes
    rw [hvoted.votes, hvoted.tree.nodeIndices]
    exact votes
  · unfold KnownVotes
    rw [hvoted.newVotes, hvoted.tree.nodeIndices]
    exact newVotes
  · have hvotesAt : votesAt voted = voteOf store.latestVotes.entries := by
      funext v
      rw [votesAt, hvoted.votes, hvoted.tree.nodeIndices]
      rfl
    unfold tally
    rw [hvotesAt, hvoted.tree.shape.upOf_eq]
    exact harena

/-! ## Pruning -/

/-- What a prune leaves: the kept blocks, their votes, and checkpoints among them. -/
structure Pruned (old new : ForkChoiceStore) : Prop where
  trimmed : Trimmed old old.latestFinalized.root new
  finalized : new.latestFinalized = old.latestFinalized
  justified : new.latestJustified =
    if old.latestJustified.root ∈ new.nodeIndices then old.latestJustified
    else old.latestFinalized
  headed : Headed new
  votes : ∃ kept, (∀ r, r ∈ kept ↔ r ∈ new.nodeIndices) ∧
    Normalized kept old.latestFinalized.root old.latestVotes new.latestVotes ∧
    Normalized kept old.latestFinalized.root old.latestNewVotes new.latestNewVotes

/-- `prune_finalized_history` does nothing as long as the finalized block is not stored. -/
theorem prune_of_unknown (unknown : store.latestFinalized.root ∉ store.blocks) :
    store.pruneFinalizedHistory = some store := by
  rw [pruneFinalizedHistory]
  exact if_pos (.inr unknown)

/-- `prune_finalized_history` returns a consistent store over the kept blocks. -/
theorem prune_spec (consistent : Consistent rank store)
    (stored : store.latestFinalized.root ∈ store.blocks) :
    ∃ pruned, store.pruneFinalizedHistory = some pruned ∧ Consistent rank pruned ∧
      Pruned store pruned := by
  have skeleton := consistent.skeleton
  obtain ⟨kept, hkeep, hkept⟩ := keptRoots_spec skeleton stored
  obtain ⟨rebuilt, hrebuild, hskeleton, harena, htrimmed, hrest⟩ :=
    rebuild_spec skeleton stored hkept
  obtain ⟨votes, hvotes, hnormal⟩ :
      ∃ votes, normalizeVotes store.latestVotes store.latestFinalized.root kept store.parents =
        some votes ∧ _ := normalizeVotes_spec skeleton kept store.latestVotes
  obtain ⟨newVotes, hnewVotes, hnormal'⟩ :
      ∃ votes, normalizeVotes store.latestNewVotes store.latestFinalized.root kept store.parents =
        some votes ∧ _ := normalizeVotes_spec skeleton kept store.latestNewVotes
  have hmem : ∀ r, r ∈ kept ↔ r ∈ rebuilt.nodeIndices := fun r =>
    (hkept r).trans htrimmed.kept.symm
  have hfinal : store.latestFinalized.root ∈ kept := (hkept _).mpr ⟨stored, .refl _ _⟩
  let counted : ForkChoiceStore :=
    { rebuilt with latestVotes := votes, latestNewVotes := newVotes }
  have hsame : SameTree rebuilt counted := ⟨rfl, rfl, rfl, rfl, rfl, .refl _⟩
  obtain ⟨voted, hcount, hconsistent, hvoted⟩ :
      ∃ voted, (counted.latestVotes.entries.map (·.2)).foldlM
        (fun store root => store.applyVoteDelta root 1) counted = some voted ∧ _ ∧ _ :=
    countVotes_spec (hskeleton.of_sameTree hsame) harena
      (fun v r h => (hmem r).mp (hnormal.mem_kept hfinal h))
      (fun v r h => (hmem r).mp (hnormal'.mem_kept hfinal h))
  -- the checkpoints fall back to the finalized block, which is there
  have hindices : voted.nodeIndices = rebuilt.nodeIndices := hvoted.tree.nodeIndices
  have hvotedFinal : voted.latestFinalized = store.latestFinalized :=
    hvoted.finalized.trans hrest.finalized
  have hvotedJustified : voted.latestJustified = store.latestJustified :=
    hvoted.justified.trans hrest.justified
  have hfinalMem : voted.latestFinalized.root ∈ voted.nodeIndices := by
    rw [hvotedFinal, hindices]
    exact (hmem _).mp hfinal
  have hreset : Consistent rank voted.resetCheckpoints :=
    hconsistent.congr ⟨rfl, rfl, rfl, rfl, rfl, .refl _⟩ rfl rfl rfl
  have hjustified : voted.resetCheckpoints.latestJustified =
      if voted.latestJustified.root ∈ voted.nodeIndices then voted.latestJustified
      else voted.latestFinalized := rfl
  have hknown : voted.resetCheckpoints.latestJustified.root ∈
      voted.resetCheckpoints.nodeIndices := by
    show _ ∈ voted.nodeIndices
    rw [hjustified]
    split
    · assumption
    · exact hfinalMem
  obtain ⟨head, hfound⟩ := hreset.findHead_returns
  have hhead : head ∈ voted.resetCheckpoints.nodeIndices := hreset.findHead_mem hknown hfound
  have hmoved : voted.resetCheckpoints.resetHead head =
      { voted.resetCheckpoints with
        head
        headSlot := (voted.resetCheckpoints.blockSlot head).getD
          voted.resetCheckpoints.latestFinalized.slot } := if_pos hhead
  have hheaded : Headed (voted.resetCheckpoints.resetHead head) := by
    rw [hmoved]
    refine headed_of_moved hfound (hreset.skeleton.stored.mpr hhead) rfl rfl rfl rfl ?_
    intro slot hslot
    refine ⟨rfl, ?_⟩
    show (voted.resetCheckpoints.blockSlot head).getD _ = slot
    rw [hslot]
    rfl
  have hresetHead : Consistent rank (voted.resetCheckpoints.resetHead head) := by
    rw [hmoved]
    exact hreset.congr ⟨rfl, rfl, rfl, rfl, rfl, .refl _⟩ rfl rfl rfl
  obtain ⟨pruned, hrefresh, hview⟩ := hresetHead.skeleton.refreshSafeTarget_spec
  have htree : SameTree rebuilt pruned := by
    refine hsame.trans (hvoted.tree.trans (SameTree.trans ?_ hview.tree))
    rw [hmoved]
    exact ⟨rfl, rfl, rfl, rfl, rfl, .refl _⟩
  refine ⟨pruned, ?_, hresetHead.of_sameView hview, ⟨htrimmed.congr htree, ?_, ?_,
    hheaded.of_sameView hview, kept, ?_, ?_, ?_⟩⟩
  · unfold pruneFinalizedHistory
    have hgo : ¬ (store.latestFinalized.root = Bytes32.zero ∨
        store.latestFinalized.root ∉ store.blocks) := by
      rintro (h | h)
      · exact skeleton.ne_zero stored h
      · exact h stored
    simp only [if_neg hgo, hkeep, hrebuild, hvotes, hnewVotes, Option.bind_eq_bind,
      Option.bind_some]
    have hcount' := hcount
    simp only [counted] at hcount'
    simp only [hcount', Option.bind_some, hfound, hrefresh]
  · rw [hview.finalized, hmoved]
    exact hvotedFinal
  · rw [hview.justified, hview.tree.nodeIndices, hmoved]
    show (if voted.latestJustified.root ∈ voted.nodeIndices then voted.latestJustified
      else voted.latestFinalized) = if _ ∈ voted.nodeIndices then _ else _
    rw [hvotedJustified, hvotedFinal]
  · intro r
    rw [hmem, htree.nodeIndices]
  · rw [hview.votes, hmoved]
    show Normalized _ _ _ voted.latestVotes
    rw [hvoted.votes]
    exact hnormal
  · rw [hview.newVotes, hmoved]
    show Normalized _ _ _ voted.latestNewVotes
    rw [hvoted.newVotes]
    exact hnormal'

end Peam
