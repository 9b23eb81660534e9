import Peam.ForkChoice
import Mathlib.Data.Finset.Card

/-!
# Laws of the arena

`Arena nodes weights`: children are the inverse of the parent links, every node carries its weight,
and every `bestChild` is what a fresh scan of the children would find. A change of weight is pushed
up the parent links node by node; after each turn the arena is in order again, with the weights
changed on the part of the path already walked (`Arena.propagate`). Hanging a node below another
adds its weight to everything above (`Arena.attach`).

The links are assumed to fall in some rank, which is how the absence of cycles is used: a walk up
visits a node once, so the bound of the loop is never reached.
-/

namespace Peam

open Loops (iterate_of_variant)
open Forests
open Function (update update_self update_of_ne)

variable {root : Bytes32} {node' : ProtoNode} {up : Nat → Option Nat} {rank : Nat → Nat}

/-- The parent links of an arena. -/
def upOf (nodes : List ProtoNode) (i : Nat) : Option Nat := (nodes[i]?).bind (·.parent)

/-- The root of the node at an index. -/
def rootAt (nodes : List ProtoNode) (i : Nat) : Option Bytes32 := (nodes[i]?).map (·.root)

/-- An arena in order, with the given weights. -/
structure Arena (nodes : List ProtoNode) (weights : Nat → Int) : Prop where
  range : ∀ {i p : Nat}, upOf nodes i = some p → p < nodes.length
  children : ∀ {i : Nat} {node : ProtoNode}, nodes[i]? = some node →
    ∀ c, c ∈ node.children ↔ upOf nodes c = some i
  weight : ∀ {i : Nat} {node : ProtoNode}, nodes[i]? = some node → node.weight = weights i
  best : ∀ {i : Nat} {node : ProtoNode}, nodes[i]? = some node →
    node.bestChild = bestChildOf nodes node.children

variable {nodes nodes' : List ProtoNode} {weights : Nat → Int} {i p c idx : Nat} {delta : Int}
  {node : ProtoNode}

/-! ## Lookups -/

theorem lt_of_upOf (h : upOf nodes i = some p) : i < nodes.length := by
  obtain ⟨node, hnode, -⟩ := Option.bind_eq_some_iff.mp h
  exact (List.getElem?_eq_some_iff.mp hnode).1

/-- Every node has a root. -/
theorem exists_rootAt (h : i < nodes.length) : ∃ root, rootAt nodes i = some root := by
  refine ⟨nodes[i].root, ?_⟩
  rw [rootAt, List.getElem?_eq_getElem h]
  rfl

theorem rootAt_length (nodes : List ProtoNode) : rootAt nodes nodes.length = none := by
  rw [rootAt, List.getElem?_eq_none (le_refl _)]
  rfl

theorem lt_of_rootAt (h : rootAt nodes i = some root) : i < nodes.length := by
  rw [rootAt, Option.map_eq_some_iff] at h
  obtain ⟨node, hnode, _⟩ := h
  exact (List.getElem?_eq_some_iff.mp hnode).1

theorem upOf_of_lookup (h : nodes[i]? = some node) : upOf nodes i = node.parent := by
  rw [upOf, h]
  rfl

private theorem getElem?_addWeight (nodes : List ProtoNode) (idx : Nat) (delta : Int) (i : Nat) :
    (addWeight nodes idx delta)[i]? = (nodes[i]?).map fun node =>
      if idx = i then { node with weight := node.weight + delta } else node := by
  rw [addWeight, List.getElem?_modify]
  rfl

/-- A scan writes one best child. -/
theorem getElem?_recomputeBestChild (nodes : List ProtoNode) (p i : Nat) :
    (recomputeBestChild nodes p)[i]? = (nodes[i]?).map fun node =>
      if p = i then { node with bestChild := bestChildOf nodes node.children } else node := by
  rw [recomputeBestChild, List.getElem?_modify]
  rfl

/-! ## Shape -/

/-- A node without the two fields that votes change. -/
def ProtoNode.shape (node : ProtoNode) : ProtoNode := { node with weight := 0, bestChild := none }

/-- Only weights and best children differ. -/
def SameShape (nodes nodes' : List ProtoNode) : Prop :=
  nodes'.map ProtoNode.shape = nodes.map ProtoNode.shape

namespace SameShape

theorem refl (nodes : List ProtoNode) : SameShape nodes nodes := rfl

section

variable (h : SameShape nodes nodes')

include h

theorem trans {nodes'' : List ProtoNode}
    (h' : SameShape nodes' nodes'') : SameShape nodes nodes'' := Eq.trans h' h

theorem length_eq : nodes'.length = nodes.length := by
  have := congrArg List.length h
  rwa [List.length_map, List.length_map] at this

theorem lookup (hnode : nodes'[i]? = some node') :
    ∃ node, nodes[i]? = some node ∧ node'.shape = node.shape := by
  have hat : (nodes[i]?).map ProtoNode.shape = some node'.shape := by
    rw [← List.getElem?_map, ← h, List.getElem?_map, hnode, Option.map_some]
  obtain ⟨node, hold, hshape⟩ := Option.map_eq_some_iff.mp hat
  exact ⟨node, hold, hshape.symm⟩

private theorem map_eq {β : Type} (read : ProtoNode → β)
    (reads : ∀ node, read node = read node.shape) (i : Nat) :
    (nodes'[i]?).map read = (nodes[i]?).map read := by
  have hat : (nodes'[i]?).map ProtoNode.shape = (nodes[i]?).map ProtoNode.shape := by
    rw [← List.getElem?_map, ← List.getElem?_map, h]
  have hfun : read = read ∘ ProtoNode.shape := funext reads
  rw [hfun, ← Option.map_map, ← Option.map_map, hat]

theorem rootAt_eq : rootAt nodes' = rootAt nodes := by
  funext i
  exact h.map_eq (·.root) (fun _ => rfl) i

theorem upOf_eq : upOf nodes' = upOf nodes := by
  funext i
  have hjoin : ∀ nodes : List ProtoNode, upOf nodes i = ((nodes[i]?).map (·.parent)).join := by
    intro nodes
    unfold upOf
    cases nodes[i]? <;> rfl
  rw [hjoin, hjoin, h.map_eq (·.parent) (fun _ => rfl)]

end

end SameShape

private theorem sameShape_addWeight (nodes : List ProtoNode) (idx : Nat) (delta : Int) :
    SameShape nodes (addWeight nodes idx delta) := by
  apply List.ext_getElem?
  intro i
  rw [List.getElem?_map, List.getElem?_map, getElem?_addWeight, Option.map_map]
  congr 1
  funext node
  show (if idx = i then _ else node).shape = node.shape
  split <;> rfl

/-- A scan changes no link and no weight. -/
theorem sameShape_recomputeBestChild (nodes : List ProtoNode) (p : Nat) :
    SameShape nodes (recomputeBestChild nodes p) := by
  apply List.ext_getElem?
  intro i
  rw [List.getElem?_map, List.getElem?_map, getElem?_recomputeBestChild, Option.map_map]
  congr 1
  funext node
  show (if p = i then _ else node).shape = node.shape
  split <;> rfl

/-! ## The best child -/

/-- What `child_is_better` reads of a node. -/
def standingAt (nodes : List ProtoNode) (i : Nat) : Option (Int × Bytes32) :=
  (nodes[i]?).map fun node => (node.weight, node.root)

private theorem childIsBetter_congr {j : Nat} (hi : standingAt nodes i = standingAt nodes' i)
    (hj : standingAt nodes j = standingAt nodes' j) :
    childIsBetter nodes i j = childIsBetter nodes' i j := by
  unfold standingAt at hi hj
  unfold childIsBetter
  cases ha : nodes[i]? <;> cases hb : nodes'[i]? <;> rw [ha, hb] at hi <;>
    cases hc : nodes[j]? <;> cases hd : nodes'[j]? <;> rw [hc, hd] at hj <;> simp_all

/-- The scan reads weights and roots of the children only. -/
theorem bestChildOf_congr {children : List Nat}
    (agree : ∀ c ∈ children, standingAt nodes c = standingAt nodes' c) :
    bestChildOf nodes children = bestChildOf nodes' children :=
  (pick_congr fun x hx y hy => childIsBetter_congr (agree x hx) (agree y hy)).1

theorem standingAt_recomputeBestChild (nodes : List ProtoNode) (p i : Nat) :
    standingAt (recomputeBestChild nodes p) i = standingAt nodes i := by
  rw [standingAt, getElem?_recomputeBestChild, standingAt, Option.map_map]
  congr 1
  funext node
  show ((if p = i then _ else node).weight, (if p = i then _ else node).root) = _
  split <;> rfl

private theorem standingAt_addWeight_of_ne (h : idx ≠ i) :
    standingAt (addWeight nodes idx delta) i = standingAt nodes i := by
  rw [standingAt, getElem?_addWeight, standingAt, Option.map_map]
  congr 1
  funext node
  show ((if idx = i then _ else node).weight, (if idx = i then _ else node).root) = _
  rw [if_neg h]

private theorem bestChildOf_recomputeBestChild (nodes : List ProtoNode) (p : Nat)
    (children : List Nat) :
    bestChildOf (recomputeBestChild nodes p) children = bestChildOf nodes children :=
  bestChildOf_congr fun c _ => standingAt_recomputeBestChild nodes p c

/-! ## Reweighing one node -/

section

variable (arena : Arena nodes weights)

include arena

private theorem Arena.reshape (shape : SameShape nodes nodes')
    {weights' : Nat → Int}
    (weight : ∀ {i : Nat} {node : ProtoNode}, nodes'[i]? = some node → node.weight = weights' i)
    (best : ∀ {i : Nat} {node : ProtoNode}, nodes'[i]? = some node →
      node.bestChild = bestChildOf nodes' node.children) :
    Arena nodes' weights' where
  range := by
    intro i p h
    rw [shape.upOf_eq] at h
    rw [shape.length_eq]
    exact arena.range h
  children := by
    intro i node' h c
    obtain ⟨node, hnode, hshape⟩ := shape.lookup h
    have hchildren : node'.children = node.children :=
      show node'.shape.children = node.shape.children by rw [hshape]
    rw [hchildren, shape.upOf_eq]
    exact arena.children hnode c
  weight := weight
  best := best

private theorem weight_addWeight
    (h : (addWeight nodes idx delta)[i]? = some node') :
    node'.weight = update weights idx (weights idx + delta) i := by
  rw [getElem?_addWeight, Option.map_eq_some_iff] at h
  obtain ⟨node, hnode, rfl⟩ := h
  by_cases hi : idx = i
  · subst hi
    rw [if_pos rfl, update_self]
    show node.weight + delta = _
    rw [arena.weight hnode]
  · rw [if_neg hi, update_of_ne (Ne.symm hi)]
    exact arena.weight hnode

/-- Only the parent of a reweighed node has to scan its children again. -/
private theorem best_addWeight
    (h : (addWeight nodes idx delta)[i]? = some node') (hne : upOf nodes idx ≠ some i) :
    node'.bestChild = bestChildOf (addWeight nodes idx delta) node'.children := by
  rw [getElem?_addWeight, Option.map_eq_some_iff] at h
  obtain ⟨node, hnode, rfl⟩ := h
  have hfields : (if idx = i then { node with weight := node.weight + delta } else node).bestChild =
      node.bestChild ∧
      (if idx = i then { node with weight := node.weight + delta } else node).children =
        node.children := by
    split <;> exact ⟨rfl, rfl⟩
  rw [hfields.1, hfields.2, arena.best hnode]
  refine bestChildOf_congr fun c hc => (standingAt_addWeight_of_ne ?_).symm
  rintro rfl
  exact hne ((arena.children hnode _).mp hc)

private theorem Arena.addWeight_top (top : upOf nodes idx = none)
    (delta : Int) :
    Arena (addWeight nodes idx delta) (update weights idx (weights idx + delta)) := by
  refine arena.reshape (sameShape_addWeight nodes idx delta) (weight_addWeight arena) ?_
  intro i node' h
  apply best_addWeight arena h
  rw [top]
  exact (Option.some_ne_none i).symm

/-- A node below `p` reweighed and `p` scanned again leaves the arena in order. -/
theorem Arena.addWeight_below (below : upOf nodes idx = some p)
    (delta : Int) :
    Arena (recomputeBestChild (addWeight nodes idx delta) p)
      (update weights idx (weights idx + delta)) := by
  have hshape := (sameShape_addWeight nodes idx delta).trans
    (sameShape_recomputeBestChild (addWeight nodes idx delta) p)
  refine arena.reshape hshape ?_ ?_
  · intro i node' h
    rw [getElem?_recomputeBestChild, Option.map_eq_some_iff] at h
    obtain ⟨node, hnode, rfl⟩ := h
    have hweight := weight_addWeight arena hnode
    split <;> exact hweight
  · intro i node' h
    rw [bestChildOf_recomputeBestChild]
    rw [getElem?_recomputeBestChild, Option.map_eq_some_iff] at h
    obtain ⟨node, hnode, rfl⟩ := h
    by_cases hi : p = i
    · rw [if_pos hi]
    · rw [if_neg hi]
      apply best_addWeight arena hnode
      rw [below, ne_eq, Option.some_inj]
      exact hi

end

/-! ## Propagation -/

open Classical in
/-- The weights once `delta` has been added along the path from `start` to just below `idx`. -/
private noncomputable def walked (up : Nat → Option Nat) (weights : Nat → Int) (start : Nat)
    (delta : Int) (idx i : Nat) : Int :=
  weights i + if Climbs up start i ∧ ¬ Climbs up idx i then delta else 0

private theorem walked_start (up : Nat → Option Nat) (weights : Nat → Int) (start : Nat)
    (delta : Int) : walked up weights start delta start = weights := by
  funext i
  rw [walked, if_neg fun h => h.2 h.1, Int.add_zero]

open Classical in
private theorem walked_step (falls : Falls up rank) {start : Nat} (reached : Climbs up start idx)
    (below : up idx = some p) :
    update (walked up weights start delta idx) idx
        (walked up weights start delta idx idx + delta) =
      walked up weights start delta p := by
  funext i
  by_cases hi : i = idx
  · subst hi
    rw [update_self, walked, walked, if_neg fun h => h.2 (.refl up _),
      if_pos ⟨reached, falls.not_climbs below⟩, Int.add_zero]
  · rw [update_of_ne hi, walked, walked]
    have hsame : Climbs up idx i ↔ Climbs up p i := by
      rw [climbs_of_up below]
      exact or_iff_right (Ne.symm hi)
    rw [if_congr (and_congr_right' (not_congr hsame)) rfl rfl]

open Classical in
private theorem walked_top {start : Nat} (reached : Climbs up start idx) (top : up idx = none) :
    update (walked up weights start delta idx) idx
        (walked up weights start delta idx idx + delta) =
      fun i => weights i + if Climbs up start i then delta else 0 := by
  funext i
  by_cases hi : i = idx
  · subst hi
    rw [update_self, walked, if_neg fun h => h.2 (.refl up _), if_pos reached,
      Int.add_zero]
  · rw [update_of_ne hi, walked]
    have hnot : ¬ Climbs up idx i := fun h => hi ((climbs_of_top top).mp h).symm
    rw [if_congr (and_iff_left hnot) rfl rfl]

open Classical in
/-- `propagate_weight_from_index` returns, and adds `delta` to the start and everything above. -/
theorem Arena.propagate (arena : Arena nodes weights) (falls : Falls (upOf nodes) rank)
    (start : Nat) (delta : Int) :
    ∃ nodes', propagateWeightFromIndex nodes start delta = some nodes' ∧
      SameShape nodes nodes' ∧
      Arena nodes' fun i => weights i + if Climbs (upOf nodes) start i then delta else 0 := by
  -- the path walked so far, and how much of the arena is left above
  let Inv : List ProtoNode × Nat → Prop := fun state =>
    SameShape nodes state.1 ∧ Climbs (upOf nodes) start state.2 ∧
      Arena state.1 (walked (upOf nodes) weights start delta state.2)
  let variant : List ProtoNode × Nat → Nat := fun state =>
    ((Finset.range nodes.length).filter fun j => rank j < rank state.2).card
  have hstart : Inv (nodes, start) := by
    refine ⟨.refl nodes, .refl _ start, ?_⟩
    show Arena nodes (walked (upOf nodes) weights start delta start)
    rw [walked_start]
    exact arena
  have hparent : ∀ state : List ProtoNode × Nat, SameShape nodes state.1 →
      ((addWeight state.1 state.2 delta)[state.2]?).bind (·.parent) = upOf nodes state.2 := by
    intro state hshape
    show upOf (addWeight state.1 state.2 delta) state.2 = _
    rw [(hshape.trans (sameShape_addWeight state.1 state.2 delta)).upOf_eq]
  have hvariant : variant (nodes, start) < nodes.length + 1 := by
    have hle := Finset.card_filter_le (Finset.range nodes.length) fun j => rank j < rank start
    rw [Finset.card_range] at hle
    exact Nat.lt_succ_of_le hle
  refine iterate_of_variant Inv _ variant ?_ ?_ hstart hvariant
  · rintro ⟨current, idx⟩ next ⟨hshape, hreached, harena⟩ hturn
    simp only [propagateTurn, hparent (current, idx) hshape] at hturn
    split at hturn
    · next p hup =>
      cases hturn
      refine ⟨⟨?_, ?_, ?_⟩, ?_⟩
      · exact (hshape.trans (sameShape_addWeight current idx delta)).trans
          (sameShape_recomputeBestChild _ p)
      · exact hreached.trans (.step hup (.refl _ p))
      · have hup' : upOf current idx = some p := by rw [hshape.upOf_eq, hup]
        show Arena _ (walked (upOf nodes) weights start delta p)
        rw [← walked_step falls hreached hup]
        exact harena.addWeight_below hup' delta
      · exact card_filter_lt (r := fun j k => rank j < rank k) lt_trans (fun _ => lt_irrefl _)
          (Finset.mem_range.mpr (arena.range hup)) (falls hup)
    · cases hturn
  · rintro ⟨current, idx⟩ result ⟨hshape, hreached, harena⟩ hturn
    simp only [propagateTurn, hparent (current, idx) hshape] at hturn
    split at hturn
    · cases hturn
    · next hup =>
      cases hturn
      have hup' : upOf current idx = none := by rw [hshape.upOf_eq, hup]
      refine ⟨hshape.trans (sameShape_addWeight current idx delta), ?_⟩
      rw [← walked_top hreached hup]
      exact harena.addWeight_top hup' delta

/-! ## New nodes -/

private theorem length_recomputeBestChild (nodes : List ProtoNode) (p : Nat) :
    (recomputeBestChild nodes p).length = nodes.length :=
  (sameShape_recomputeBestChild nodes p).length_eq

/-- A fresh node without a parent changes no link. -/
theorem upOf_push (nodes : List ProtoNode) (root : Bytes32) (slot proposerIndex : Nat) :
    upOf (nodes ++ [ProtoNode.fresh root none slot proposerIndex]) = upOf nodes := by
  funext i
  unfold upOf
  rcases lt_trichotomy i nodes.length with hlt | heq | hgt
  · rw [List.getElem?_append_left hlt]
  · subst heq
    rw [List.getElem?_concat_length, List.getElem?_eq_none (le_refl _)]
    rfl
  · rw [List.getElem?_eq_none hgt.le, List.getElem?_eq_none]
    rw [List.length_append]
    exact hgt

/-- A new node comes last. -/
theorem rootAt_push (nodes : List ProtoNode) (root : Bytes32) (slot proposerIndex i : Nat) :
    rootAt (nodes ++ [ProtoNode.fresh root none slot proposerIndex]) i =
      if i = nodes.length then some root else rootAt nodes i := by
  unfold rootAt
  rcases lt_trichotomy i nodes.length with hlt | heq | hgt
  · rw [List.getElem?_append_left hlt, if_neg hlt.ne]
  · subst heq
    rw [List.getElem?_concat_length, if_pos rfl]
    rfl
  · rw [if_neg hgt.ne', List.getElem?_eq_none hgt.le, List.getElem?_eq_none]
    rw [List.length_append]
    exact hgt

private theorem getElem?_push {slot proposerIndex : Nat}
    (h : (nodes ++ [ProtoNode.fresh root none slot proposerIndex])[i]? = some node) :
    nodes[i]? = some node ∨
      i = nodes.length ∧ node = ProtoNode.fresh root none slot proposerIndex := by
  rcases lt_or_ge i nodes.length with hlt | hge
  · rw [List.getElem?_append_left hlt] at h
    exact .inl h
  · rw [List.getElem?_append_right hge] at h
    obtain ⟨hi, hnode⟩ := List.getElem?_eq_some_iff.mp h
    have hlen : i - nodes.length < 1 := hi
    have hi0 : i - nodes.length = 0 := by omega
    refine .inr ⟨by omega, ?_⟩
    rw [← hnode]
    simp [hi0]

/-- A fresh node that has no weight yet leaves the arena in order. -/
theorem Arena.push (arena : Arena nodes weights) (root : Bytes32) (slot proposerIndex : Nat)
    (light : weights nodes.length = 0) :
    Arena (nodes ++ [ProtoNode.fresh root none slot proposerIndex]) weights where
  range := by
    intro i p h
    rw [upOf_push] at h
    rw [List.length_append]
    exact (arena.range h).trans (Nat.lt_succ_self _)
  children := by
    intro i node h c
    rw [upOf_push]
    rcases getElem?_push h with hold | ⟨rfl, rfl⟩
    · exact arena.children hold c
    · refine iff_of_false List.not_mem_nil fun hup => ?_
      exact absurd (arena.range hup) (lt_irrefl _)
  weight := by
    intro i node h
    rcases getElem?_push h with hold | ⟨rfl, rfl⟩
    · exact arena.weight hold
    · exact light.symm
  best := by
    intro i node h
    rcases getElem?_push h with hold | ⟨rfl, rfl⟩
    · rw [arena.best hold]
      refine bestChildOf_congr fun c hc => ?_
      have hlt := lt_of_upOf ((arena.children hold c).mp hc)
      rw [standingAt, standingAt, List.getElem?_append_left hlt]
    · rfl

/-! ## Attaching -/

private theorem getElem?_linkChild (arena : Arena nodes weights) (top : upOf nodes c = none)
    (apart : c ≠ p) (i : Nat) :
    (linkChild nodes p c)[i]? = (nodes[i]?).map fun node =>
      if c = i then { node with parent := some p }
      else if p = i then { node with children := node.children ++ [c] } else node := by
  rw [linkChild, List.getElem?_modify, List.getElem?_modify]
  cases hnode : nodes[i]? with
  | none => rfl
  | some node =>
    apply congrArg some
    by_cases hc : c = i
    · subst hc
      simp only [if_pos, if_neg (Ne.symm apart)]
    · simp only [if_neg hc]
      by_cases hp : p = i
      · subst hp
        have hnew : c ∉ node.children := by
          rw [arena.children hnode, top]
          exact (Option.some_ne_none p).symm
        simp only [if_pos, if_neg hnew]
      · simp only [if_neg hp]

private theorem length_linkChild (nodes : List ProtoNode) (p c : Nat) :
    (linkChild nodes p c).length = nodes.length := by
  rw [linkChild, List.length_modify, List.length_modify]

section Link

variable (arena : Arena nodes weights) (top : upOf nodes c = none) (apart : c ≠ p)
include arena top apart

private theorem upOf_linkChild (present : c < nodes.length) :
    upOf (linkChild nodes p c) = hang (upOf nodes) c p := by
  funext i
  rw [upOf, getElem?_linkChild arena top apart]
  by_cases hi : i = c
  · subst hi
    rw [hang, update_self, List.getElem?_eq_getElem present]
    simp
  · rw [hang, update_of_ne hi, upOf]
    cases nodes[i]? with
    | none => rfl
    | some node =>
      show (if c = i then _ else if p = i then _ else node).parent = node.parent
      rw [if_neg (Ne.symm hi)]
      split <;> rfl

private theorem standingAt_linkChild (i : Nat) :
    standingAt (linkChild nodes p c) i = standingAt nodes i := by
  rw [standingAt, getElem?_linkChild arena top apart, standingAt, Option.map_map]
  congr 1
  funext node
  show ((if c = i then _ else if p = i then _ else node).weight,
    (if c = i then _ else if p = i then _ else node).root) = _
  split
  · rfl
  · split <;> rfl

private theorem rootAt_linkChild : rootAt (linkChild nodes p c) = rootAt nodes := by
  funext i
  have hstanding := congrArg (Option.map Prod.snd) (standingAt_linkChild arena top apart i)
  rw [standingAt, standingAt, Option.map_map, Option.map_map] at hstanding
  exact hstanding

/-- `c` linked below `p` and `p` scanned again: the arena is in order, but for the weight that `c`
still has to hand up. -/
theorem Arena.link (present : c < nodes.length) (inside : p < nodes.length) :
    Arena (recomputeBestChild (linkChild nodes p c) p) weights := by
  have hup : upOf (recomputeBestChild (linkChild nodes p c) p) = hang (upOf nodes) c p := by
    rw [(sameShape_recomputeBestChild _ p).upOf_eq, upOf_linkChild arena top apart present]
  have hstand : ∀ i, standingAt (recomputeBestChild (linkChild nodes p c) p) i =
      standingAt nodes i := by
    intro i
    rw [standingAt_recomputeBestChild, standingAt_linkChild arena top apart]
  have hlook : ∀ {i node'}, (recomputeBestChild (linkChild nodes p c) p)[i]? = some node' →
      ∃ node, nodes[i]? = some node ∧ node'.weight = node.weight ∧
        node'.children = (if p = i then node.children ++ [c] else node.children) ∧
        (p ≠ i → node'.bestChild = node.bestChild) ∧
        (p = i → node'.bestChild = bestChildOf (linkChild nodes p c) node'.children) := by
    intro i node' h
    rw [getElem?_recomputeBestChild, getElem?_linkChild arena top apart, Option.map_map,
      Option.map_eq_some_iff] at h
    obtain ⟨node, hnode, rfl⟩ := h
    refine ⟨node, hnode, ?_⟩
    by_cases hp : p = i
    · subst hp
      simp [apart]
    · by_cases hc : c = i
      · subst hc
        simp [hp]
      · simp [hp, hc]
  refine ⟨?_, ?_, ?_, ?_⟩
  · intro i q h
    rw [hup] at h
    rw [length_recomputeBestChild, length_linkChild]
    by_cases hi : i = c
    · subst hi
      rw [hang, update_self, Option.some_inj] at h
      exact h ▸ inside
    · rw [hang, update_of_ne hi] at h
      exact arena.range h
  · intro i node' h x
    obtain ⟨node, hnode, _, hchildren, _⟩ := hlook h
    rw [hup, hchildren]
    have hold := arena.children hnode x
    by_cases hx : x = c
    · subst hx
      rw [top] at hold
      have hnot : x ∉ node.children := fun hmem => Option.some_ne_none i (hold.mp hmem).symm
      rw [hang, update_self, Option.some_inj]
      by_cases hp : p = i
      · simp [hp]
      · simp [hp, hnot]
    · rw [hang, update_of_ne hx, ← hold]
      by_cases hp : p = i
      · simp [hp, hx]
      · simp [hp]
  · intro i node' h
    obtain ⟨node, hnode, hweight, _⟩ := hlook h
    rw [hweight, arena.weight hnode]
  · intro i node' h
    obtain ⟨node, hnode, _, hchildren, hother, hself⟩ := hlook h
    by_cases hp : p = i
    · rw [hself hp]
      refine bestChildOf_congr fun x _ => ?_
      rw [hstand, standingAt_linkChild arena top apart]
    · rw [hother hp, hchildren, if_neg hp, arena.best hnode]
      exact bestChildOf_congr fun x _ => (hstand x).symm

end Link

open Classical in
/-- `attach_child` on a node without a parent returns; the node hangs below its parent and its
weight has been handed up. -/
theorem Arena.attach (arena : Arena nodes weights) (top : upOf nodes c = none)
    (present : c < nodes.length) (inside : p < nodes.length)
    (falls : Falls (hang (upOf nodes) c p) rank) :
    ∃ nodes', attachChild nodes p c = some nodes' ∧ rootAt nodes' = rootAt nodes ∧
      nodes'.length = nodes.length ∧ upOf nodes' = hang (upOf nodes) c p ∧
      Arena nodes' fun i => weights i + if Climbs (upOf nodes) p i then weights c else 0 := by
  have hcp : hang (upOf nodes) c p c = some p := update_self ..
  have hfree : ¬ Climbs (upOf nodes) p c := fun h =>
    falls.not_climbs hcp (climbs_hang_of_climbs top h)
  have hapart : c ≠ p := fun h => hfree (h ▸ .refl _ c)
  have hlinked := arena.link top hapart present inside
  have hup : upOf (recomputeBestChild (linkChild nodes p c) p) = hang (upOf nodes) c p := by
    rw [(sameShape_recomputeBestChild _ p).upOf_eq, upOf_linkChild arena top hapart present]
  have hroot : rootAt (recomputeBestChild (linkChild nodes p c) p) = rootAt nodes := by
    rw [(sameShape_recomputeBestChild _ p).rootAt_eq, rootAt_linkChild arena top hapart]
  have hlength : (recomputeBestChild (linkChild nodes p c) p).length = nodes.length := by
    rw [length_recomputeBestChild, length_linkChild]
  -- above `p` the climbs are the old ones
  have hclimbs : ∀ i, Climbs (hang (upOf nodes) c p) p i ↔ Climbs (upOf nodes) p i := by
    intro i
    rw [climbs_hang_iff top]
    exact or_iff_left fun h => hfree h.1
  obtain ⟨child, hchild⟩ : ∃ child, nodes[c]? = some child :=
    ⟨nodes[c], List.getElem?_eq_getElem present⟩
  have hparent : child.parent.isSome = false := by
    rw [← upOf_of_lookup hchild, top]
    rfl
  have hweight : child.weight = weights c := arena.weight hchild
  unfold attachChild
  rw [hchild]
  show ∃ nodes', (if child.parent.isSome = true then some nodes else _) = some nodes' ∧ _
  rw [hparent, if_neg Bool.false_ne_true]
  by_cases hzero : child.weight = 0
  · refine ⟨_, if_neg (not_not.mpr hzero), hroot, hlength, hup, ?_⟩
    rw [hweight] at hzero
    simpa only [hzero, ite_self, Int.add_zero] using hlinked
  · obtain ⟨nodes', hrun, hshape, harena⟩ := hlinked.propagate (hup ▸ falls) p (weights c)
    refine ⟨nodes', ?_, ?_, ?_, ?_, ?_⟩
    · rw [if_pos hzero, hweight]
      exact hrun
    · rw [hshape.rootAt_eq, hroot]
    · rw [hshape.length_eq, hlength]
    · rw [hshape.upOf_eq, hup]
    · simpa only [hup, hclimbs] using harena

end Peam
