import Peam.Laws.ForkChoice

/-!
# Laws of the fork choice store: blocks

A store starts with one anchor, and blocks are added to it in any order. A new block is hung below
its parent if that is stored, and the blocks that arrived before it are hung below it; a block that
is stored already changes nothing in the tree. Either way the store stays consistent.
-/

namespace Peam

open Loops (foldlM_of_step)
open Forests
open Option (some_inj)

variable {ssz : Ssz} {rank : Bytes32 → Nat} {i : Nat} {r key : Bytes32}
  {children : RapidHashMap (List Bytes32)}

/-! ## Hanging with votes -/

variable {nodes : List ProtoNode}

/-- `attach_child` keeps the weights equal to the supports. -/
theorem Arena.attach_support {vote : Nat → Option Nat} {c p : Nat}
    {rankAt : Nat → Nat} (finite : FiniteVotes vote)
    (arena : Arena nodes fun i => (support (upOf nodes) vote i : Nat))
    (top : upOf nodes c = none) (present : c < nodes.length) (inside : p < nodes.length)
    (falls : Falls (hang (upOf nodes) c p) rankAt) :
    ∃ nodes', attachChild nodes p c = some nodes' ∧ rootAt nodes' = rootAt nodes ∧
      nodes'.length = nodes.length ∧ upOf nodes' = hang (upOf nodes) c p ∧
      Arena nodes' fun i => (support (upOf nodes') vote i : Nat) := by
  classical
  obtain ⟨nodes', hrun, hroot, hlength, hup, harena⟩ := arena.attach top present inside falls
  refine ⟨nodes', hrun, hroot, hlength, hup, ?_⟩
  have hcp : hang (upOf nodes) c p c = some p := Function.update_self ..
  have hfree : ¬ Climbs (upOf nodes) p c := fun h =>
    falls.not_climbs hcp (climbs_hang_of_climbs top h)
  convert harena using 2 with i
  rw [hup, support_hang finite top hfree]
  push_cast
  rfl

private theorem attachChild_of_attached {c p q : Nat}
    (h : upOf nodes c = some q) : attachChild nodes p c = some nodes := by
  have hlt := lt_of_upOf h
  have hnode : nodes[c]? = some nodes[c] := List.getElem?_eq_getElem hlt
  rw [upOf_of_lookup hnode] at h
  unfold attachChild
  rw [hnode]
  show (if nodes[c].parent.isSome = true then some nodes else _) = _
  rw [h]
  rfl

/-! ## Hanging what is due -/

/-- An arena between two attachments: it is in order and its links are the recorded ones, but for
those still due. -/
structure Hanging (roots : Nat → Option Bytes32) (parents : RapidHashMap Bytes32)
    (vote : Nat → Option Nat) (due : Bytes32 → Bytes32 → Prop) (nodes : List ProtoNode) : Prop where
  roots_eq : rootAt nodes = roots
  arena : Arena nodes fun i => (support (upOf nodes) vote i : Nat)
  linked : ∀ {i p r q}, roots i = some r → roots p = some q →
    (upOf nodes i = some p ↔ parents.lookup r = some q ∧ ¬ due r q)

/-- What holds of roots and recorded links while blocks are hung. -/
structure HangingBase (rank : Bytes32 → Nat) (roots : Nat → Option Bytes32)
    (parents : RapidHashMap Bytes32) : Prop where
  inj : ∀ {i j r}, roots i = some r → roots j = some r → i = j
  nonzero : ∀ {i}, roots i ≠ some Bytes32.zero
  falls : ∀ {r q}, parents.lookup r = some q → q ≠ Bytes32.zero → rank q < rank r

namespace Hanging

variable {roots : Nat → Option Bytes32} {parents : RapidHashMap Bytes32}
  {vote : Nat → Option Nat} {due due' : Bytes32 → Bytes32 → Prop} {nodes : List ProtoNode}

section

variable (hanging : Hanging roots parents vote due nodes)

include hanging

private theorem lt_of_root (h : roots i = some r) :
    i < nodes.length := by
  rw [← hanging.roots_eq] at h
  exact lt_of_rootAt h

private theorem root_of_lt (h : i < nodes.length) :
    ∃ r, roots i = some r := by
  rw [← hanging.roots_eq]
  exact exists_rootAt h

private theorem weaken
    (same : ∀ {i p r q}, roots i = some r → roots p = some q → parents.lookup r = some q →
      (due r q ↔ due' r q)) : Hanging roots parents vote due' nodes where
  roots_eq := hanging.roots_eq
  arena := hanging.arena
  linked := by
    intro i p r q hi hp
    rw [hanging.linked hi hp]
    constructor
    · rintro ⟨hlink, hnot⟩
      exact ⟨hlink, fun h => hnot ((same hi hp hlink).mpr h)⟩
    · rintro ⟨hlink, hnot⟩
      exact ⟨hlink, fun h => hnot ((same hi hp hlink).mp h)⟩

/-- Links not yet due fall in rank. -/
theorem falls
    (base : HangingBase rank roots parents) :
    Falls (upOf nodes) fun i => ((roots i).map rank).getD 0 := by
  intro i p hup
  obtain ⟨r, hr⟩ := hanging.root_of_lt (lt_of_upOf hup)
  obtain ⟨q, hq⟩ := hanging.root_of_lt (hanging.arena.range hup)
  have hlink := ((hanging.linked hr hq).mp hup).1
  show ((roots p).map rank).getD 0 < ((roots i).map rank).getD 0
  rw [hr, hq]
  exact base.falls hlink fun h => base.nonzero (h ▸ hq)

/-- `attach_child` along a recorded link: that block's link is no longer due. -/
theorem attach
    (base : HangingBase rank roots parents) (finite : FiniteVotes vote) {c p : Nat} {q : Bytes32}
    (hc : roots c = some r) (hp : roots p = some q) (link : parents.lookup r = some q) :
    ∃ nodes', attachChild nodes p c = some nodes' ∧
      Hanging roots parents vote (fun r' q' => due r' q' ∧ r' ≠ r) nodes' := by
  cases hup : upOf nodes c with
  | some p' =>
    -- attached already, by the same link
    obtain ⟨q', hq'⟩ := hanging.root_of_lt (hanging.arena.range hup)
    obtain ⟨hlink', hdone⟩ := (hanging.linked hc hq').mp hup
    rw [link, some_inj] at hlink'
    subst hlink'
    refine ⟨nodes, attachChild_of_attached hup, hanging.weaken ?_⟩
    intro i p r' q' _ _ hlink
    by_cases hr : r' = r
    · subst hr
      rw [link, some_inj] at hlink
      subst hlink
      simp [hdone]
    · simp [hr]
  | none =>
    have hrank : rank q < rank r := base.falls link fun h => base.nonzero (h ▸ hp)
    have hfalls : Falls (hang (upOf nodes) c p) fun i => ((roots i).map rank).getD 0 := by
      intro i j hij
      by_cases hi : i = c
      · subst hi
        rw [hang, Function.update_self, some_inj] at hij
        subst hij
        show ((roots p).map rank).getD 0 < ((roots i).map rank).getD 0
        rw [hc, hp]
        exact hrank
      · rw [hang, Function.update_of_ne hi] at hij
        exact hanging.falls base hij
    obtain ⟨nodes', hrun, hroots, _, hup', harena⟩ := hanging.arena.attach_support finite hup
      (hanging.lt_of_root hc) (hanging.lt_of_root hp) hfalls
    refine ⟨nodes', hrun, hroots.trans hanging.roots_eq, harena, ?_⟩
    intro i j r' q' hi hj
    rw [hup']
    by_cases hic : i = c
    · subst hic
      rw [hc, some_inj] at hi
      subst hi
      rw [hang, Function.update_self, some_inj, link, some_inj]
      constructor
      · rintro rfl
        exact ⟨some_inj.mp (hp.symm.trans hj), fun h => h.2 rfl⟩
      · rintro ⟨rfl, _⟩
        exact base.inj hp hj
    · have hne : r' ≠ r := fun h => hic (base.inj (h ▸ hi) hc)
      rw [hang, Function.update_of_ne hic, hanging.linked hi hj]
      simp [hne]

end

end Hanging

/-! ## The maps of a recorded block -/

private theorem mem_pushChild {parent child p c : Bytes32} :
    c ∈ ((pushChild children parent child).lookup p).getD [] ↔
      c ∈ (children.lookup p).getD [] ∨ p = parent ∧ c = child := by
  unfold pushChild
  by_cases hp : p = parent
  · subst hp
    rw [AList.lookup_insert, Option.getD_some, List.mem_append, List.mem_singleton]
    simp
  · rw [AList.lookup_insert_ne hp]
    simp [hp]

variable {root parent : Bytes32}

/-- Recording a link that is new, or there already, keeps `children` the inverse of `parents`. -/
theorem family_recorded {parents : RapidHashMap Bytes32}
    (family : ∀ {p c}, p ≠ Bytes32.zero →
      (c ∈ (children.lookup p).getD [] ↔ parents.lookup c = some p))
    (link : root ∈ parents → parents.lookup root = some parent) {p c : Bytes32}
    (hp : p ≠ Bytes32.zero) :
    c ∈ ((pushChild children parent root).lookup p).getD [] ↔
      (parents.insert root parent).lookup c = some p := by
  rw [mem_pushChild, family hp]
  by_cases hc : c = root
  · subst hc
    rw [AList.lookup_insert, some_inj]
    constructor
    · rintro (h | ⟨rfl, _⟩)
      · have hlink := link (mem_of_lookup h)
        rw [h, some_inj] at hlink
        exact hlink.symm
      · rfl
    · intro h
      exact .inr ⟨h.symm, rfl⟩
  · rw [AList.lookup_insert_ne hc]
    simp [hc]

/-- What a block that enters the tree changes. -/
structure Entered (ssz : Ssz) (signed : SignedBlockWithAttestation) (postState : State)
    (store store' : ForkChoiceStore) : Prop where
  blocks : store'.blocks = store.blocks.insert (signed.message.block.hashTreeRoot ssz) signed
  states : store'.states = store.states.insert (signed.message.block.hashTreeRoot ssz) postState
  parents : store'.parents =
    store.parents.insert (signed.message.block.hashTreeRoot ssz) signed.message.block.parentRoot
  head : store'.head = store.head
  headSlot : store'.headSlot = store.headSlot
  justified : store'.latestJustified = store.latestJustified
  finalized : store'.latestFinalized = store.latestFinalized
  votes : store'.latestVotes = store.latestVotes
  newVotes : store'.latestNewVotes = store.latestNewVotes

section Enter

variable {store : ForkChoiceStore} {signed : SignedBlockWithAttestation} {postState : State}

/-- A block that is stored already enters again: only the maps are written. -/
theorem reenter_spec (consistent : Consistent rank store)
    (stored : signed.message.block.hashTreeRoot ssz ∈ store.nodeIndices)
    (link : store.parents.lookup (signed.message.block.hashTreeRoot ssz) =
      some signed.message.block.parentRoot) :
    Consistent rank (store.recordBlock ssz signed postState) := by
  have skeleton := consistent.skeleton
  have hparents : ∀ r, (store.parents.insert (signed.message.block.hashTreeRoot ssz)
      signed.message.block.parentRoot).lookup r = store.parents.lookup r := by
    intro r
    rw [lookup_insert_eq]
    split
    · next h => rw [h, link]
    · rfl
  have hmem : ∀ {β : Type} (map : RapidHashMap β) (value : β),
      (∀ {r}, r ∈ map ↔ r ∈ store.nodeIndices) →
      ∀ {r}, r ∈ map.insert (signed.message.block.hashTreeRoot ssz) value ↔
        r ∈ store.nodeIndices := by
    intro β map value hmap r
    rw [AList.mem_insert, hmap]
    exact or_iff_right_of_imp fun h => h ▸ stored
  refine ⟨⟨skeleton.index, hmem _ _ skeleton.stored, hmem _ _ skeleton.stated,
    hmem _ _ skeleton.parented, skeleton.nonzero, ?_, ?_, ?_⟩, consistent.votes,
    consistent.newVotes, consistent.arena⟩
  · intro i p r q hi hp
    show upOf store.nodes i = some p ↔ AList.lookup r (store.parents.insert _ _) = some q
    rw [hparents]
    exact skeleton.linked hi hp
  · intro p c hp
    exact family_recorded skeleton.family (fun _ => link) hp
  · intro r q h
    have h' : AList.lookup r (store.parents.insert _ _) = some q := h
    rw [hparents] at h'
    exact skeleton.falls h'

private theorem Consistent.tally_new (consistent : Consistent rank store) :
    tally store store.nodes.length = 0 := by
  rw [tally, Int.natCast_eq_zero]
  apply support_eq_zero
  intro v x hx hclimb
  rw [votesAt, Option.bind_eq_some_iff] at hx
  obtain ⟨r, _, hx⟩ := hx
  have hroot := consistent.skeleton.index.mp hx
  rcases Relation.ReflTransGen.cases_tail hclimb with heq | ⟨y, _, hlast⟩
  · rw [← heq, rootAt, List.getElem?_eq_none (le_refl _)] at hroot
    cases hroot
  · exact absurd (consistent.arena.range hlast) (lt_irrefl _)

section Push

variable {root parent : Bytes32} (slot proposerIndex : Nat)

/-- An index map and the roots of an arena, one node longer. -/
theorem index_insert {indices : RapidHashMap Nat} {roots roots' : Nat → Option Bytes32} {n : Nat}
    (index : ∀ {r i}, indices.lookup r = some i ↔ roots i = some r) (fresh : root ∉ indices)
    (last : roots n = none) (pushed : ∀ i, roots' i = if i = n then some root else roots i) :
    (indices.insert root n).lookup r = some i ↔ roots' i = some r := by
  rw [pushed]
  by_cases hr : r = root
  · subst hr
    rw [AList.lookup_insert, some_inj]
    by_cases hi : i = n
    · rw [if_pos hi]
      exact iff_of_true hi.symm rfl
    · rw [if_neg hi]
      exact iff_of_false (Ne.symm hi) fun h => fresh (mem_of_lookup (index.mpr h))
  · rw [AList.lookup_insert_ne hr]
    by_cases hi : i = n
    · subst hi
      rw [if_pos rfl, some_inj, index, last]
      exact iff_of_false (Option.some_ne_none r).symm (Ne.symm hr)
    · rw [if_neg hi]
      exact index

private theorem Skeleton.index_pushed (skeleton : Skeleton rank store)
    (fresh : root ∉ store.nodeIndices) :
    (store.nodeIndices.insert root store.nodes.length).lookup r = some i ↔
      rootAt (store.nodes ++ [ProtoNode.fresh root none slot proposerIndex]) i = some r :=
  index_insert skeleton.index fresh (rootAt_length store.nodes)
    (rootAt_push store.nodes root slot proposerIndex)

private theorem Skeleton.base_pushed (skeleton : Skeleton rank store)
    (fresh : root ∉ store.nodeIndices)
    (nonzero : root ≠ Bytes32.zero) (below : parent ≠ Bytes32.zero → rank parent < rank root) :
    HangingBase rank (rootAt (store.nodes ++ [ProtoNode.fresh root none slot proposerIndex]))
      (store.parents.insert root parent) where
  inj := by
    intro i j r hi hj
    rw [← skeleton.index_pushed slot proposerIndex fresh] at hi hj
    exact some_inj.mp (hi.symm.trans hj)
  nonzero := by
    intro i h
    rw [← skeleton.index_pushed slot proposerIndex fresh] at h
    rw [AList.lookup_insert_ne (Ne.symm nonzero)] at h
    exact skeleton.nonzero (mem_of_lookup h)
  falls := by
    intro r q h hq
    rcases lookup_insert_some.mp h with ⟨rfl, rfl⟩ | ⟨-, h⟩
    · exact below hq
    · exact skeleton.falls h hq

private theorem Consistent.hanging_pushed (consistent : Consistent rank store)
    (fresh : root ∉ store.nodeIndices) :
    Hanging (rootAt (store.nodes ++ [ProtoNode.fresh root none slot proposerIndex]))
      (store.parents.insert root parent) (votesAt store) (fun r q => r = root ∨ q = root)
      (store.nodes ++ [ProtoNode.fresh root none slot proposerIndex]) where
  roots_eq := rfl
  arena := by
    rw [upOf_push]
    exact consistent.arena.push root slot proposerIndex consistent.tally_new
  linked := by
    intro i p r q hi hp
    rw [upOf_push]
    rw [rootAt_push] at hi hp
    by_cases hin : i = store.nodes.length
    · rw [if_pos hin, some_inj] at hi
      refine iff_of_false (fun hup => ?_) fun h => h.2 (.inl hi.symm)
      exact absurd (lt_of_upOf hup) (hin ▸ lt_irrefl _)
    · by_cases hpn : p = store.nodes.length
      · rw [if_pos hpn, some_inj] at hp
        refine iff_of_false (fun hup => ?_) fun h => h.2 (.inr hp.symm)
        exact absurd (consistent.arena.range hup) (hpn ▸ lt_irrefl _)
      · rw [if_neg hin] at hi
        rw [if_neg hpn] at hp
        have hr : r ≠ root := fun h =>
          fresh (h ▸ mem_of_lookup (consistent.skeleton.index.mpr hi))
        have hq : q ≠ root := fun h =>
          fresh (h ▸ mem_of_lookup (consistent.skeleton.index.mpr hp))
        rw [AList.lookup_insert_ne hr, consistent.skeleton.linked hi hp]
        simp [hr, hq]

end Push

/-- The arena once all that is due has been hung makes a consistent store. -/
theorem Consistent.entered (consistent : Consistent rank store)
    {slot proposerIndex : Nat} (fresh : root ∉ store.nodeIndices)
    (nonzero : root ≠ Bytes32.zero) (below : parent ≠ Bytes32.zero → rank parent < rank root)
    (hanging : Hanging (rootAt (store.nodes ++ [ProtoNode.fresh root none slot proposerIndex]))
      (store.parents.insert root parent) (votesAt store) (fun _ _ => False) nodes) :
    Consistent rank { store with
      blocks := store.blocks.insert root signed
      states := store.states.insert root postState
      parents := store.parents.insert root parent
      children := pushChild store.children parent root
      nodes
      nodeIndices := store.nodeIndices.insert root store.nodes.length } := by
  have skeleton := consistent.skeleton
  have hmem : ∀ {β : Type} (map : RapidHashMap β) (value : β),
      (∀ {r}, r ∈ map ↔ r ∈ store.nodeIndices) →
      ∀ {r}, r ∈ map.insert root value ↔ r ∈ store.nodeIndices.insert root store.nodes.length := by
    intro β map value hmap r
    rw [AList.mem_insert, AList.mem_insert, hmap]
  have hunstored : root ∉ store.parents := fun h => fresh (skeleton.parented.mp h)
  have hknown : ∀ {votes : VoteMap}, KnownVotes store votes → ∀ {v r}, votes.lookup v = some r →
      r ∈ store.nodeIndices.insert root store.nodes.length := by
    intro votes known v r h
    exact (AList.mem_insert _).mpr (.inr (known h))
  refine ⟨⟨?_, hmem _ _ skeleton.stored, hmem _ _ skeleton.stated, hmem _ _ skeleton.parented, ?_,
    ?_, ?_, ?_⟩, fun v r h => hknown consistent.votes h, fun v r h => hknown consistent.newVotes h,
    ?_⟩
  · intro r i
    show (store.nodeIndices.insert root store.nodes.length).lookup r = some i ↔
      rootAt nodes i = some r
    rw [hanging.roots_eq]
    exact skeleton.index_pushed slot proposerIndex fresh
  · intro h
    rcases (AList.mem_insert _).mp h with h | h
    · exact nonzero h.symm
    · exact skeleton.nonzero h
  · intro i p r q hi hp
    have hi' : rootAt nodes i = some r := hi
    have hp' : rootAt nodes p = some q := hp
    rw [hanging.roots_eq] at hi' hp'
    exact (hanging.linked hi' hp').trans (and_iff_left not_false)
  · intro p c hp
    exact family_recorded skeleton.family (fun h => absurd h hunstored) hp
  · exact (skeleton.base_pushed slot proposerIndex fresh nonzero below).falls
  · have hvotes : ∀ v, (store.latestVotes.lookup v).bind
        (store.nodeIndices.insert root store.nodes.length).lookup = votesAt store v := by
      intro v
      rw [votesAt]
      cases hlook : store.latestVotes.lookup v with
      | none => rfl
      | some r =>
        have hr : r ≠ root := fun h => fresh (h ▸ consistent.votes hlook)
        exact AList.lookup_insert_ne hr
    have htally : ∀ i, tally { store with
        blocks := store.blocks.insert root signed
        states := store.states.insert root postState
        parents := store.parents.insert root parent
        children := pushChild store.children parent root
        nodes
        nodeIndices := store.nodeIndices.insert root store.nodes.length } i =
          (support (upOf nodes) (votesAt store) i : Nat) := by
      intro i
      unfold tally
      congr 2
      funext v
      exact hvotes v
    rw [funext htally]
    exact hanging.arena

section Attach

variable {root parent : Bytes32} (slot proposerIndex : Nat) {nodes : List ProtoNode}

/-- Hang the new node below its parent, if that is stored: only links to the new node are due. -/
theorem Consistent.attachParent (consistent : Consistent rank store)
    (fresh : root ∉ store.nodeIndices) (nonzero : root ≠ Bytes32.zero)
    (below : parent ≠ Bytes32.zero → rank parent < rank root) :
    ∃ nodes,
      ForkChoiceStore.attachParent (store.nodeIndices.insert root store.nodes.length)
        (store.nodes ++ [ProtoNode.fresh root none slot proposerIndex]) parent store.nodes.length =
        some nodes ∧
      Hanging (rootAt (store.nodes ++ [ProtoNode.fresh root none slot proposerIndex]))
        (store.parents.insert root parent) (votesAt store) (fun _ q => q = root) nodes := by
  have hbase := consistent.skeleton.base_pushed slot proposerIndex fresh nonzero below
  have hpushed : Hanging _ (store.parents.insert root parent) _ _ _ :=
    consistent.hanging_pushed slot proposerIndex fresh
  have hindex := fun {r i} => consistent.skeleton.index_pushed slot proposerIndex fresh
    (r := r) (i := i)
  have hlink : (store.parents.insert root parent).lookup root = some parent :=
    AList.lookup_insert _
  unfold ForkChoiceStore.attachParent
  cases hlook : (store.nodeIndices.insert root store.nodes.length).lookup parent with
  | none =>
    refine ⟨_, rfl, hpushed.weaken ?_⟩
    intro i p r q _ hp hrq
    refine or_iff_right fun hr => ?_
    rw [hr, hlink, some_inj] at hrq
    rw [← hrq, ← hindex, hlook] at hp
    cases hp
  | some p =>
    obtain ⟨nodes, hrun, hattached⟩ := hpushed.attach hbase (finite_votesAt store)
      (hindex.mp (AList.lookup_insert _)) (hindex.mp hlook) hlink
    refine ⟨nodes, hrun, hattached.weaken ?_⟩
    intro i p r q hi _ hrq
    constructor
    · rintro ⟨hr | hq, hne⟩
      · exact absurd hr hne
      · exact hq
    · rintro rfl
      refine ⟨.inr rfl, ?_⟩
      rintro rfl
      exact absurd (hbase.falls hrq nonzero) (lt_irrefl _)

/-- Hang the blocks that wait for the new one below it. -/
theorem Consistent.attachChildren (consistent : Consistent rank store)
    (fresh : root ∉ store.nodeIndices) (nonzero : root ≠ Bytes32.zero)
    (below : parent ≠ Bytes32.zero → rank parent < rank root)
    (hanging : Hanging (rootAt (store.nodes ++ [ProtoNode.fresh root none slot proposerIndex]))
      (store.parents.insert root parent) (votesAt store) (fun _ q => q = root) nodes) :
    ∃ nodes',
      ForkChoiceStore.attachKnownChildren (pushChild store.children parent root)
        (store.nodeIndices.insert root store.nodes.length) nodes root store.nodes.length =
        some nodes' ∧
      Hanging (rootAt (store.nodes ++ [ProtoNode.fresh root none slot proposerIndex]))
        (store.parents.insert root parent) (votesAt store) (fun _ _ => False) nodes' := by
  have skeleton := consistent.skeleton
  have hbase := skeleton.base_pushed slot proposerIndex fresh nonzero below
  have hindex := fun {r i} => skeleton.index_pushed slot proposerIndex fresh (r := r) (i := i)
  have hfamily : ∀ {c}, c ∈ ((pushChild store.children parent root).lookup root).getD [] ↔
      (store.parents.insert root parent).lookup c = some root := fun {c} =>
    family_recorded skeleton.family
      (fun h => absurd (skeleton.parented.mp h) fresh) nonzero
  let Inv : List Bytes32 → List ProtoNode → Prop := fun seen nodes =>
    Hanging (rootAt (store.nodes ++ [ProtoNode.fresh root none slot proposerIndex]))
      (store.parents.insert root parent) (votesAt store) (fun r q => q = root ∧ r ∉ seen) nodes
  have hstart : Inv [] nodes := hanging.weaken (by simp)
  obtain ⟨nodes', hrun, hhung⟩ : ∃ nodes',
      ForkChoiceStore.attachKnownChildren (pushChild store.children parent root)
        (store.nodeIndices.insert root store.nodes.length) nodes root store.nodes.length =
        some nodes' ∧ Inv (((pushChild store.children parent root).lookup root).getD []) nodes' := by
    refine foldlM_of_step Inv _ (fun seen child rest current hsplit hcurrent => ?_) hstart
    have hchild : (store.parents.insert root parent).lookup child = some root := by
      rw [← hfamily, hsplit]
      simp
    have hne : child ≠ root := by
      rintro rfl
      exact absurd (hbase.falls hchild nonzero) (lt_irrefl _)
    have hmem : child ∈ store.nodeIndices.insert root store.nodes.length := by
      rw [AList.mem_insert]
      rw [AList.lookup_insert_ne hne] at hchild
      exact .inr (skeleton.parented.mp (mem_of_lookup hchild))
    obtain ⟨childIdx, hidx⟩ := exists_lookup hmem
    obtain ⟨next, hrun, hnext⟩ := hcurrent.attach hbase (finite_votesAt store)
      (hindex.mp hidx) (hindex.mp (AList.lookup_insert _)) hchild
    refine ⟨next, ?_, hnext.weaken ?_⟩
    · rw [if_neg hne, hidx]
      exact hrun
    · intro i p r q _ _ _
      rw [List.mem_append, List.mem_singleton]
      tauto
  refine ⟨nodes', hrun, hhung.weaken ?_⟩
  intro i p r q _ _ hrq
  refine iff_of_false ?_ not_false
  rintro ⟨rfl, hnot⟩
  exact hnot (hfamily.mpr hrq)

end Attach

private theorem insertProtoNode_of_fresh {slot proposerIndex : Nat}
    {hung nodes : List ProtoNode} (fresh : root ∉ store.nodeIndices)
    (hparent : ForkChoiceStore.attachParent (store.nodeIndices.insert root store.nodes.length)
      (store.nodes ++ [ProtoNode.fresh root none slot proposerIndex]) parent store.nodes.length =
      some hung)
    (hchildren : ForkChoiceStore.attachKnownChildren store.children
      (store.nodeIndices.insert root store.nodes.length) hung root store.nodes.length =
      some nodes) :
    store.insertProtoNode root parent slot proposerIndex =
      some { store with
        nodes, nodeIndices := store.nodeIndices.insert root store.nodes.length } := by
  rw [ForkChoiceStore.insertProtoNode, if_neg fresh]
  simp only [hparent, hchildren, Option.bind_eq_bind, Option.bind_some]
  rfl

/-- A block enters the tree: for the first time, or again under the same parent. -/
theorem insert_spec (consistent : Consistent rank store)
    (nonzero : signed.message.block.hashTreeRoot ssz ≠ Bytes32.zero)
    (below : signed.message.block.parentRoot ≠ Bytes32.zero →
      rank signed.message.block.parentRoot < rank (signed.message.block.hashTreeRoot ssz))
    (link : signed.message.block.hashTreeRoot ssz ∈ store.nodeIndices →
      store.parents.lookup (signed.message.block.hashTreeRoot ssz) =
        some signed.message.block.parentRoot) :
    ∃ store', (store.recordBlock ssz signed postState).insertProtoNode
        (signed.message.block.hashTreeRoot ssz) signed.message.block.parentRoot
        signed.message.block.slot signed.message.block.proposerIndex = some store' ∧
      Consistent rank store' ∧ Entered ssz signed postState store store' := by
  by_cases hstored : signed.message.block.hashTreeRoot ssz ∈ store.nodeIndices
  · refine ⟨store.recordBlock ssz signed postState, ?_,
      reenter_spec consistent hstored (link hstored),
      ⟨rfl, rfl, rfl, rfl, rfl, rfl, rfl, rfl, rfl⟩⟩
    rw [ForkChoiceStore.insertProtoNode]
    exact if_pos hstored
  · -- a new block is hung below its parent, and its children below it
    let block := signed.message.block
    obtain ⟨hung, hparent, hhung⟩ := consistent.attachParent block.slot block.proposerIndex hstored
      nonzero below
    obtain ⟨nodes, hchildren, hnodes⟩ := consistent.attachChildren block.slot block.proposerIndex
      hstored nonzero below hhung
    refine ⟨_, ?_, consistent.entered hstored nonzero below hnodes,
      ⟨rfl, rfl, rfl, rfl, rfl, rfl, rfl, rfl, rfl⟩⟩
    exact insertProtoNode_of_fresh hstored hparent hchildren

end Enter

/-! ## The anchor -/

section Anchor

variable {anchor : SignedBlockWithAttestation} {anchorState : State} {store : ForkChoiceStore}

/-- What an accepted anchor starts from. -/
theorem new_eq (accepted : ForkChoiceStore.new ssz anchor anchorState = .ok store) :
    store = (ForkChoiceStore.anchored ssz anchor anchorState).overrideCheckpointRoots
      (anchor.message.block.hashTreeRoot ssz) := by
  unfold ForkChoiceStore.new at accepted
  simp only at accepted
  split at accepted <;> cases accepted
  rfl

theorem lookup_single {β : Type} {value v : β} :
    (AList.insert key value (∅ : RapidHashMap β)).lookup r = some v ↔ r = key ∧ value = v := by
  rw [lookup_insert_some, AList.lookup_empty]
  simp

theorem mem_single {β : Type} {value : β} :
    r ∈ AList.insert key value (∅ : RapidHashMap β) ↔ r = key := by
  rw [AList.mem_insert]
  exact or_iff_left (AList.notMem_empty r)

/-- A store over one anchor is consistent. -/
theorem new_consistent (accepted : ForkChoiceStore.new ssz anchor anchorState = .ok store)
    (nonzero : anchor.message.block.hashTreeRoot ssz ≠ Bytes32.zero)
    (below : anchor.message.block.parentRoot ≠ Bytes32.zero →
      rank anchor.message.block.parentRoot < rank (anchor.message.block.hashTreeRoot ssz)) :
    Consistent rank store := by
  rw [new_eq accepted]
  set root := anchor.message.block.hashTreeRoot ssz
  have happart : anchor.message.block.parentRoot ≠ root := by
    intro h
    exact absurd (below (h ▸ nonzero)) (h ▸ lt_irrefl _)
  have hroots : ∀ i r, rootAt [ProtoNode.fresh root none anchor.message.block.slot
      anchor.message.block.proposerIndex] i = some r ↔ i = 0 ∧ r = root := by
    intro i r
    have hpush := rootAt_push [] root anchor.message.block.slot
      anchor.message.block.proposerIndex i
    rw [List.nil_append] at hpush
    rw [hpush]
    by_cases hi : i = 0
    · subst hi
      simp [eq_comm]
    · simp [hi, rootAt]
  have hup : upOf [ProtoNode.fresh root none anchor.message.block.slot
      anchor.message.block.proposerIndex] = fun _ => none := by
    have hpush := upOf_push [] root anchor.message.block.slot anchor.message.block.proposerIndex
    rw [List.nil_append] at hpush
    rw [hpush]
    funext i
    rfl
  have hnone : ∀ {v r}, AList.lookup v (∅ : VoteMap) = some r → False := by
    intro v r h
    rw [AList.lookup_empty] at h
    cases h
  refine ⟨⟨?_, ?_, ?_, ?_, ?_, ?_, ?_, ?_⟩, fun v r h => (hnone h).elim,
    fun v r h => (hnone h).elim, ?_⟩
  · intro r i
    exact lookup_single.trans ((hroots i r).trans
      ⟨fun h => ⟨h.2, h.1.symm⟩, fun h => ⟨h.2.symm, h.1⟩⟩).symm
  · exact fun {r} => mem_single.trans mem_single.symm
  · exact fun {r} => mem_single.trans mem_single.symm
  · exact fun {r} => mem_single.trans mem_single.symm
  · intro h
    exact nonzero (mem_single.mp h).symm
  · intro i p r q hi hp
    obtain ⟨_, rfl⟩ := (hroots i r).mp hi
    obtain ⟨_, rfl⟩ := (hroots p q).mp hp
    refine iff_of_false (fun h => ?_) fun h => happart (lookup_single.mp h).2
    have h' : upOf [ProtoNode.fresh _ none anchor.message.block.slot
      anchor.message.block.proposerIndex] i = some p := h
    rw [hup] at h'
    cases h'
  · intro p c _
    show c ∈ ((pushChild ∅ anchor.message.block.parentRoot root).lookup p).getD [] ↔
      (AList.insert root anchor.message.block.parentRoot (∅ : RapidHashMap Bytes32)).lookup c =
        some p
    rw [mem_pushChild, lookup_single, AList.lookup_empty]
    simp [and_comm, eq_comm]
  · intro r q h hq
    obtain ⟨rfl, rfl⟩ := lookup_single.mp h
    exact below hq
  · have hempty : Arena ([] : List ProtoNode) (fun _ => 0) :=
      ⟨fun h => by simp [upOf] at h, fun h => by simp at h, fun h => by simp at h,
        fun h => by simp at h⟩
    have hpushed := hempty.push root anchor.message.block.slot anchor.message.block.proposerIndex
      rfl
    have htally : tally ((ForkChoiceStore.anchored ssz anchor anchorState).overrideCheckpointRoots
        root) = fun _ => 0 := by
      funext i
      rw [tally, Int.natCast_eq_zero]
      apply support_eq_zero
      intro v x hx
      cases hx
    rw [htally]
    exact hpushed

/-- The head of a store over one anchor is the anchor. -/
theorem new_headed (accepted : ForkChoiceStore.new ssz anchor anchorState = .ok store)
    (nonzero : anchor.message.block.hashTreeRoot ssz ≠ Bytes32.zero)
    (below : anchor.message.block.parentRoot ≠ Bytes32.zero →
      rank anchor.message.block.parentRoot < rank (anchor.message.block.hashTreeRoot ssz)) :
    Headed store := by
  have hconsistent := new_consistent accepted nonzero below
  have heq := new_eq accepted
  set root := anchor.message.block.hashTreeRoot ssz
  have hjustified : store.latestJustified.root = root := by rw [heq]; rfl
  have hhead : store.head = root := by rw [heq]; rfl
  have hparents : store.parents = AList.insert root anchor.message.block.parentRoot ∅ := by
    rw [heq]; rfl
  have hknown : store.latestJustified.root ∈ store.nodeIndices := by
    rw [hjustified, ← hconsistent.skeleton.parented, hparents]
    exact mem_single.mpr rfl
  obtain ⟨head, hfound, hghost⟩ := hconsistent.findHead_spec hknown
  have hleaf : GhostHead store.storedParent store.activeVote store.latestJustified.root
      store.latestJustified.root := by
    refine .leaf fun c hc => ?_
    have hlink := (ForkChoiceStore.storedParent_eq_some.mp hc).1
    rw [hparents, hjustified, lookup_single] at hlink
    exact absurd (below (hlink.2 ▸ nonzero)) (hlink.2 ▸ lt_irrefl _)
  refine ⟨?_, ?_⟩
  · rw [hfound, hghost.unique hleaf, hjustified, hhead]
  · have hblock : store.blockSlot root = some anchor.message.block.slot := by
      have hblocks : store.blocks = AList.insert root anchor ∅ := by rw [heq]; rfl
      rw [ForkChoiceStore.blockSlot, hblocks, AList.lookup_insert]
      rfl
    have hslot : store.headSlot = anchor.message.block.slot := by
      rw [heq]
      show (((AList.insert root anchor (∅ : RapidHashMap SignedBlockWithAttestation)).lookup
        root).map (·.message.block.slot)).getD _ = _
      rw [AList.lookup_insert]
      rfl
    rw [hhead, hblock, hslot]

end Anchor

end Peam
