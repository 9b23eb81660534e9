import Peam.Laws.ProtoArray

/-!
# Laws of the fork choice store

`Skeleton rank store` says how the maps and the arena of a store fit together: which roots are
stored, that the arena's links are the stored parent links, that `children` inverts `parents`, and
that the links fall in a rank. `Consistent` adds the votes: every vote is for a stored block, and
the weights of the arena are the supports counted over those votes.

Each operation is shown to return and to leave a consistent store, with what else it leaves alone
given as a record update. Pruning rebuilds the arena and has a module of its own.
-/

namespace Peam

open Loops (Turn iterate iterate_of_variant foldlM_returns)
open Forests
open Option (some_inj map_eq_some_iff)

variable {votes : VoteMap} {cast : List (Sigma fun _ : Nat => Bytes32)}
  {parents : RapidHashMap Bytes32}

/-! ## Maps -/

section Maps

variable {κ β : Type} [DecidableEq κ] {map : AList fun _ : κ => β} {key other : κ} {value : β}

theorem mem_of_lookup (h : map.lookup key = some value) : key ∈ map := by
  rw [← AList.lookup_isSome, h]
  rfl

theorem exists_lookup (h : key ∈ map) : ∃ value, map.lookup key = some value := by
  rw [← AList.lookup_isSome] at h
  exact Option.isSome_iff_exists.mp h

end Maps

variable {store : ForkChoiceStore} {rank : Bytes32 → Nat} {root parent : Bytes32}

/-! ## Consistency -/

/-- How the maps and the arena of a store fit together. -/
structure Skeleton (rank : Bytes32 → Nat) (store : ForkChoiceStore) : Prop where
  index : ∀ {r i}, store.nodeIndices.lookup r = some i ↔ rootAt store.nodes i = some r
  stored : ∀ {r}, r ∈ store.blocks ↔ r ∈ store.nodeIndices
  stated : ∀ {r}, r ∈ store.states ↔ r ∈ store.nodeIndices
  parented : ∀ {r}, r ∈ store.parents ↔ r ∈ store.nodeIndices
  nonzero : Bytes32.zero ∉ store.nodeIndices
  linked : ∀ {i p r q}, rootAt store.nodes i = some r → rootAt store.nodes p = some q →
    (upOf store.nodes i = some p ↔ store.parents.lookup r = some q)
  family : ∀ {p c}, p ≠ Bytes32.zero →
    (c ∈ (store.children.lookup p).getD [] ↔ store.parents.lookup c = some p)
  falls : ∀ {r q}, store.parents.lookup r = some q → q ≠ Bytes32.zero → rank q < rank r

/-- The active votes as indices into the arena. -/
def votesAt (store : ForkChoiceStore) (v : Nat) : Option Nat :=
  (store.latestVotes.lookup v).bind store.nodeIndices.lookup

/-- The weights a store should carry. -/
noncomputable def tally (store : ForkChoiceStore) (i : Nat) : Int :=
  (support (upOf store.nodes) (votesAt store) i : Nat)

/-- Every vote is for a stored block. -/
def KnownVotes (store : ForkChoiceStore) (votes : VoteMap) : Prop :=
  ∀ ⦃v r⦄, votes.lookup v = some r → r ∈ store.nodeIndices

/-- A store in order. -/
structure Consistent (rank : Bytes32 → Nat) (store : ForkChoiceStore) : Prop where
  skeleton : Skeleton rank store
  votes : KnownVotes store store.latestVotes
  newVotes : KnownVotes store store.latestNewVotes
  arena : Arena store.nodes (tally store)

/-- Only validators with a stored vote have one. -/
theorem finite_votesAt (store : ForkChoiceStore) : FiniteVotes (votesAt store) := by
  refine (store.latestVotes.keys.toFinset.finite_toSet).subset ?_
  intro v hv
  obtain ⟨_, hx⟩ := Option.isSome_iff_exists.mp (hv : (votesAt store v).isSome)
  obtain ⟨r, hlook, -⟩ := Option.bind_eq_some_iff.mp hx
  rw [Finset.mem_coe, List.mem_toFinset]
  exact AList.mem_keys.mp (mem_of_lookup hlook)

namespace Skeleton

variable (skeleton : Skeleton rank store)
include skeleton

/-- An indexed root is the root of its node. -/
theorem rootAt_of_mem (h : root ∈ store.nodeIndices) :
    ∃ i, store.nodeIndices.lookup root = some i ∧ rootAt store.nodes i = some root := by
  obtain ⟨i, hi⟩ := exists_lookup h
  exact ⟨i, hi, skeleton.index.mp hi⟩

private theorem rootAt_inj {i j : Nat} (hi : rootAt store.nodes i = some root)
    (hj : rootAt store.nodes j = some root) : i = j := by
  have hi' := skeleton.index.mpr hi
  have hj' := skeleton.index.mpr hj
  rw [hi'] at hj'
  exact some_inj.mp hj'

/-- No block is stored under the zero root. -/
theorem ne_zero {root : Bytes32} (stored : root ∈ store.blocks) : root ≠ Bytes32.zero := by
  rintro rfl
  exact skeleton.nonzero (skeleton.stored.mp stored)

/-- The rank of the blocks as a rank of the arena. -/
theorem falls_arena (range : ∀ {i p}, upOf store.nodes i = some p → p < store.nodes.length) :
    Falls (upOf store.nodes) fun i => ((rootAt store.nodes i).map rank).getD 0 := by
  intro i p hup
  obtain ⟨r, hr⟩ := exists_rootAt (lt_of_upOf hup)
  obtain ⟨q, hq⟩ := exists_rootAt (range hup)
  have hparent := (skeleton.linked hr hq).mp hup
  have hstored : q ∈ store.nodeIndices := mem_of_lookup (skeleton.index.mpr hq)
  have hne : q ≠ Bytes32.zero := fun h => skeleton.nonzero (h ▸ hstored)
  show ((rootAt store.nodes p).map rank).getD 0 < ((rootAt store.nodes i).map rank).getD 0
  rw [hr, hq]
  exact skeleton.falls hparent hne

/-- A loop that only ever steps to a parent other than zero returns. -/
theorem parentWalk {β : Type} {body : Bytes32 → Turn Bytes32 β} (Inv : Bytes32 → Prop)
    (Post : β → Prop)
    (again : ∀ node next, Inv node → body node = .again next →
      Inv next ∧ store.parents.lookup node = some next ∧ next ≠ Bytes32.zero)
    (done : ∀ node result, Inv node → body node = .done result → Post result) {start : Bytes32}
    (hstart : Inv start) :
    ∃ result, iterate body (parentFuel store.parents) start = some result ∧ Post result := by
  -- the known blocks further up, and one more for a block that is itself known
  let known := store.parents.keys.toFinset
  let variant : Bytes32 → Nat := fun node =>
    (known.filter fun r => rank r < rank node).card + if node ∈ store.parents then 1 else 0
  have hcard : known.card ≤ store.parents.entries.length := by
    have hle := List.toFinset_card_le store.parents.keys
    rwa [AList.keys, List.keys, List.length_map] at hle
  refine iterate_of_variant Inv Post variant ?_ done hstart ?_
  · intro node next hinv hturn
    obtain ⟨hnext, hparent, hne⟩ := again node next hinv hturn
    refine ⟨hnext, ?_⟩
    have hfall := skeleton.falls hparent hne
    have hnode : node ∈ store.parents := mem_of_lookup hparent
    by_cases hknown : next ∈ store.parents
    · have hmem : next ∈ known := List.mem_toFinset.mpr (AList.mem_keys.mp hknown)
      have hlt := card_filter_lt (r := fun a b => rank a < rank b) lt_trans
        (fun _ => lt_irrefl _) hmem hfall
      simp only [variant, if_pos hknown, if_pos hnode]
      omega
    · have hle : (known.filter fun r => rank r < rank next).card ≤
          (known.filter fun r => rank r < rank node).card := by
        apply Finset.card_le_card
        intro r hr
        obtain ⟨hrk, hlt⟩ := Finset.mem_filter.mp hr
        exact Finset.mem_filter.mpr ⟨hrk, hlt.trans hfall⟩
      simp only [variant, if_neg hknown, if_pos hnode]
      omega
  · have hle := Finset.card_filter_le known fun r => rank r < rank start
    simp only [variant, parentFuel]
    split <;> omega

private theorem parentWalk_returns {β : Type} {body : Bytes32 → Turn Bytes32 β}
    (again : ∀ node next, body node = .again next →
      store.parents.lookup node = some next ∧ next ≠ Bytes32.zero) (start : Bytes32) :
    ∃ result, iterate body (parentFuel store.parents) start = some result := by
  obtain ⟨result, hrun, _⟩ := skeleton.parentWalk (fun _ => True) (fun _ => True)
    (fun node next _ hturn => ⟨trivial, again node next hturn⟩) (fun _ _ _ _ => trivial)
    (show (fun _ => True) start from trivial)
  exact ⟨result, hrun⟩

end Skeleton

/-! ## What does not touch the tree -/

/-- Two stores with one tree. -/
structure SameTree (store store' : ForkChoiceStore) : Prop where
  blocks : store'.blocks = store.blocks
  states : store'.states = store.states
  parents : store'.parents = store.parents
  children : store'.children = store.children
  nodeIndices : store'.nodeIndices = store.nodeIndices
  shape : SameShape store.nodes store'.nodes

theorem SameTree.refl (store : ForkChoiceStore) : SameTree store store :=
  ⟨rfl, rfl, rfl, rfl, rfl, .refl _⟩

variable {store' store'' : ForkChoiceStore} {newVotes : VoteMap} {head : Bytes32}

theorem SameTree.trans (h : SameTree store store') (h' : SameTree store' store'') :
    SameTree store store'' where
  blocks := h'.blocks.trans h.blocks
  states := h'.states.trans h.states
  parents := h'.parents.trans h.parents
  children := h'.children.trans h.children
  nodeIndices := h'.nodeIndices.trans h.nodeIndices
  shape := h.shape.trans h'.shape

/-- The skeleton is read off the tree. -/
theorem Skeleton.of_sameTree (skeleton : Skeleton rank store) (same : SameTree store store') :
    Skeleton rank store' where
  index := by
    rw [same.nodeIndices, same.shape.rootAt_eq]
    exact skeleton.index
  stored := by
    rw [same.blocks, same.nodeIndices]
    exact skeleton.stored
  stated := by
    rw [same.states, same.nodeIndices]
    exact skeleton.stated
  parented := by
    rw [same.parents, same.nodeIndices]
    exact skeleton.parented
  nonzero := by
    rw [same.nodeIndices]
    exact skeleton.nonzero
  linked := by
    rw [same.shape.rootAt_eq, same.shape.upOf_eq, same.parents]
    exact skeleton.linked
  family := by
    rw [same.children, same.parents]
    exact skeleton.family
  falls := by
    rw [same.parents]
    exact skeleton.falls

/-- Head, checkpoints, safe target and counters do not matter for consistency. -/
theorem Consistent.congr {store' : ForkChoiceStore} (consistent : Consistent rank store)
    (same : SameTree store store') (nodes : store'.nodes = store.nodes)
    (votes : store'.latestVotes = store.latestVotes)
    (newVotes : store'.latestNewVotes = store.latestNewVotes) : Consistent rank store' where
  skeleton := consistent.skeleton.of_sameTree same
  votes := by
    unfold KnownVotes
    rw [votes, same.nodeIndices]
    exact consistent.votes
  newVotes := by
    unfold KnownVotes
    rw [newVotes, same.nodeIndices]
    exact consistent.newVotes
  arena := by
    have htally : tally store' = tally store := by
      unfold tally votesAt
      rw [nodes, votes, same.nodeIndices]
    rw [nodes, htally]
    exact consistent.arena

/-! ## One vote -/

private theorem votesAt_insert {v idx : Nat}
    (votes : store'.latestVotes = store.latestVotes.insert v root)
    (indices : store'.nodeIndices = store.nodeIndices)
    (hidx : store.nodeIndices.lookup root = some idx) :
    votesAt store' = Function.update (votesAt store) v (some idx) := by
  funext u
  rw [votesAt, votes, indices, lookup_insert_eq, Function.update_apply]
  split
  · exact hidx
  · rfl

open Classical in
/-- `apply_vote_delta` on a stored block returns, and adds to everything above it. -/
theorem applyVoteDelta_spec {weights : Nat → Int} (arena : Arena store.nodes weights)
    {rank : Nat → Nat} (falls : Falls (upOf store.nodes) rank) {idx : Nat}
    (hidx : store.nodeIndices.lookup root = some idx) (delta : Int) :
    ∃ nodes, store.applyVoteDelta root delta = some { store with nodes } ∧
      SameShape store.nodes nodes ∧
      Arena nodes fun i => weights i + if Climbs (upOf store.nodes) idx i then delta else 0 := by
  obtain ⟨nodes, hrun, hshape, harena⟩ := arena.propagate falls idx delta
  refine ⟨nodes, ?_, hshape, harena⟩
  rw [ForkChoiceStore.applyVoteDelta, hidx]
  show (do let nodes ← propagateWeightFromIndex store.nodes idx delta; _) = _
  rw [hrun]
  rfl

/-- `set_latest_vote` for a stored block returns a consistent store in which only that vote and
the weights differ. -/
theorem setLatestVote_spec (consistent : Consistent rank store) (v : Nat)
    (known : root ∈ store.nodeIndices) :
    ∃ nodes, store.setLatestVote v root =
        some { store with nodes, latestVotes := store.latestVotes.insert v root } ∧
      SameShape store.nodes nodes ∧
      Consistent rank { store with nodes, latestVotes := store.latestVotes.insert v root } := by
  classical
  obtain ⟨idx, hidx⟩ := exists_lookup known
  have hfalls := consistent.skeleton.falls_arena consistent.arena.range
  have hvotes : ∀ nodes, votesAt { store with nodes, latestVotes := store.latestVotes.insert v root } =
      Function.update (votesAt store) v (some idx) := fun nodes => votesAt_insert rfl rfl hidx
  -- whatever the arena becomes, the rest of the store stays in order
  have hrest : ∀ nodes, SameShape store.nodes nodes →
      Arena nodes (fun i => (support (upOf store.nodes)
        (Function.update (votesAt store) v (some idx)) i : Nat)) →
      Consistent rank { store with nodes, latestVotes := store.latestVotes.insert v root } := by
    intro nodes hshape harena
    refine ⟨consistent.skeleton.of_sameTree ⟨rfl, rfl, rfl, rfl, rfl, hshape⟩, ?_, ?_, ?_⟩
    · intro u r hlook
      rcases lookup_insert_some.mp hlook with ⟨rfl, rfl⟩ | ⟨-, hlook⟩
      · exact known
      · exact consistent.votes hlook
    · exact consistent.newVotes
    · unfold tally
      rw [hvotes nodes, hshape.upOf_eq]
      exact harena
  let recorded := { store with latestVotes := store.latestVotes.insert v root }
  rw [ForkChoiceStore.setLatestVote]
  cases hprevious : store.latestVotes.lookup v with
  | none =>
    have hnone : votesAt store v = none := by rw [votesAt, hprevious]; rfl
    obtain ⟨nodes, hrun, hshape, harena⟩ := @applyVoteDelta_spec recorded root
      (tally store) consistent.arena _ hfalls idx hidx 1
    refine ⟨nodes, hrun, hshape, hrest nodes hshape ?_⟩
    convert harena using 2 with i
    rw [support_first (finite_votesAt store) hnone]
    push_cast
    rfl
  | some old =>
    obtain ⟨oldIdx, holdIdx⟩ := exists_lookup (consistent.votes hprevious)
    have hheld : votesAt store v = some oldIdx := by rw [votesAt, hprevious]; exact holdIdx
    by_cases hsame : old = root
    · subst hsame
      refine ⟨store.nodes, ?_, .refl _, hrest _ (.refl _) ?_⟩
      · simp
      · have hid : Function.update (votesAt store) v (some idx) = votesAt store := by
          rw [hidx, some_inj] at holdIdx
          rw [holdIdx, ← hheld, Function.update_eq_self]
        rw [hid]
        exact consistent.arena
    · obtain ⟨less, hless, hshape, harena⟩ := @applyVoteDelta_spec recorded old
        (tally store) consistent.arena _ hfalls oldIdx holdIdx (-1)
      have hfalls' : Falls (upOf less) fun i => ((rootAt store.nodes i).map rank).getD 0 := by
        rw [hshape.upOf_eq]
        exact hfalls
      obtain ⟨nodes, hrun, hshape', harena'⟩ := @applyVoteDelta_spec
        { recorded with nodes := less } root _ harena _ hfalls' idx hidx 1
      refine ⟨nodes, ?_, hshape.trans hshape', hrest nodes (hshape.trans hshape') ?_⟩
      · have hne : ¬ some old = some root := fun h => hsame (some_inj.mp h)
        show (if some old = some root then _ else _) = _
        rw [if_neg hne]
        show (do let store ← recorded.applyVoteDelta old (-1); store.applyVoteDelta root 1) = _
        rw [hless]
        exact hrun
      · convert harena' using 2 with i
        rw [support_move (finite_votesAt store) hheld, hshape.upOf_eq]
        show _ = tally store i + (if Climbs (upOf store.nodes) oldIdx i then -1 else 0) +
          if Climbs (upOf store.nodes) idx i then 1 else 0
        unfold tally
        split <;> split <;> omega

/-! ## Many votes -/

/-- Votes cast one after the other. -/
def castVotes (votes : VoteMap) (cast : List (Sigma fun _ : Nat => Bytes32)) : VoteMap :=
  cast.foldl (fun votes vote => votes.insert vote.1 vote.2) votes

/-- Of the votes a validator casts, the last one stands. -/
theorem lookup_castVotes_cases (votes : VoteMap) (cast : List (Sigma fun _ : Nat => Bytes32))
    (v : Nat) :
    ((∀ vote ∈ cast, vote.1 ≠ v) ∧ (castVotes votes cast).lookup v = votes.lookup v) ∨
      ∃ before root after, cast = before ++ ⟨v, root⟩ :: after ∧ (∀ vote ∈ after, vote.1 ≠ v) ∧
        (castVotes votes cast).lookup v = some root := by
  induction cast generalizing votes with
  | nil => exact .inl ⟨fun _ h => (List.not_mem_nil h).elim, rfl⟩
  | cons vote cast ih =>
    rcases ih (votes.insert vote.1 vote.2) with ⟨hsilent, hlook⟩ | ⟨before, root, after, rfl, h⟩
    · by_cases hv : v = vote.1
      · subst hv
        rw [AList.lookup_insert] at hlook
        exact .inr ⟨[], vote.2, cast, rfl, hsilent, hlook⟩
      · rw [AList.lookup_insert_ne hv] at hlook
        exact .inl ⟨List.forall_mem_cons.mpr ⟨Ne.symm hv, hsilent⟩, hlook⟩
    · exact .inr ⟨vote :: before, root, after, rfl, h⟩

private theorem lookup_castVotes {v : Nat} (h : (castVotes votes cast).lookup v = some root) :
    (⟨v, root⟩ : Sigma fun _ : Nat => Bytes32) ∈ cast ∨ votes.lookup v = some root := by
  rcases lookup_castVotes_cases votes cast v with
    ⟨_, hlook⟩ | ⟨before, other, after, rfl, _, hlook⟩
  · exact .inr (hlook.symm.trans h)
  · rw [hlook, some_inj] at h
    subst h
    exact .inl (by simp)

/-- What a cast of votes changes: the votes, and weights and best children with them. -/
structure Voted (votes newVotes : VoteMap) (store store' : ForkChoiceStore) : Prop where
  tree : SameTree store store'
  head : store'.head = store.head
  headSlot : store'.headSlot = store.headSlot
  justified : store'.latestJustified = store.latestJustified
  finalized : store'.latestFinalized = store.latestFinalized
  votes : store'.latestVotes = votes
  newVotes : store'.latestNewVotes = newVotes

theorem Voted.trans {votes' newVotes' : VoteMap} (h : Voted votes newVotes store store')
    (h' : Voted votes' newVotes' store' store'') : Voted votes' newVotes' store store'' where
  tree := h.tree.trans h'.tree
  head := h'.head.trans h.head
  headSlot := h'.headSlot.trans h.headSlot
  justified := h'.justified.trans h.justified
  finalized := h'.finalized.trans h.finalized
  votes := h'.votes
  newVotes := h'.newVotes

private theorem setVotes_spec (consistent : Consistent rank store)
    (known : ∀ vote ∈ cast, vote.2 ∈ store.nodeIndices) :
    ∃ voted, cast.foldlM (fun store vote => store.setLatestVote vote.1 vote.2) store =
        some voted ∧
      Consistent rank voted ∧
      Voted (castVotes store.latestVotes cast) store.latestNewVotes store voted := by
  induction cast generalizing store with
  | nil => exact ⟨store, rfl, consistent, ⟨.refl store, rfl, rfl, rfl, rfl, rfl, rfl⟩⟩
  | cons vote cast ih =>
    obtain ⟨nodes, hset, hshape, hnext⟩ := setLatestVote_spec consistent vote.1
      (known vote List.mem_cons_self)
    obtain ⟨voted, hrun, hvoted, hcast⟩ :=
      ih hnext fun other hother => known other (List.mem_cons_of_mem _ hother)
    have hone : Voted (store.latestVotes.insert vote.1 vote.2) store.latestNewVotes store
        { store with nodes, latestVotes := store.latestVotes.insert vote.1 vote.2 } :=
      ⟨⟨rfl, rfl, rfl, rfl, rfl, hshape⟩, rfl, rfl, rfl, rfl, rfl, rfl⟩
    refine ⟨voted, ?_, hvoted, hone.trans hcast⟩
    rw [List.foldlM_cons, hset]
    exact hrun

/-- The votes an attestation casts. -/
def ballots (attestation : Attestation) : List (Sigma fun _ : Nat => Bytes32) :=
  (setBits attestation.aggregationBits).map (⟨·, attestation.data.head.root⟩)

private theorem mem_ballots {attestation : Attestation} {vote : Sigma fun _ : Nat => Bytes32} :
    vote ∈ ballots attestation ↔
      vote.1 ∈ setBits attestation.aggregationBits ∧ vote.2 = attestation.data.head.root := by
  constructor
  · intro h
    obtain ⟨v, hv, rfl⟩ := List.mem_map.mp h
    exact ⟨hv, rfl⟩
  · rintro ⟨hv, hroot⟩
    refine List.mem_map.mpr ⟨vote.1, hv, ?_⟩
    rw [← hroot]

/-- The staged votes after one more attestation. -/
def stageVote (store : ForkChoiceStore) (newVotes : VoteMap) (attestation : Attestation) :
    VoteMap :=
  if attestation.data.head.root ∈ store.blocks then castVotes newVotes (ballots attestation)
  else newVotes

/-- Staging an attestation changes the staged votes only. -/
theorem applyPending_eq (store : ForkChoiceStore) (attestation : Attestation) :
    store.applyAttestationVotes attestation .pending =
      some { store with latestNewVotes := stageVote store store.latestNewVotes attestation } := by
  unfold ForkChoiceStore.applyAttestationVotes ForkChoiceStore.resolveVoteRoot stageVote
  by_cases hknown : attestation.data.head.root ∈ store.blocks
  · rw [if_pos hknown, if_pos hknown, ballots, castVotes, List.foldl_map]
    rfl
  · rw [if_neg hknown, if_neg hknown]

/-- Pending votes are staged and nothing else. -/
theorem applyPending_all (store : ForkChoiceStore) (attestations : List Attestation) :
    attestations.foldlM (fun store attestation =>
        store.applyAttestationVotes attestation .pending) store =
      some { store with
        latestNewVotes := attestations.foldl (stageVote store) store.latestNewVotes } := by
  induction attestations generalizing store with
  | nil => rfl
  | cons attestation attestations ih =>
    rw [List.foldlM_cons, applyPending_eq]
    show attestations.foldlM _ _ = _
    rw [ih]
    rfl

/-- The active votes after an attestation is applied at once. -/
def activeVotes (store : ForkChoiceStore) (attestation : Attestation) : VoteMap :=
  if attestation.data.head.root ∈ store.blocks then
    castVotes store.latestVotes (ballots attestation)
  else store.latestVotes

section

variable (consistent : Consistent rank store)

include consistent

/-- Votes of a block take effect at once. -/
theorem applyActive_spec (attestation : Attestation) :
    ∃ voted, store.applyAttestationVotes attestation .active = some voted ∧
      Consistent rank voted ∧
      Voted (activeVotes store attestation) store.latestNewVotes store voted := by
  unfold ForkChoiceStore.applyAttestationVotes ForkChoiceStore.resolveVoteRoot activeVotes
  by_cases hknown : attestation.data.head.root ∈ store.blocks
  · have hballots : ∀ vote ∈ ballots attestation, vote.2 ∈ store.nodeIndices := by
      intro vote hvote
      rw [(mem_ballots.mp hvote).2]
      exact consistent.skeleton.stored.mp hknown
    obtain ⟨voted, hrun, hrest⟩ := setVotes_spec consistent hballots
    refine ⟨voted, ?_, ?_⟩
    · rw [if_pos hknown]
      rw [ballots, List.foldlM_map] at hrun
      exact hrun
    · rw [if_pos hknown]
      exact hrest
  · rw [if_neg hknown, if_neg hknown]
    exact ⟨store, rfl, consistent, ⟨.refl store, rfl, rfl, rfl, rfl, rfl, rfl⟩⟩

/-- Staged votes for stored blocks keep the store consistent. -/
theorem Consistent.stage (known : KnownVotes store newVotes) :
    Consistent rank { store with latestNewVotes := newVotes } :=
  ⟨consistent.skeleton.of_sameTree ⟨rfl, rfl, rfl, rfl, rfl, .refl _⟩, consistent.votes, known,
    consistent.arena⟩

/-- A staged vote is for a stored block. -/
theorem Consistent.knownVotes_stageVote
    (known : KnownVotes store newVotes) (attestation : Attestation) :
    KnownVotes store (stageVote store newVotes attestation) := by
  intro v r hlook
  unfold stageVote at hlook
  split at hlook
  · rename_i hhead
    rcases lookup_castVotes hlook with hmem | hold
    · have hroot : r = attestation.data.head.root := (mem_ballots.mp hmem).2
      rw [hroot]
      exact consistent.skeleton.stored.mp hhead
    · exact known hold
  · exact known hlook

private theorem Consistent.stageAll
    (attestations : List Attestation) :
    Consistent rank { store with
      latestNewVotes := attestations.foldl (stageVote store) store.latestNewVotes } := by
  apply consistent.stage
  have hall : ∀ newVotes, KnownVotes store newVotes →
      KnownVotes store (attestations.foldl (stageVote store) newVotes) := by
    induction attestations with
    | nil => exact fun _ known => known
    | cons attestation attestations ih =>
      intro newVotes known
      exact ih _ (consistent.knownVotes_stageVote known attestation)
  exact hall _ consistent.newVotes

end

/-! ## The view by roots -/

/-- Roots compare as their byte strings do. -/
instance : LinearOrder Bytes32 where
  le_refl root := BitVec.le_refl root
  le_trans _ _ _ := BitVec.le_trans
  lt_iff_le_not_ge a b := by
    rw [BitVec.le_def, BitVec.le_def, BitVec.lt_def]
    omega
  le_antisymm _ _ := BitVec.le_antisymm
  le_total a b := BitVec.le_total a b
  toDecidableLE := inferInstance

namespace ForkChoiceStore

/-- The stored parent link of a block: its parent, if that is stored too. -/
def storedParent (store : ForkChoiceStore) (root : Bytes32) : Option Bytes32 :=
  (store.parents.lookup root).filter (· ∈ store.blocks)

/-- The active vote of a validator. -/
def activeVote (store : ForkChoiceStore) (validator : Nat) : Option Bytes32 :=
  store.latestVotes.lookup validator

/-- The recorded parent, if it is stored. -/
theorem storedParent_eq_some {store : ForkChoiceStore} {root parent : Bytes32} :
    store.storedParent root = some parent ↔
      store.parents.lookup root = some parent ∧ parent ∈ store.blocks := by
  rw [storedParent, Option.filter_eq_some_iff]
  simp

end ForkChoiceStore

theorem SameTree.storedParent_eq (tree : SameTree store store') :
    store'.storedParent = store.storedParent := by
  funext root
  rw [ForkChoiceStore.storedParent, ForkChoiceStore.storedParent, tree.parents, tree.blocks]

namespace Consistent

variable (consistent : Consistent rank store)
include consistent

variable {i j : Nat} {r s : Bytes32} {node : ProtoNode}

section

variable (hi : rootAt store.nodes i = some r)

include hi

private theorem storedParent_iff {q : Bytes32} :
    store.storedParent r = some q ↔
      ∃ p, upOf store.nodes i = some p ∧ rootAt store.nodes p = some q := by
  rw [ForkChoiceStore.storedParent_eq_some]
  constructor
  · rintro ⟨hparent, hstored⟩
    obtain ⟨p, _, hp⟩ := consistent.skeleton.rootAt_of_mem (consistent.skeleton.stored.mp hstored)
    exact ⟨p, (consistent.skeleton.linked hi hp).mpr hparent, hp⟩
  · rintro ⟨p, hup, hp⟩
    exact ⟨(consistent.skeleton.linked hi hp).mp hup,
      consistent.skeleton.stored.mpr (mem_of_lookup (consistent.skeleton.index.mpr hp))⟩

private theorem climbs_root (hj : rootAt store.nodes j = some s)
    (h : Climbs (upOf store.nodes) i j) : Climbs store.storedParent r s := by
  induction h generalizing s with
  | refl =>
    rw [hi, some_inj] at hj
    exact hj ▸ .refl _ r
  | @tail k l _ hlast ih =>
    obtain ⟨t, ht⟩ := exists_rootAt (lt_of_upOf hlast)
    have hstep := (consistent.storedParent_iff ht).mpr ⟨l, hlast, hj⟩
    exact (ih ht).trans (.step hstep (.refl _ s))

private theorem climbs_index (h : Climbs store.storedParent r s) :
    ∃ j, rootAt store.nodes j = some s ∧ Climbs (upOf store.nodes) i j := by
  induction h with
  | refl => exact ⟨i, hi, .refl _ i⟩
  | tail _ hlast ih =>
    obtain ⟨k, hk, hclimb⟩ := ih
    obtain ⟨p, hup, hp⟩ := (consistent.storedParent_iff hk).mp hlast
    exact ⟨p, hp, hclimb.trans (.step hup (.refl _ p))⟩

private theorem climbs_iff_climbs
    (hj : rootAt store.nodes j = some s) :
    Climbs (upOf store.nodes) i j ↔ Climbs store.storedParent r s := by
  refine ⟨consistent.climbs_root hi hj, fun h => ?_⟩
  obtain ⟨k, hk, hclimb⟩ := consistent.climbs_index hi h
  exact consistent.skeleton.rootAt_inj hk hj ▸ hclimb

private theorem support_eq :
    support (upOf store.nodes) (votesAt store) i =
      support store.storedParent store.activeVote r := by
  have hsame : Forests.supporters (upOf store.nodes) (votesAt store) i =
      Forests.supporters store.storedParent store.activeVote r := by
    ext v
    rw [mem_supporters, mem_supporters]
    constructor
    · rintro ⟨x, hx, hclimb⟩
      rw [votesAt, Option.bind_eq_some_iff] at hx
      obtain ⟨vote, hvote, hx⟩ := hx
      have hroot := consistent.skeleton.index.mp hx
      exact ⟨vote, hvote, (consistent.climbs_iff_climbs hroot hi).mp hclimb⟩
    · rintro ⟨vote, hvote, hclimb⟩
      obtain ⟨x, hx, hroot⟩ := consistent.skeleton.rootAt_of_mem (consistent.votes hvote)
      refine ⟨x, ?_, (consistent.climbs_iff_climbs hroot hi).mpr hclimb⟩
      rw [votesAt, Option.bind_eq_some_iff]
      exact ⟨vote, hvote, hx⟩
  rw [support, support, hsame]

end

/-- A node's weight counts the validators that vote for its block or for one below it. -/
theorem weight_eq (h : store.nodes[i]? = some node) :
    node.weight = support store.storedParent store.activeVote node.root := by
  have hroot : rootAt store.nodes i = some node.root := by rw [rootAt, h]; rfl
  rw [consistent.arena.weight h, tally, consistent.support_eq hroot]

/-! ## Best children -/

/-- Among stored blocks `child_is_better` is the order by support. -/
theorem childIsBetter_iff (hi : rootAt store.nodes i = some r)
    (hj : rootAt store.nodes j = some s) :
    childIsBetter store.nodes i j = true ↔
      Outweighs store.storedParent store.activeVote r s := by
  obtain ⟨a, ha, rfl⟩ := map_eq_some_iff.mp hi
  obtain ⟨b, hb, rfl⟩ := map_eq_some_iff.mp hj
  unfold childIsBetter Outweighs
  rw [ha, hb]
  show decide _ = true ↔ _
  rw [decide_eq_true_iff, consistent.weight_eq ha, consistent.weight_eq hb]
  constructor
  · rintro (h | ⟨h, hlt⟩)
    · exact .inl (Int.ofNat_lt.mp h)
    · exact .inr ⟨(Int.ofNat_inj.mp h).symm, hlt⟩
  · rintro (h | ⟨h, hlt⟩)
    · exact .inl (Int.ofNat_lt.mpr h)
    · exact .inr ⟨Int.ofNat_inj.mpr h.symm, hlt⟩

section

variable (h : store.nodes[i]? = some node)

include h

private theorem rootAt_child {c : Nat} (hc : c ∈ node.children) :
    ∃ s, rootAt store.nodes c = some s ∧ store.storedParent s = some node.root := by
  have hup := (consistent.arena.children h c).mp hc
  obtain ⟨s, hs⟩ := exists_rootAt (lt_of_upOf hup)
  refine ⟨s, hs, (consistent.storedParent_iff hs).mpr ⟨i, hup, ?_⟩⟩
  rw [rootAt, h]
  rfl

private theorem child_of_storedParent
    (hs : store.storedParent s = some node.root) :
    ∃ c, rootAt store.nodes c = some s ∧ c ∈ node.children := by
  have hroot : rootAt store.nodes i = some node.root := by rw [rootAt, h]; rfl
  have hmem : s ∈ store.nodeIndices := consistent.skeleton.parented.mp
    (mem_of_lookup (ForkChoiceStore.storedParent_eq_some.mp hs).1)
  obtain ⟨c, _, hc⟩ := consistent.skeleton.rootAt_of_mem hmem
  obtain ⟨p, hup, hp⟩ := (consistent.storedParent_iff hc).mp hs
  obtain rfl := consistent.skeleton.rootAt_inj hp hroot
  exact ⟨c, hc, (consistent.arena.children h c).mpr hup⟩

/-- A node without a best child has no stored child. -/
theorem bestChild_none_iff :
    node.bestChild = none ↔ ∀ s, store.storedParent s ≠ some node.root := by
  rw [consistent.arena.best h, bestChildOf, pick_eq_none_iff]
  constructor
  · intro hnil s hs
    obtain ⟨c, _, hc⟩ := consistent.child_of_storedParent h hs
    rw [hnil] at hc
    exact List.not_mem_nil hc
  · intro hnone
    apply List.eq_nil_iff_forall_not_mem.mpr
    intro c hc
    obtain ⟨s, _, hs⟩ := consistent.rootAt_child h hc
    exact hnone s hs

/-- The best child of a node is the best supported stored child of its block. -/
theorem bestChild_some {c : Nat}
    (hbest : node.bestChild = some c) :
    ∃ s, rootAt store.nodes c = some s ∧ upOf store.nodes c = some i ∧
      BestChild store.storedParent store.activeVote node.root s := by
  rw [consistent.arena.best h, bestChildOf] at hbest
  have hmem : c ∈ node.children := mem_of_pick hbest
  obtain ⟨s, hs, hparent⟩ := consistent.rootAt_child h hmem
  refine ⟨s, hs, (consistent.arena.children h c).mp hmem, hparent, ?_⟩
  intro d hd hne
  obtain ⟨e, he, hechild⟩ := consistent.child_of_storedParent h hd
  have hec : e ≠ c := by
    rintro rfl
    rw [hs, some_inj] at he
    exact hne he.symm
  rw [← consistent.childIsBetter_iff hs he]
  refine pick_best ?_ ?_ hbest e hechild hec
  · intro x hx y hy z hz hxy hyz
    obtain ⟨rx, hrx, _⟩ := consistent.rootAt_child h hx
    obtain ⟨ry, hry, _⟩ := consistent.rootAt_child h hy
    obtain ⟨rz, hrz, _⟩ := consistent.rootAt_child h hz
    rw [consistent.childIsBetter_iff hrx hry] at hxy
    rw [consistent.childIsBetter_iff hry hrz] at hyz
    rw [consistent.childIsBetter_iff hrx hrz]
    exact hxy.trans hyz
  · intro x hx y hy hne'
    obtain ⟨rx, hrx, _⟩ := consistent.rootAt_child h hx
    obtain ⟨ry, hry, _⟩ := consistent.rootAt_child h hy
    rw [consistent.childIsBetter_iff hrx hry, consistent.childIsBetter_iff hry hrx]
    apply outweighs_total
    rintro rfl
    exact hne' (consistent.skeleton.rootAt_inj hrx hry)

end

/-! ## The head -/

/-- One turn of the loop of `find_head`. -/
def headTurn (store : ForkChoiceStore) (current : Nat) : Turn Nat Nat :=
  match (store.nodes[current]?).bind (·.bestChild) with
  | some bestChild => .again bestChild
  | none => .done current

/-- `find_head` returns, and returns the head of the tree below the justified root. -/
theorem findHead_spec (justified : store.latestJustified.root ∈ store.nodeIndices) :
    ∃ head, store.findHead = some head ∧
      GhostHead store.storedParent store.activeVote store.latestJustified.root head := by
  obtain ⟨start, hstart, hroot⟩ := consistent.skeleton.rootAt_of_mem justified
  let rankAt : Nat → Nat := fun i => ((rootAt store.nodes i).map rank).getD 0
  have hfalls : Falls (upOf store.nodes) rankAt :=
    consistent.skeleton.falls_arena consistent.arena.range
  -- what is found from here on is found from the justified root
  let Inv : Nat → Prop := fun current => ∃ r, rootAt store.nodes current = some r ∧
    ∀ head, GhostHead store.storedParent store.activeVote r head →
      GhostHead store.storedParent store.activeVote store.latestJustified.root head
  let Post : Nat → Prop := fun leaf => ∃ r, rootAt store.nodes leaf = some r ∧
    GhostHead store.storedParent store.activeVote store.latestJustified.root r
  let variant : Nat → Nat := fun current =>
    ((Finset.range store.nodes.length).filter fun j => rankAt current < rankAt j).card
  have hloop : ∃ leaf,
      iterate (headTurn store) (store.nodes.length + 1) start = some leaf ∧ Post leaf := by
    refine iterate_of_variant Inv Post variant ?_ ?_ ⟨_, hroot, fun _ h => h⟩ ?_
    · rintro current next ⟨r, hr, hfound⟩ hturn
      obtain ⟨node, hnode, rfl⟩ := map_eq_some_iff.mp hr
      simp only [headTurn, hnode, Option.bind_some] at hturn
      split at hturn
      · next hbest =>
        cases hturn
        obtain ⟨s, hs, hup, hchild⟩ := consistent.bestChild_some hnode hbest
        refine ⟨⟨s, hs, fun head h => hfound head (.down hchild h)⟩, ?_⟩
        exact card_filter_lt (r := fun j k => rankAt k < rankAt j)
          (fun h h' => h'.trans h) (fun _ => lt_irrefl _)
          (Finset.mem_range.mpr (lt_of_upOf hup)) (hfalls hup)
      · cases hturn
    · rintro current result ⟨r, hr, hfound⟩ hturn
      obtain ⟨node, hnode, rfl⟩ := map_eq_some_iff.mp hr
      simp only [headTurn, hnode, Option.bind_some] at hturn
      split at hturn
      · cases hturn
      · next hbest =>
        cases hturn
        exact ⟨node.root, hr, hfound _ (.leaf ((consistent.bestChild_none_iff hnode).mp hbest))⟩
    · have hle := Finset.card_filter_le (Finset.range store.nodes.length)
        fun j => rankAt start < rankAt j
      rw [Finset.card_range] at hle
      exact Nat.lt_succ_of_le hle
  obtain ⟨leaf, hrun, head, hleaf, hghost⟩ := hloop
  refine ⟨head, ?_, hghost⟩
  obtain ⟨node, hnode, rfl⟩ := map_eq_some_iff.mp hleaf
  rw [ForkChoiceStore.findHead, hstart]
  show (do
    let leaf ← iterate (headTurn store) (store.nodes.length + 1) start
    let node ← store.nodes[leaf]?
    return node.root) = _
  rw [hrun]
  show (do let node ← store.nodes[leaf]?; return node.root) = _
  rw [hnode]
  rfl

end Consistent

/-! ## Moving the head -/

/-- Without the justified block the head stays. -/
theorem findHead_of_unknown (unknown : store.latestJustified.root ∉ store.nodeIndices) :
    store.findHead = some store.head := by
  rw [ForkChoiceStore.findHead, AList.lookup_eq_none.mpr unknown]

/-- `find_head` reads the arena and the justified root only, as long as that root is stored. -/
theorem findHead_congr (nodes : store'.nodes = store.nodes)
    (indices : store'.nodeIndices = store.nodeIndices)
    (justified : store'.latestJustified.root = store.latestJustified.root)
    (known : store.latestJustified.root ∈ store.nodeIndices) :
    store'.findHead = store.findHead := by
  obtain ⟨start, hstart⟩ := exists_lookup known
  unfold ForkChoiceStore.findHead
  rw [nodes, indices, justified, hstart]

/-- The head that is found is indexed. -/
theorem Consistent.findHead_mem (consistent : Consistent rank store)
    (known : store.latestJustified.root ∈ store.nodeIndices) (found : store.findHead = some head) :
    head ∈ store.nodeIndices := by
  obtain ⟨head', hfound, hghost⟩ := consistent.findHead_spec known
  obtain rfl : head = head' := some_inj.mp (found.symm.trans hfound)
  rcases hghost.eq_or_child with rfl | ⟨parent, hparent⟩
  · exact known
  · exact consistent.skeleton.parented.mp
      (mem_of_lookup (ForkChoiceStore.storedParent_eq_some.mp hparent).1)

/-- The head is the one `find_head` finds; it is stored, and `head_slot` is its slot. -/
structure Headed (store : ForkChoiceStore) : Prop where
  found : store.findHead = some store.head
  slot : store.blockSlot store.head = some store.headSlot

/-- Exactly the stored blocks have a slot. -/
theorem blockSlot_eq_none : store.blockSlot root = none ↔ root ∉ store.blocks := by
  rw [ForkChoiceStore.blockSlot, Option.map_eq_none_iff, AList.lookup_eq_none]

theorem exists_blockSlot (stored : root ∈ store.blocks) :
    ∃ slot, store.blockSlot root = some slot := by
  rw [← Option.ne_none_iff_exists', Ne, blockSlot_eq_none, not_not]
  exact stored

/-- The head is stored. -/
theorem Headed.stored (headed : Headed store) : store.head ∈ store.blocks := by
  by_contra hnot
  rw [← blockSlot_eq_none, headed.slot] at hnot
  cases hnot

/-- What `find_head` finds is stored if the head it falls back to is. -/
theorem Consistent.findHead_stored (consistent : Consistent rank store)
    (stored : store.head ∈ store.blocks) (found : store.findHead = some head) :
    head ∈ store.blocks := by
  by_cases hknown : store.latestJustified.root ∈ store.nodeIndices
  · exact consistent.skeleton.stored.mpr (consistent.findHead_mem hknown found)
  · rw [findHead_of_unknown hknown] at found
    cases found
    exact stored

/-- A store whose head has moved to what `find_head` found is headed. -/
theorem headed_of_moved (found : store.findHead = some head) (stored : head ∈ store.blocks)
    (nodes : store'.nodes = store.nodes) (indices : store'.nodeIndices = store.nodeIndices)
    (justified : store'.latestJustified.root = store.latestJustified.root)
    (blocks : store'.blocks = store.blocks) (moved : ∀ slot, store.blockSlot head = some slot →
      store'.head = head ∧ store'.headSlot = slot) : Headed store' := by
  obtain ⟨slot, hslot⟩ := exists_blockSlot stored
  obtain ⟨hhead, hheadSlot⟩ := moved slot hslot
  refine ⟨?_, ?_⟩
  · by_cases hknown : store.latestJustified.root ∈ store.nodeIndices
    · rw [findHead_congr nodes indices justified hknown, hhead]
      exact found
    · apply findHead_of_unknown
      rw [justified, indices]
      exact hknown
  · rw [hhead, hheadSlot, ForkChoiceStore.blockSlot, blocks]
    exact hslot

/-- Whether a store is headed is read off these fields. -/
theorem Headed.congr {store' : ForkChoiceStore} (headed : Headed store)
    (nodes : store'.nodes = store.nodes) (indices : store'.nodeIndices = store.nodeIndices)
    (justified : store'.latestJustified.root = store.latestJustified.root)
    (blocks : store'.blocks = store.blocks) (head : store'.head = store.head)
    (headSlot : store'.headSlot = store.headSlot) : Headed store' := by
  refine headed_of_moved headed.found headed.stored nodes indices justified blocks ?_
  intro slot hslot
  rw [headed.slot, some_inj] at hslot
  exact ⟨head, headSlot.trans hslot⟩

/-- Head and slot after `move_head`. -/
theorem moveHead_eq (store : ForkChoiceStore) (head : Bytes32) :
    ∃ newHead newSlot, store.moveHead head =
        { store with head := newHead, headSlot := newSlot } ∧
      ∀ slot, store.blockSlot head = some slot → newHead = head ∧ newSlot = slot := by
  unfold ForkChoiceStore.moveHead
  cases hslot : store.blockSlot head with
  | none =>
    refine ⟨store.head, store.headSlot, rfl, ?_⟩
    intro slot h
    cases h
  | some slot =>
    refine ⟨head, slot, rfl, ?_⟩
    intro slot' h
    exact ⟨rfl, some_inj.mp h⟩

theorem Consistent.moveHead (consistent : Consistent rank store) (head : Bytes32) :
    Consistent rank (store.moveHead head) := by
  obtain ⟨newHead, newSlot, heq, _⟩ := moveHead_eq store head
  rw [heq]
  exact consistent.congr ⟨rfl, rfl, rfl, rfl, rfl, .refl _⟩ rfl rfl rfl

/-- A store whose head was just looked up is headed. -/
theorem headed_moveHead (found : store.findHead = some head) (stored : head ∈ store.blocks) :
    Headed (store.moveHead head) := by
  obtain ⟨newHead, newSlot, heq, hmoved⟩ := moveHead_eq store head
  rw [heq]
  exact headed_of_moved found stored rfl rfl rfl rfl hmoved

/-! ## What follows a head change -/

theorem isDescendantTurn_again {ancestor node next : Bytes32}
    (h : isDescendantTurn parents ancestor node = .again next) :
    parents.lookup node = some next ∧ next ≠ Bytes32.zero := by
  unfold isDescendantTurn at h
  split at h
  · cases h
  · next hparent =>
    split at h
    · cases h
    · split at h <;> cases h
      next hne => exact ⟨hparent, hne⟩

theorem isReorgTurn_again {oldHead node next : Bytes32}
    (h : isReorgTurn parents oldHead node = .again next) :
    parents.lookup node = some next ∧ next ≠ Bytes32.zero := by
  unfold isReorgTurn at h
  split at h
  · cases h
  · split at h
    · cases h
    · next hparent =>
      split at h <;> cases h
      next hne => exact ⟨hparent, hne⟩

private theorem Skeleton.isDescendant_returns (skeleton : Skeleton rank store)
    (node ancestor : Bytes32) : ∃ below, store.isDescendant node ancestor = some below := by
  unfold ForkChoiceStore.isDescendant
  split
  · exact ⟨true, rfl⟩
  · exact skeleton.parentWalk_returns (fun _ _ => isDescendantTurn_again) node

private theorem Skeleton.headChangeIsReorg_returns (skeleton : Skeleton rank store)
    (oldHead newHead : Bytes32) : ∃ reorg, store.headChangeIsReorg oldHead newHead = some reorg := by
  unfold ForkChoiceStore.headChangeIsReorg
  split
  · exact ⟨false, rfl⟩
  · exact skeleton.parentWalk_returns (fun _ _ => isReorgTurn_again) newHead

private theorem Skeleton.safeTargetStep_returns (skeleton : Skeleton rank store) (anchor : Bytes32)
    (best : Checkpoint) (root : Bytes32) (slot : Nat) :
    ∃ next, store.safeTargetStep anchor best root slot = some next := by
  obtain ⟨below, hbelow⟩ := skeleton.isDescendant_returns root anchor
  unfold ForkChoiceStore.safeTargetStep
  rw [hbelow]
  show ∃ next, (if ¬ below = true then _ else _) = some next
  split
  · exact ⟨best, rfl⟩
  · split
    · exact ⟨best, rfl⟩
    · split
      · exact ⟨⟨root, slot⟩, rfl⟩
      · exact ⟨best, rfl⟩

/-- Two stores that differ in counters and in the safe target only. -/
structure SameView (store store' : ForkChoiceStore) : Prop where
  tree : SameTree store store'
  nodes : store'.nodes = store.nodes
  head : store'.head = store.head
  headSlot : store'.headSlot = store.headSlot
  justified : store'.latestJustified = store.latestJustified
  finalized : store'.latestFinalized = store.latestFinalized
  votes : store'.latestVotes = store.latestVotes
  newVotes : store'.latestNewVotes = store.latestNewVotes

private theorem SameView.trans (h : SameView store store') (h' : SameView store' store'') :
    SameView store store'' where
  tree := h.tree.trans h'.tree
  nodes := h'.nodes.trans h.nodes
  head := h'.head.trans h.head
  headSlot := h'.headSlot.trans h.headSlot
  justified := h'.justified.trans h.justified
  finalized := h'.finalized.trans h.finalized
  votes := h'.votes.trans h.votes
  newVotes := h'.newVotes.trans h.newVotes

theorem Consistent.of_sameView (consistent : Consistent rank store) (same : SameView store store') :
    Consistent rank store' :=
  consistent.congr same.tree same.nodes same.votes same.newVotes

theorem Headed.of_sameView (headed : Headed store) (same : SameView store store') : Headed store' :=
  headed.congr same.nodes same.tree.nodeIndices (by rw [same.justified]) same.tree.blocks same.head
    same.headSlot

/-- `refresh_safe_target` returns and moves the safe target only. -/
theorem Skeleton.refreshSafeTarget_spec (skeleton : Skeleton rank store) :
    ∃ refreshed, store.refreshSafeTarget = some refreshed ∧ SameView store refreshed := by
  have hview : ∀ safeTarget, SameView store { store with safeTarget } := fun _ =>
    ⟨⟨rfl, rfl, rfl, rfl, rfl, .refl _⟩, rfl, rfl, rfl, rfl, rfl, rfl, rfl⟩
  unfold ForkChoiceStore.refreshSafeTarget
  split
  · exact ⟨_, rfl, hview store.head⟩
  · obtain ⟨best, hrun⟩ := foldlM_returns store.blocks.entries
      (fun best entry => skeleton.safeTargetStep_returns store.safeAnchor best entry.1
        entry.2.message.block.slot)
      ⟨store.safeAnchor, (store.blockSlot store.safeAnchor).getD store.headSlot⟩
    refine ⟨_, ?_, hview best.root⟩
    simp only [hrun]
    rfl

/-- Settling the head returns and leaves the view. -/
theorem Skeleton.settleHead_spec (skeleton : Skeleton rank store) (oldHead : Bytes32) :
    ∃ settled, store.settleHead oldHead = some settled ∧ SameView store settled := by
  obtain ⟨reorg, hreorg⟩ := skeleton.headChangeIsReorg_returns oldHead store.head
  have hview : SameView store { store with
      reorgsTotal := if reorg then store.reorgsTotal + 1 else store.reorgsTotal } :=
    ⟨⟨rfl, rfl, rfl, rfl, rfl, .refl _⟩, rfl, rfl, rfl, rfl, rfl, rfl, rfl⟩
  obtain ⟨settled, hrefresh, hview'⟩ := (skeleton.of_sameTree hview.tree).refreshSafeTarget_spec
  refine ⟨settled, ?_, hview.trans hview'⟩
  rw [ForkChoiceStore.settleHead, hreorg]
  exact hrefresh

/-! ## Votes taking effect -/

/-- What a change of votes leaves alone. -/
structure Revoted (store store' : ForkChoiceStore) : Prop where
  tree : SameTree store store'
  justified : store'.latestJustified = store.latestJustified
  finalized : store'.latestFinalized = store.latestFinalized
  headed : Headed store → Headed store'

theorem Revoted.refl (store : ForkChoiceStore) : Revoted store store :=
  ⟨.refl store, rfl, rfl, id⟩

theorem Revoted.trans (h : Revoted store store') (h' : Revoted store' store'') :
    Revoted store store'' :=
  ⟨h.tree.trans h'.tree, h'.justified.trans h.justified, h'.finalized.trans h.finalized,
    h'.headed ∘ h.headed⟩

theorem Revoted.of_sameView (same : SameView store store') :
    Revoted store store' :=
  ⟨same.tree, same.justified, same.finalized, fun h => h.of_sameView same⟩

section

variable (consistent : Consistent rank store)

include consistent

/-- Looking the head up and moving to it. -/
theorem Revoted.moveHead (found : store.findHead = some head) :
    Revoted store (store.moveHead head) := by
  obtain ⟨newHead, newSlot, hmove, _⟩ := moveHead_eq store head
  refine ⟨?_, ?_, ?_, fun headed =>
    headed_moveHead found (consistent.findHead_stored headed.stored found)⟩ <;> rw [hmove]
  exact ⟨rfl, rfl, rfl, rfl, rfl, .refl _⟩

/-- `find_head` returns on every consistent store. -/
theorem Consistent.findHead_returns :
    ∃ head, store.findHead = some head := by
  by_cases hknown : store.latestJustified.root ∈ store.nodeIndices
  · obtain ⟨head, hfound, _⟩ := consistent.findHead_spec hknown
    exact ⟨head, hfound⟩
  · exact ⟨store.head, findHead_of_unknown hknown⟩

/-- `accept_new_votes` returns: the staged votes are cast, none is staged any more. -/
theorem acceptNewVotes_spec :
    ∃ store', store.acceptNewVotes = some store' ∧ Consistent rank store' ∧
      Revoted store store' ∧
      store'.latestVotes = castVotes store.latestVotes store.latestNewVotes.entries ∧
      store'.latestNewVotes = ∅ := by
  unfold ForkChoiceStore.acceptNewVotes
  by_cases hempty : store.latestNewVotes.entries.isEmpty = true
  · have hnil : store.latestNewVotes.entries = [] := List.isEmpty_iff.mp hempty
    rw [if_pos hempty, hnil]
    exact ⟨store, rfl, consistent, .refl store, rfl, AList.ext hnil⟩
  · rw [if_neg hempty]
    have htaken : Consistent rank { store with latestNewVotes := ∅ } :=
      consistent.stage fun v r h => by
        rw [AList.lookup_empty] at h
        cases h
    have hknown : ∀ vote ∈ store.latestNewVotes.entries, vote.2 ∈ store.nodeIndices := by
      intro vote hvote
      exact consistent.newVotes (AList.mem_lookup_iff.mpr hvote)
    obtain ⟨voted, hset, hvoted, hcast⟩ := setVotes_spec htaken hknown
    obtain ⟨head, hfound⟩ := hvoted.findHead_returns
    have hmoved := hvoted.moveHead head
    obtain ⟨settled, hsettle, hview⟩ := hmoved.skeleton.settleHead_spec voted.head
    obtain ⟨newHead, newSlot, hmove, _⟩ := moveHead_eq voted head
    have hrevoted : Revoted voted settled :=
      (Revoted.moveHead hvoted hfound).trans (.of_sameView hview)
    refine ⟨settled, ?_, hmoved.of_sameView hview, ⟨?_, ?_, ?_, ?_⟩, ?_, ?_⟩
    · simp only [hset]
      show (do let head ← voted.findHead; (voted.moveHead head).settleHead voted.head) = _
      rw [hfound]
      exact hsettle
    · have htaken : SameTree store { store with latestNewVotes := ∅ } :=
        ⟨rfl, rfl, rfl, rfl, rfl, .refl _⟩
      exact htaken.trans (hcast.tree.trans hrevoted.tree)
    · exact hrevoted.justified.trans hcast.justified
    · exact hrevoted.finalized.trans hcast.finalized
    · -- the head found is stored, as the head before is, whatever the votes
      intro headed
      have hstored : voted.head ∈ voted.blocks := by
        rw [hcast.head, hcast.tree.blocks]
        exact headed.stored
      exact (headed_moveHead hfound (hvoted.findHead_stored hstored hfound)).of_sameView hview
    · rw [hview.votes, hmove]
      exact hcast.votes
    · rw [hview.newVotes, hmove]
      exact hcast.newVotes

/-- `get_proposal_head` returns: the votes are those of `accept_new_votes`. -/
theorem getProposalHead_spec :
    ∃ store', store.getProposalHead = some store' ∧ Consistent rank store' ∧
      Revoted store store' ∧
      store'.latestVotes = castVotes store.latestVotes store.latestNewVotes.entries ∧
      store'.latestNewVotes = ∅ := by
  obtain ⟨accepted, haccept, hconsistent, hrevoted, hvotes, hnew⟩ := acceptNewVotes_spec consistent
  obtain ⟨head, hfound⟩ := hconsistent.findHead_returns
  obtain ⟨newHead, newSlot, hmove, _⟩ := moveHead_eq accepted head
  refine ⟨accepted.moveHead head, ?_, hconsistent.moveHead head,
    hrevoted.trans (.moveHead hconsistent hfound), ?_⟩
  · rw [ForkChoiceStore.getProposalHead, haccept]
    show (do let head ← accepted.findHead; return accepted.moveHead head) = _
    rw [hfound]
    rfl
  · rw [hmove]
    exact ⟨hvotes, hnew⟩

/-- `get_proposal_head_with_pending` returns: the attestations are staged on top, then everything
staged is cast. -/
theorem getProposalHeadWithPending_spec
    (attestations : List Attestation) :
    ∃ store', store.getProposalHeadWithPending attestations = some store' ∧
      Consistent rank store' ∧ Revoted store store' ∧
      store'.latestVotes = castVotes store.latestVotes
        (attestations.foldl (stageVote store) store.latestNewVotes).entries ∧
      store'.latestNewVotes = ∅ := by
  have hstaged := consistent.stageAll attestations
  obtain ⟨accepted, haccept, hconsistent, hrevoted, hvotes, hnew⟩ := acceptNewVotes_spec hstaged
  obtain ⟨final, hfinal, hconsistent', hrevoted', hvotes', hnew'⟩ :=
    getProposalHead_spec hconsistent
  refine ⟨final, ?_, hconsistent', ?_, ?_, hnew'⟩
  · rw [ForkChoiceStore.getProposalHeadWithPending, applyPending_all]
    show (do let store ← ForkChoiceStore.acceptNewVotes _; store.getProposalHead) = _
    rw [haccept]
    exact hfinal
  · refine Revoted.trans ?_ (hrevoted.trans hrevoted')
    exact ⟨⟨rfl, rfl, rfl, rfl, rfl, .refl _⟩, rfl, rfl,
      fun h => h.congr rfl rfl rfl rfl rfl rfl⟩
  · rw [hvotes', hvotes, hnew]
    rfl

end

end Peam
