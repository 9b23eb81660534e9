import Peam.Laws.Ghost
import Peam.Laws.SafeTarget

/-!
# Laws of the fork choice store: what a prune does not change

A prune takes the tree apart and builds it again with other indices, moves or drops the votes for
what is gone and counts all weights anew. Seen as a forest with votes, all it does is to cut
everything off that is not below the finalized block (`prune_trims`). The weights and best children
below that block, the head and the safe target are read off the forest alone, so they are what they
were (`prune_keepsForkChoice`).
-/

namespace Peam

open Loops (iterate_keeps foldlM_keeps)
open Forests
open Option (bind_eq_some_iff some_inj)
open ForkChoiceStore (rebuildTurn refreshSafeTarget storedParent_eq_some blockSlot)

variable {rank : Bytes32 → Nat} {store pruned : ForkChoiceStore} {finalized : Bytes32}
  {rebuilt : ForkChoiceStore} {votes votes' : VoteMap} {r : Bytes32}

/-! ## The parts of a prune -/

/-- The runs a prune is made of. -/
structure PruneRun (store pruned : ForkChoiceStore) where
  kept : List Bytes32
  rebuilt : ForkChoiceStore
  votes : VoteMap
  newVotes : VoteMap
  voted : ForkChoiceStore
  head : Bytes32
  keeps : store.keptRoots store.latestFinalized.root = some kept
  rebuilds : store.rebuild kept store.latestFinalized.root = some rebuilt
  normalizes : normalizeVotes store.latestVotes store.latestFinalized.root kept store.parents =
    some votes
  normalizesNew : normalizeVotes store.latestNewVotes store.latestFinalized.root kept
    store.parents = some newVotes
  counts : (votes.entries.map (·.2)).foldlM (fun store root => store.applyVoteDelta root 1)
    { rebuilt with latestVotes := votes, latestNewVotes := newVotes } = some voted
  refreshes : (voted.resetCheckpoints.resetHead head).refreshSafeTarget = some pruned

private theorem exists_pruneRun (nonzero : store.latestFinalized.root ≠ Bytes32.zero)
    (stored : store.latestFinalized.root ∈ store.blocks)
    (h : store.pruneFinalizedHistory = some pruned) : Nonempty (PruneRun store pruned) := by
  have hgo : ¬ (store.latestFinalized.root = Bytes32.zero ∨
      store.latestFinalized.root ∉ store.blocks) := not_or.mpr ⟨nonzero, not_not.mpr stored⟩
  unfold ForkChoiceStore.pruneFinalizedHistory at h
  simp only [if_neg hgo] at h
  obtain ⟨kept, keeps, h⟩ := bind_eq_some_iff.mp h
  obtain ⟨rebuilt, rebuilds, h⟩ := bind_eq_some_iff.mp h
  obtain ⟨votes, normalizes, h⟩ := bind_eq_some_iff.mp h
  obtain ⟨newVotes, normalizesNew, h⟩ := bind_eq_some_iff.mp h
  obtain ⟨voted, counts, h⟩ := bind_eq_some_iff.mp h
  obtain ⟨head, -, refreshes⟩ := bind_eq_some_iff.mp h
  exact ⟨⟨kept, rebuilt, votes, newVotes, voted, head, keeps, rebuilds, normalizes, normalizesNew,
    counts, refreshes⟩⟩

/-- Votes and the number of validators are as they were. -/
structure SameBallots (store store' : ForkChoiceStore) : Prop where
  votes : store'.latestVotes = store.latestVotes
  newVotes : store'.latestNewVotes = store.latestNewVotes
  validatorCount : store'.validatorCount = store.validatorCount

private theorem SameBallots.refl (store : ForkChoiceStore) :
    SameBallots store store := ⟨rfl, rfl, rfl⟩

private theorem SameBallots.trans {store' store'' : ForkChoiceStore} (h : SameBallots store store')
    (h' : SameBallots store' store'') : SameBallots store store'' :=
  ⟨h'.votes.trans h.votes, h'.newVotes.trans h.newVotes,
    h'.validatorCount.trans h.validatorCount⟩

variable {kept : List Bytes32} {refreshed : ForkChoiceStore}

/-- What is read off the votes and counters alone is as it was after the tree is built again. -/
theorem rebuild_keeps {γ : Type} (read : ForkChoiceStore → γ)
    (clears : read store.cleared = read store) (adds : ∀ new root parentIdx signed state,
      read (ForkChoiceStore.addKept new root parentIdx signed state) = read new)
    (arena : ∀ (new : ForkChoiceStore) (nodes : List ProtoNode),
      read { new with nodes } = read new) (h : store.rebuild kept finalized = some rebuilt) :
    read rebuilt = read store := by
  obtain ⟨bare, hloop, hrest⟩ := bind_eq_some_iff.mp h
  cases hrest
  rw [arena]
  refine iterate_keeps (fun state => read state.2 = read store) (read · = read store) ?_ ?_
    clears hloop
  · intro state next hinv hturn
    obtain ⟨stack, new⟩ := state
    cases stack with
    | nil => cases hturn
    | cons entry stack =>
      obtain ⟨root, parentIdx⟩ := entry
      rw [rebuildTurn] at hturn
      split at hturn
      · cases hturn
        exact hinv
      · split at hturn
        · cases hturn
          exact (adds new root parentIdx _ _).trans hinv
        · cases hturn
          exact hinv
  · intro state result hinv hturn
    obtain ⟨stack, new⟩ := state
    cases stack with
    | nil =>
      cases hturn
      exact hinv
    | cons entry stack =>
      rw [rebuildTurn] at hturn
      split at hturn
      · cases hturn
      · split at hturn <;> cases hturn

private theorem sameBallots_rebuild (h : store.rebuild kept finalized = some rebuilt) :
    SameBallots store rebuilt where
  votes := rebuild_keeps (·.latestVotes) rfl (fun _ _ parentIdx _ _ => by cases parentIdx <;> rfl)
    (fun _ _ => rfl) h
  newVotes := rebuild_keeps (·.latestNewVotes) rfl
    (fun _ _ parentIdx _ _ => by cases parentIdx <;> rfl) (fun _ _ => rfl) h
  validatorCount := rebuild_keeps (·.validatorCount) rfl
    (fun _ _ parentIdx _ _ => by cases parentIdx <;> rfl) (fun _ _ => rfl) h

private theorem sameBallots_applyVoteDelta {next : ForkChoiceStore} {root : Bytes32} {delta : Int}
    (h : store.applyVoteDelta root delta = some next) : SameBallots store next := by
  unfold ForkChoiceStore.applyVoteDelta at h
  split at h
  · cases h
    exact .refl store
  · obtain ⟨nodes, -, hnext⟩ := bind_eq_some_iff.mp h
    cases hnext
    exact ⟨rfl, rfl, rfl⟩

private theorem sameBallots_resetHead (head : Bytes32) :
    SameBallots store (store.resetHead head) := by
  unfold ForkChoiceStore.resetHead
  split <;> exact ⟨rfl, rfl, rfl⟩

section

variable (h : store.refreshSafeTarget = some refreshed)

include h

/-- `refresh_safe_target` moves the safe target and nothing else. -/
theorem refreshSafeTarget_eq :
    refreshed = { store with safeTarget := refreshed.safeTarget } := by
  unfold refreshSafeTarget at h
  split at h
  · cases h
    rfl
  · obtain ⟨best, -, hbest⟩ := bind_eq_some_iff.mp h
    cases hbest
    rfl

private theorem sameBallots_refreshSafeTarget :
    SameBallots store refreshed := by
  rw [refreshSafeTarget_eq h]
  exact ⟨rfl, rfl, rfl⟩

private theorem refreshSafeTarget_again :
    refreshed.refreshSafeTarget = some refreshed := by
  have hsame : ∀ safeTarget,
      refreshSafeTarget { store with safeTarget } = store.refreshSafeTarget :=
    fun _ => rfl
  rw [refreshSafeTarget_eq h, hsame, h, ← refreshSafeTarget_eq h]

end

namespace PruneRun

variable (run : PruneRun store pruned)
include run

private theorem sameBallots : SameBallots
    { run.rebuilt with latestVotes := run.votes, latestNewVotes := run.newVotes } pruned := by
  have hvoted : SameBallots
      { run.rebuilt with latestVotes := run.votes, latestNewVotes := run.newVotes } run.voted :=
    foldlM_keeps (SameBallots
        { run.rebuilt with latestVotes := run.votes, latestNewVotes := run.newVotes })
      (fun _ _ _ same hdelta => same.trans (sameBallots_applyVoteDelta hdelta)) _ (.refl _)
      run.counts
  have hcheckpoints : SameBallots run.voted run.voted.resetCheckpoints := ⟨rfl, rfl, rfl⟩
  have hreset := hcheckpoints.trans (sameBallots_resetHead run.head)
  exact hvoted.trans (hreset.trans (sameBallots_refreshSafeTarget run.refreshes))

private theorem validatorCount_eq : pruned.validatorCount = store.validatorCount :=
  run.sameBallots.validatorCount.trans (sameBallots_rebuild run.rebuilds).validatorCount

end PruneRun

/-! ## Votes -/

/-- A prune moves the votes for an ancestor of the finalized block to that block and drops the votes
for a block that is neither kept nor an ancestor. -/
theorem normalizePrunedVoteRoot_gone (skeleton : Skeleton rank store) {root : Bytes32}
    (stored : root ∈ store.blocks) (gone : root ∉ kept) :
    ∃ moved, normalizePrunedVoteRoot root finalized kept store.parents = some moved ∧
      (Climbs store.storedParent finalized root → moved = some finalized) ∧
      (¬ Climbs store.storedParent finalized root → moved = none) := by
  unfold normalizePrunedVoteRoot
  rw [if_neg gone]
  refine skeleton.parentWalk
    (fun cursor => Climbs store.storedParent finalized root ↔
      Climbs store.storedParent cursor root)
    (fun moved => (Climbs store.storedParent finalized root → moved = some finalized) ∧
      (¬ Climbs store.storedParent finalized root → moved = none)) ?_ ?_ Iff.rfl
  · intro cursor next hsame hturn
    obtain ⟨hlink, hnext⟩ := normalizeTurn_again hturn
    have hne : cursor ≠ root := by
      intro heq
      rw [normalizeTurn, if_pos heq] at hturn
      cases hturn
    exact ⟨hsame.trans (skeleton.climbs_parent stored hlink hne), hlink, hnext⟩
  · intro cursor moved hsame hturn
    rw [hsame]
    unfold normalizeTurn at hturn
    by_cases hfound : cursor = root
    · rw [if_pos hfound] at hturn
      cases hturn
      exact ⟨fun _ => rfl, fun hnot => absurd (hfound ▸ .refl _ cursor) hnot⟩
    · rw [if_neg hfound] at hturn
      -- the walk ends at a block without a parent, which is not the one voted for
      have hend : moved = none ∧ ∀ parent, store.parents.lookup cursor = some parent →
          parent = Bytes32.zero := by
        split at hturn
        · rename_i hnone
          cases hturn
          refine ⟨rfl, fun parent hparent => ?_⟩
          rw [hnone] at hparent
          cases hparent
        · rename_i parent hparent
          split at hturn
          · rename_i hzero
            cases hturn
            refine ⟨rfl, fun other hother => ?_⟩
            rw [hparent, some_inj] at hother
            rw [← hother, hzero]
          · cases hturn
      rw [skeleton.climbs_rootless hend.2]
      exact ⟨fun heq => absurd heq hfound, fun _ => hend.1⟩

/-- What a prune does to votes. -/
structure Relocated (store : ForkChoiceStore) (finalized : Bytes32) (votes votes' : VoteMap) :
    Prop where
  stays : ∀ {v r}, votes.lookup v = some r → Below store finalized r → votes'.lookup v = some r
  moves : ∀ {v r}, votes.lookup v = some r → Climbs store.storedParent finalized r →
    r ≠ finalized → votes'.lookup v = some finalized
  drops : ∀ {v r}, votes.lookup v = some r → ¬ Below store finalized r →
    ¬ Climbs store.storedParent finalized r → votes'.lookup v = none
  silent : ∀ {v}, votes.lookup v = none → votes'.lookup v = none

private theorem relocated_of_normalizeVotes (skeleton : Skeleton rank store)
    (hkept : ∀ r, r ∈ kept ↔ Below store finalized r) (known : KnownVotes store votes)
    (h : normalizeVotes votes finalized kept store.parents = some votes') :
    Relocated store finalized votes votes' := by
  obtain ⟨hsilent, hmoved⟩ := lookup_normalizeVotes h
  have hgone : ∀ {v r}, votes.lookup v = some r → ¬ Below store finalized r →
      (Climbs store.storedParent finalized r → votes'.lookup v = some finalized) ∧
        (¬ Climbs store.storedParent finalized r → votes'.lookup v = none) := by
    intro v r hlook hnot
    obtain ⟨moved, hrun, hmoves, hdrops⟩ :
        ∃ moved, normalizePrunedVoteRoot r finalized kept store.parents = some moved ∧ _ ∧ _ :=
      normalizePrunedVoteRoot_gone skeleton (skeleton.stored.mpr (known hlook))
        fun hmem => hnot ((hkept r).mp hmem)
    rw [hmoved hlook, some_inj] at hrun
    rw [hrun]
    exact ⟨hmoves, hdrops⟩
  refine ⟨fun hlook hbelow => ?_, fun hlook hclimb hne => ?_, fun hlook hnot => (hgone hlook hnot).2,
    hsilent⟩
  · have hrun := hmoved hlook
    rw [normalizePrunedVoteRoot, if_pos ((hkept _).mpr hbelow), some_inj] at hrun
    exact hrun.symm
  · refine (hgone hlook fun hbelow => hne ?_).1 hclimb
    exact hbelow.2.antisymm skeleton.falls_storedParent hclimb

private theorem Relocated.of_moved (relocated : Relocated store finalized votes votes')
    (stored : finalized ∈ store.blocks) {v : Nat} (h : votes'.lookup v = some r)
    (hne : r ≠ finalized) : votes.lookup v = some r := by
  cases hold : votes.lookup v with
  | none =>
    rw [relocated.silent hold] at h
    cases h
  | some old =>
    by_cases hbelow : Below store finalized old
    · rw [← h, relocated.stays hold hbelow]
    · by_cases hclimb : Climbs store.storedParent finalized old
      · by_cases hself : old = finalized
        · subst hself
          exact absurd ⟨stored, .refl _ old⟩ hbelow
        · rw [relocated.moves hold hclimb hself, some_inj] at h
          exact absurd h.symm hne
      · rw [relocated.drops hold hbelow hclimb] at h
        cases h

/-! ## The forest of a pruned store -/

section Forest

variable (trimmed : Trimmed store finalized pruned) (consistent' : Consistent rank pruned)
include trimmed consistent'

private theorem Trimmed.mem_blocks : r ∈ pruned.blocks ↔ Below store finalized r :=
  consistent'.skeleton.stored.trans trimmed.kept

private theorem Trimmed.storedParent_eq (hbelow : Below store finalized r) (hne : r ≠ finalized) :
    pruned.storedParent r = store.storedParent r := by
  obtain heq | ⟨p, hp, hclimb⟩ := climbs_iff.mp hbelow.2
  · exact absurd heq hne
  · obtain ⟨hlink, hstored⟩ := storedParent_eq_some.mp hp
    rw [hp, storedParent_eq_some, trimmed.parents (trimmed.kept.mpr hbelow) hne]
    exact ⟨hlink, (trimmed.mem_blocks consistent').mpr ⟨hstored, hclimb⟩⟩

/-- **A prune cuts the forest down** to what is below the finalized block. -/
theorem Trimmed.trims (consistent : Consistent rank store) (stored : finalized ∈ store.blocks)
    (relocated : Relocated store finalized store.latestVotes pruned.latestVotes) :
    Trims store.storedParent store.activeVote finalized pruned.storedParent
      pruned.activeVote where
  link := by
    intro r hclimb hne
    obtain heq | ⟨p, hp, -⟩ := climbs_iff.mp hclimb
    · exact absurd heq hne
    · exact trimmed.storedParent_eq consistent'
        ⟨consistent.skeleton.mem_of_storedParent hp, hclimb⟩ hne
  cut := by
    refine ForkChoiceStore.storedParent_eq_none fun parent hparent => ?_
    rw [trimmed.top, some_inj] at hparent
    rw [← hparent]
    exact fun h => consistent'.skeleton.ne_zero h rfl
  inside := by
    intro r p hp
    have hmem := consistent'.skeleton.mem_of_storedParent hp
    exact ((trimmed.mem_blocks consistent').mp hmem).2
  stays := by
    intro v r hvote hclimb
    exact relocated.stays hvote ⟨consistent.skeleton.stored.mpr (consistent.votes hvote), hclimb⟩
  moved := fun hvote hne => relocated.of_moved stored hvote hne

end Forest

/-- A prune returns and leaves the forest below the finalized block, with the votes for it. -/
theorem prune_trims (consistent : Consistent rank store)
    (stored : store.latestFinalized.root ∈ store.blocks) :
    ∃ pruned, store.pruneFinalizedHistory = some pruned ∧ Nonempty (PruneRun store pruned) ∧
      Consistent rank pruned ∧ Pruned store pruned ∧
      Relocated store store.latestFinalized.root store.latestVotes pruned.latestVotes ∧
      Relocated store store.latestFinalized.root store.latestNewVotes pruned.latestNewVotes ∧
      Trims store.storedParent store.activeVote store.latestFinalized.root pruned.storedParent
        pruned.activeVote := by
  have skeleton := consistent.skeleton
  obtain ⟨pruned, hrun, consistent', hpruned⟩ := prune_spec consistent stored
  obtain ⟨run⟩ := exists_pruneRun (skeleton.ne_zero stored) stored hrun
  obtain ⟨kept, hkeep, hkept⟩ := keptRoots_spec skeleton stored
  obtain rfl : run.kept = kept := some_inj.mp (run.keeps.symm.trans hkeep)
  have hvotes : Relocated store store.latestFinalized.root store.latestVotes pruned.latestVotes := by
    rw [run.sameBallots.votes]
    exact relocated_of_normalizeVotes skeleton hkept consistent.votes run.normalizes
  have hnewVotes :
      Relocated store store.latestFinalized.root store.latestNewVotes pruned.latestNewVotes := by
    rw [run.sameBallots.newVotes]
    exact relocated_of_normalizeVotes skeleton hkept consistent.newVotes run.normalizesNew
  exact ⟨pruned, hrun, ⟨run⟩, consistent', hpruned, hvotes, hnewVotes,
    hpruned.trimmed.trims consistent' consistent stored hvotes⟩

/-! ## What is read off the forest -/

namespace ForkChoiceStore

/-- The node of a block. -/
def nodeOf (store : ForkChoiceStore) (root : Bytes32) : Option ProtoNode :=
  (store.nodeIndices.lookup root).bind (store.nodes[·]?)

/-- The weight of a block's node. -/
def weightOf (store : ForkChoiceStore) (root : Bytes32) : Option Int :=
  (store.nodeOf root).map (·.weight)

/-- The block of the best child of a block's node. -/
def bestChildRoot (store : ForkChoiceStore) (root : Bytes32) : Option Bytes32 :=
  ((store.nodeOf root).bind (·.bestChild)).bind (rootAt store.nodes)

end ForkChoiceStore

namespace Consistent

variable (consistent : Consistent rank store) {root : Bytes32} (stored : root ∈ store.blocks)
include consistent stored

private theorem exists_nodeOf : ∃ (i : Nat) (node : ProtoNode), store.nodes[i]? = some node ∧
    node.root = root ∧ store.nodeOf root = some node := by
  obtain ⟨i, hi, hroot⟩ :=
    consistent.skeleton.rootAt_of_mem (consistent.skeleton.stored.mp stored)
  obtain ⟨node, hnode, hroot⟩ := Option.map_eq_some_iff.mp hroot
  refine ⟨i, node, hnode, hroot, ?_⟩
  rw [ForkChoiceStore.nodeOf, hi]
  exact hnode

private theorem weightOf_eq :
    store.weightOf root = some (support store.storedParent store.activeVote root : Int) := by
  obtain ⟨i, node, hnode, rfl, hof⟩ := consistent.exists_nodeOf stored
  rw [ForkChoiceStore.weightOf, hof, Option.map_some, consistent.weight_eq hnode]

private theorem bestChildRoot_iff {child : Bytes32} :
    store.bestChildRoot root = some child ↔
      BestChild store.storedParent store.activeVote root child := by
  obtain ⟨i, node, hnode, rfl, hof⟩ := consistent.exists_nodeOf stored
  rw [ForkChoiceStore.bestChildRoot, hof, Option.bind_some]
  cases hbest : node.bestChild with
  | none =>
    have hnone := (consistent.bestChild_none_iff hnode).mp hbest
    exact iff_of_false (Option.some_ne_none child).symm fun h => hnone child h.child
  | some c =>
    obtain ⟨s, hs, -, hchild⟩ := consistent.bestChild_some hnode hbest
    rw [Option.bind_some, hs, some_inj]
    constructor
    · rintro rfl
      exact hchild
    · exact fun h => hchild.unique h

end Consistent

/-- Stores with the same candidates, head and number of validators have the same safe target. -/
theorem safeTarget_of_candidates (consistent : Consistent rank store)
    (consistent' : Consistent rank pruned) (stored : store.safeAnchor ∈ store.blocks)
    (stored' : pruned.safeAnchor ∈ pruned.blocks)
    (count : pruned.validatorCount = store.validatorCount) (head : pruned.head = store.head)
    (same : ∀ c, Candidate pruned c ↔ Candidate store c)
    (settled : pruned.refreshSafeTarget = some pruned) :
    ∃ refreshed, store.refreshSafeTarget = some refreshed ∧
      refreshed.safeTarget = pruned.safeTarget := by
  by_cases hcount : store.validatorCount = 0
  · rw [refreshSafeTarget, if_pos (count.trans hcount), some_inj] at settled
    rw [refreshSafeTarget, if_pos hcount]
    refine ⟨_, rfl, ?_⟩
    rw [← settled]
    exact head.symm
  · obtain ⟨best, hrun, hbest⟩ := consistent.refreshSafeTarget_safest stored hcount
    obtain ⟨best', hrun', hbest'⟩ :=
      consistent'.refreshSafeTarget_safest stored' (count ▸ hcount)
    rw [settled, some_inj] at hrun'
    refine ⟨_, hrun, ?_⟩
    rw [hrun', hbest.unique hbest' same]

/-- A prune leaves the candidates for the safe target as they are. The finalized block gains the
votes of its ancestors, but it is the anchor, and a candidate either way. -/
theorem candidate_iff_of_trims (consistent : Consistent rank store)
    (trims : Trims store.storedParent store.activeVote finalized pruned.storedParent
      pruned.activeVote)
    (blocks : ∀ {r}, r ∈ pruned.blocks ↔ Below store finalized r)
    (block : ∀ {r}, r ∈ pruned.blocks → pruned.blocks.lookup r = store.blocks.lookup r)
    (stored : finalized ∈ store.blocks) (count : pruned.validatorCount = store.validatorCount)
    (anchor : store.safeAnchor = finalized) (anchor' : pruned.safeAnchor = finalized)
    (c : Checkpoint) : Candidate pruned c ↔ Candidate store c := by
  have falls := consistent.skeleton.falls_storedParent
  have hslot : ∀ {r}, r ∈ pruned.blocks → pruned.blockSlot r = store.blockSlot r := by
    intro r hr
    rw [blockSlot, blockSlot, block hr]
  have hfinal : finalized ∈ pruned.blocks := blocks.mpr ⟨stored, .refl _ _⟩
  obtain ⟨slot, hfinalSlot⟩ := exists_blockSlot stored
  have hstart : anchorCheckpoint store finalized = ⟨finalized, slot⟩ := by
    rw [anchorCheckpoint, hfinalSlot]
    rfl
  have hstart' : anchorCheckpoint pruned finalized = ⟨finalized, slot⟩ := by
    rw [anchorCheckpoint, hslot hfinal, hfinalSlot]
    rfl
  rw [Candidate, Candidate, anchor, anchor', hstart, hstart']
  by_cases hroot : c.root = finalized
  · -- the finalized block is a candidate as the anchor
    have honly : ∀ {s : ForkChoiceStore}, s.blockSlot finalized = some slot →
        Supported s finalized c → c = ⟨finalized, slot⟩ := by
      intro s hs supported
      refine Checkpoint.ext hroot ?_
      have hc := supported.slot
      rw [hroot, hs, some_inj] at hc
      exact hc.symm
    rw [or_iff_left_of_imp (honly ((hslot hfinal).trans hfinalSlot)),
      or_iff_left_of_imp (honly hfinalSlot)]
  · refine or_congr Iff.rfl ⟨fun h => ?_, fun h => ?_⟩
    · have hbelow := trims.climbs_of_climbs h.below
      have hmem : c.root ∈ pruned.blocks := by
        by_contra hnot
        have hnone := blockSlot_eq_none.mpr hnot
        rw [h.slot] at hnone
        cases hnone
      refine ⟨(hslot hmem).symm.trans h.slot, hbelow, ?_⟩
      rw [← count, ← trims.support_eq falls hbelow hroot]
      exact h.enough
    · have hstored : c.root ∈ store.blocks := by
        by_contra hnot
        have hnone := blockSlot_eq_none.mpr hnot
        rw [h.slot] at hnone
        cases hnone
      have hmem : c.root ∈ pruned.blocks := blocks.mpr ⟨hstored, h.below⟩
      refine ⟨(hslot hmem).trans h.slot, (trims.climbs_iff falls (.refl _ _)).mpr h.below, ?_⟩
      rw [count, trims.support_eq falls h.below hroot]
      exact h.enough

/-! ## The law -/

/-- What a prune keeps of a store. -/
structure KeepsForkChoice (store pruned : ForkChoiceStore) : Prop where
  /-- Exactly the blocks at or below the finalized one are there, and their states. -/
  blocks : ∀ {r}, r ∈ pruned.blocks ↔ Below store store.latestFinalized.root r
  states : ∀ {r}, r ∈ pruned.states ↔ Below store store.latestFinalized.root r
  block : ∀ {r}, r ∈ pruned.blocks → pruned.blocks.lookup r = store.blocks.lookup r
  state : ∀ {r}, r ∈ pruned.blocks → pruned.states.lookup r = store.states.lookup r
  /-- Their links are the old ones, but for the parent of the finalized block. -/
  parent : ∀ {r}, r ∈ pruned.blocks → r ≠ store.latestFinalized.root →
    pruned.parents.lookup r = store.parents.lookup r
  top : pruned.parents.lookup store.latestFinalized.root = some Bytes32.zero
  child : ∀ {r c}, r ∈ pruned.blocks →
    (c ∈ (pruned.children.lookup r).getD [] ↔ c ∈ (store.children.lookup r).getD [])
  votes : Relocated store store.latestFinalized.root store.latestVotes pruned.latestVotes
  newVotes : Relocated store store.latestFinalized.root store.latestNewVotes pruned.latestNewVotes
  weight : ∀ {r}, r ∈ pruned.blocks → r ≠ store.latestFinalized.root →
    pruned.weightOf r = store.weightOf r
  bestChild : ∀ {r}, r ∈ pruned.blocks → pruned.bestChildRoot r = store.bestChildRoot r
  finalized : pruned.latestFinalized = store.latestFinalized
  justified : store.latestJustified.root ∈ pruned.blocks →
    pruned.latestJustified = store.latestJustified
  /-- With the justified block kept, head and safe target are those of the unpruned store. -/
  head : store.latestJustified.root ∈ pruned.blocks → store.findHead = some pruned.head
  safeTarget : store.latestJustified.root ∈ pruned.blocks →
    ∃ refreshed, (store.moveHead pruned.head).refreshSafeTarget = some refreshed ∧
      refreshed.safeTarget = pruned.safeTarget

/-- **A prune preserves the fork choice.** -/
theorem prune_keepsForkChoice (consistent : Consistent rank store)
    (stored : store.latestFinalized.root ∈ store.blocks) :
    ∃ pruned, store.pruneFinalizedHistory = some pruned ∧ KeepsForkChoice store pruned := by
  have skeleton := consistent.skeleton
  obtain ⟨pruned, hrun, ⟨run⟩, consistent', hpruned, hvotes, hnewVotes, trims⟩ :=
    prune_trims consistent stored
  have trimmed := hpruned.trimmed
  have hmem : ∀ {r}, r ∈ pruned.blocks ↔ Below store store.latestFinalized.root r :=
    trimmed.mem_blocks consistent'
  have falls := skeleton.falls_storedParent
  have hblock : ∀ {r}, r ∈ pruned.blocks → pruned.blocks.lookup r = store.blocks.lookup r :=
    fun hr => trimmed.blocks (consistent'.skeleton.stored.mp hr)
  have hfinal : store.latestFinalized.root ∈ pruned.blocks := hmem.mpr ⟨stored, .refl _ _⟩
  have hjustified : store.latestJustified.root ∈ pruned.blocks →
      pruned.latestJustified = store.latestJustified := by
    intro hkeptRoot
    rw [hpruned.justified, if_pos (consistent'.skeleton.stored.mp hkeptRoot)]
  have hhead : store.latestJustified.root ∈ pruned.blocks →
      store.findHead = some pruned.head := by
    intro hkeptRoot
    have hbelow := hmem.mp hkeptRoot
    obtain ⟨head, hfound, hghost⟩ := consistent.findHead_spec (skeleton.stored.mp hbelow.1)
    obtain ⟨head', hfound', hghost'⟩ := consistent'.findHead_spec (by
      rw [hjustified hkeptRoot]
      exact consistent'.skeleton.stored.mp hkeptRoot)
    rw [hpruned.headed.found, some_inj] at hfound'
    rw [hjustified hkeptRoot] at hghost'
    rw [hfound, hfound', (trims.ghostHead falls hbelow.2 hghost).unique hghost']
  refine ⟨pruned, hrun, hmem, ?_, hblock, ?_, ?_, trimmed.top, ?_, hvotes, hnewVotes, ?_, ?_,
    hpruned.finalized, hjustified, hhead, ?_⟩
  · intro r
    exact (consistent'.skeleton.stated.trans consistent'.skeleton.stored.symm).trans hmem
  · exact fun hr => trimmed.states (consistent'.skeleton.stored.mp hr)
  · exact fun hr hne => trimmed.parents (consistent'.skeleton.stored.mp hr) hne
  · intro r c hr
    have hbelow := hmem.mp hr
    rw [consistent'.skeleton.mem_children hr, skeleton.mem_children hbelow.1]
    exact trims.link_iff falls hbelow.2
  · intro r hr hne
    have hbelow := hmem.mp hr
    rw [consistent'.weightOf_eq hr, consistent.weightOf_eq hbelow.1,
      trims.support_eq falls hbelow.2 hne]
  · intro r hr
    have hbelow := hmem.mp hr
    ext child
    rw [consistent'.bestChildRoot_iff hr, consistent.bestChildRoot_iff hbelow.1]
    exact trims.bestChild_iff falls hbelow.2
  · intro hkeptRoot
    have hstored : pruned.head ∈ store.blocks := (hmem.mp hpruned.headed.stored).1
    obtain ⟨slot, hslot⟩ := exists_blockSlot hstored
    have hmove : store.moveHead pruned.head =
        { store with head := pruned.head, headSlot := slot } := by
      rw [ForkChoiceStore.moveHead, hslot]
    have hanchor : (store.moveHead pruned.head).safeAnchor = store.latestFinalized.root := by
      rw [hmove]
      exact if_pos stored
    have hanchor' : pruned.safeAnchor = store.latestFinalized.root := by
      rw [ForkChoiceStore.safeAnchor, hpruned.finalized, if_pos hfinal]
    have hconsistent := consistent.moveHead pruned.head
    refine safeTarget_of_candidates hconsistent consistent' ?_ ?_ ?_ ?_ ?_
      (refreshSafeTarget_again run.refreshes)
    · rw [hanchor, hmove]
      exact stored
    · rw [hanchor']
      exact hfinal
    · rw [hmove]
      exact run.validatorCount_eq
    · rw [hmove]
    · refine candidate_iff_of_trims hconsistent ?_ ?_ ?_ ?_ ?_ hanchor hanchor'
      · rw [hmove]
        exact trims
      · rw [hmove]
        exact hmem
      · rw [hmove]
        exact hblock
      · rw [hmove]
        exact stored
      · rw [hmove]
        exact run.validatorCount_eq

/-- The store with one checkpoint justified and finalized. -/
def ForkChoiceStore.settledAt (store : ForkChoiceStore) (checkpoint : Checkpoint) :
    ForkChoiceStore :=
  { store with latestJustified := checkpoint, latestFinalized := checkpoint }

private theorem Consistent.settledAt (consistent : Consistent rank store)
    (checkpoint : Checkpoint) : Consistent rank (store.settledAt checkpoint) :=
  consistent.congr ⟨rfl, rfl, rfl, rfl, rfl, .refl _⟩ rfl rfl rfl

/-- The store of the late parent once the first block is finalized. -/
def finalizableStore : ForkChoiceStore :=
  lateParentRun.2.settledAt ⟨(plannedRoots twoBlocks anchorGenesis).getD 0 0#256, 1⟩

/-- The anchor goes, two blocks stay, and the second of them is head and safe target. -/
theorem prune_keepsForkChoice_finalizable :
    finalizableStore.blocks.keys.length = 3 ∧
    ∃ pruned, finalizableStore.pruneFinalizedHistory = some pruned ∧
      KeepsForkChoice finalizableStore pruned := by
  have hstored : finalizableStore.latestFinalized.root ∈ finalizableStore.blocks := by
    decide +kernel
  obtain ⟨rank, hfalls⟩ := lateParent_sound.1.exists_rank
  have htracked := lateParent_run.tracked (new_anchoredStore (by decide +kernel))
    lateParent_sound.1 lateParent_sound.2 hfalls
  exact ⟨by decide +kernel, prune_keepsForkChoice (htracked.consistent.settledAt _) hstored⟩

end Peam
