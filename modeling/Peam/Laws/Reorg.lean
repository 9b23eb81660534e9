import Peam.Laws.Trim

/-!
# The reorg counter

`reorgs_total` should rise by one exactly when a call leaves a head that is neither the old one nor
a descendant of it. At the end of an import, and after accepted votes, it does on any store
(`settleHead_tally`).

Two ways to move the head go past it. A prune inside an import looks the head up itself, and
what it leaves is taken for the old head; this is harmless if the old head is above the block from
which the head is looked up, or on the way from there to the heaviest child (`OnCourse`). And
`get_proposal_head` moves the head once more after the votes.
-/

namespace Peam

open Loops (iterate_keeps foldlM_keeps)
open Forests
open ForkChoiceStore (stateMatchesBlockRoot)
open Option (some_inj bind_eq_some_iff)

variable {ssz : Ssz} {rank : Bytes32 → Nat} {store next : ForkChoiceStore}

/-! ## Descent by recorded parents -/

/-- The recorded parent of a block; the zero root stands for none. -/
def parentLink (parents : RapidHashMap Bytes32) (root : Bytes32) : Option Bytes32 :=
  (parents.lookup root).filter (· ≠ Bytes32.zero)

variable {parents : RapidHashMap Bytes32} {root oldHead : Bytes32} {event : Event}

private theorem parentLink_eq_some {parent : Bytes32} :
    parentLink parents root = some parent ↔
      parents.lookup root = some parent ∧ parent ≠ Bytes32.zero := by
  rw [parentLink, Option.filter_eq_some_iff, decide_eq_true_iff]

private theorem headChangeIsReorg_iff {newHead : Bytes32} {reorg : Bool}
    (h : store.headChangeIsReorg oldHead newHead = some reorg) :
    reorg = true ↔ ¬ Climbs (parentLink store.parents) newHead oldHead := by
  unfold ForkChoiceStore.headChangeIsReorg at h
  split at h
  · rename_i hsame
    cases h
    exact iff_of_false Bool.false_ne_true (not_not.mpr (hsame ▸ .refl _ oldHead))
  refine iterate_keeps
    (fun node => Climbs (parentLink store.parents) newHead oldHead ↔
      Climbs (parentLink store.parents) node oldHead)
    (fun reorg => reorg = true ↔ ¬ Climbs (parentLink store.parents) newHead oldHead)
    ?_ ?_ Iff.rfl h
  · intro node parent hsame hturn
    have hne : node ≠ oldHead := by
      intro heq
      rw [isReorgTurn, if_pos heq] at hturn
      cases hturn
    rw [hsame, climbs_of_up (parentLink_eq_some.mpr (isReorgTurn_again hturn)), or_iff_right hne]
  · intro node result hsame hturn
    rw [hsame]
    unfold isReorgTurn at hturn
    split at hturn
    · rename_i heq
      cases hturn
      exact iff_of_false Bool.false_ne_true (not_not.mpr (heq ▸ .refl _ node))
    · rename_i hne
      -- the walk ends at a block without a recorded parent
      have hend : result = true ∧ parentLink store.parents node = none := by
        rw [Option.eq_none_iff_forall_ne_some]
        split at hturn
        · rename_i hnone
          cases hturn
          refine ⟨rfl, fun parent hparent => ?_⟩
          rw [(parentLink_eq_some.mp hparent).1] at hnone
          cases hnone
        · rename_i parent hparent
          split at hturn
          · rename_i hzero
            cases hturn
            refine ⟨rfl, fun other hother => ?_⟩
            obtain ⟨hlink, hnonzero⟩ := parentLink_eq_some.mp hother
            rw [hparent, some_inj] at hlink
            exact hnonzero (hlink ▸ hzero)
          · cases hturn
      rw [climbs_of_top hend.2]
      exact iff_of_true hend.1 hne

/-! ## Counting -/

/-- The counter went from `total` to what a move of the head from `oldHead` calls for. -/
structure ReorgTally (parents : RapidHashMap Bytes32) (oldHead : Bytes32) (total : Nat)
    (store : ForkChoiceStore) : Prop where
  onward : Climbs (parentLink parents) store.head oldHead → store.reorgsTotal = total
  reorg : ¬ Climbs (parentLink parents) store.head oldHead → store.reorgsTotal = total + 1

private theorem tally_iff_of_same {total : Nat} (same : store.reorgsTotal = total) :
    ReorgTally parents oldHead total store ↔ Climbs (parentLink parents) store.head oldHead := by
  constructor
  · intro tally
    by_contra hreorg
    have hcount := tally.reorg hreorg
    omega
  · exact fun honward => ⟨fun _ => same, fun hreorg => absurd honward hreorg⟩

private theorem tally_of_still (head : next.head = store.head)
    (same : next.reorgsTotal = store.reorgsTotal) :
    ReorgTally parents store.head store.reorgsTotal next :=
  (tally_iff_of_same same).mpr (head ▸ .refl _ _)

/-- **Where the question is asked, the counter is exact.** -/
theorem settleHead_tally (h : store.settleHead oldHead = some next) :
    ∃ reorgsTotal safeTarget, next = { store with reorgsTotal, safeTarget } ∧
      ReorgTally store.parents oldHead store.reorgsTotal next := by
  obtain ⟨reorg, hreorg, h⟩ := bind_eq_some_iff.mp h
  have hnext := refreshSafeTarget_eq h
  have hiff := headChangeIsReorg_iff hreorg
  rw [hnext]
  refine ⟨_, _, rfl, fun honward => ?_, fun hmoved => ?_⟩
  · exact if_neg fun htrue => hiff.mp htrue honward
  · exact if_pos (hiff.mpr hmoved)

/-! ## What leaves head and counter alone -/

/-- Head, counter, blocks, links and finalized checkpoint are as they were. -/
structure Steady (store store' : ForkChoiceStore) : Prop where
  head : store'.head = store.head
  reorgsTotal : store'.reorgsTotal = store.reorgsTotal
  blocks : store'.blocks = store.blocks
  parents : store'.parents = store.parents
  finalized : store'.latestFinalized = store.latestFinalized
  newVotes : store'.latestNewVotes = store.latestNewVotes

private theorem Steady.refl (store : ForkChoiceStore) : Steady store store :=
  ⟨rfl, rfl, rfl, rfl, rfl, rfl⟩

private theorem Steady.trans {store' store'' : ForkChoiceStore} (h : Steady store store')
    (h' : Steady store' store'') : Steady store store'' :=
  ⟨h'.head.trans h.head, h'.reorgsTotal.trans h.reorgsTotal, h'.blocks.trans h.blocks,
    h'.parents.trans h.parents, h'.finalized.trans h.finalized, h'.newVotes.trans h.newVotes⟩

private theorem steady_applyVoteDelta {delta : Int}
    (h : store.applyVoteDelta root delta = some next) : Steady store next := by
  unfold ForkChoiceStore.applyVoteDelta at h
  split at h
  · cases h
    exact .refl store
  · obtain ⟨nodes, -, hnext⟩ := bind_eq_some_iff.mp h
    cases hnext
    exact ⟨rfl, rfl, rfl, rfl, rfl, rfl⟩

private theorem steady_setLatestVote {validator : Nat}
    (h : store.setLatestVote validator root = some next) : Steady store next := by
  unfold ForkChoiceStore.setLatestVote at h
  have hinsert : Steady store
      { store with latestVotes := store.latestVotes.insert validator root } :=
    ⟨rfl, rfl, rfl, rfl, rfl, rfl⟩
  dsimp only at h
  split at h
  · cases h
    exact hinsert
  · -- the old vote is taken back first, if there is one
    split at h
    · obtain ⟨taken, htaken, hadd⟩ := bind_eq_some_iff.mp h
      exact hinsert.trans ((steady_applyVoteDelta htaken).trans (steady_applyVoteDelta hadd))
    · exact hinsert.trans (steady_applyVoteDelta h)

private theorem steady_setVotes {votes : List (Sigma fun _ : Nat => Bytes32)}
    (h : votes.foldlM (fun store vote => store.setLatestVote vote.1 vote.2) store = some next) :
    Steady store next :=
  foldlM_keeps (Steady store) (fun _ _ _ steady hvote => steady.trans (steady_setLatestVote hvote))
    votes (.refl store) h

private theorem steady_applyActive {attestation : Attestation}
    (h : store.applyAttestationVotes attestation .active = some next) : Steady store next := by
  unfold ForkChoiceStore.applyAttestationVotes at h
  split at h
  · cases h
    exact .refl store
  · exact foldlM_keeps (Steady store)
      (fun _ _ _ steady hvote => steady.trans (steady_setLatestVote hvote)) _ (.refl store) h

private theorem steady_insertProtoNode {parentRoot : Bytes32} {slot proposerIndex : Nat}
    (h : store.insertProtoNode root parentRoot slot proposerIndex = some next) :
    Steady store next := by
  unfold ForkChoiceStore.insertProtoNode at h
  split at h
  · cases h
    exact .refl store
  · obtain ⟨_, -, h⟩ := bind_eq_some_iff.mp h
    obtain ⟨_, -, h⟩ := bind_eq_some_iff.mp h
    cases h
    exact ⟨rfl, rfl, rfl, rfl, rfl, rfl⟩

/-! ## Votes and proposals -/

/-- Looking the head up again leaves it where it is. -/
def Rests (store : ForkChoiceStore) : Prop :=
  ∀ head, store.findHead = some head → (store.moveHead head).head = store.head

private theorem moveHead_reorgsTotal (store : ForkChoiceStore) (head : Bytes32) :
    (store.moveHead head).reorgsTotal = store.reorgsTotal := by
  obtain ⟨newHead, newSlot, heq, -⟩ := moveHead_eq store head
  rw [heq]

private theorem moveHead_head (store : ForkChoiceStore) (head : Bytes32) :
    (store.moveHead head).head = if head ∈ store.blocks then head else store.head := by
  unfold ForkChoiceStore.moveHead
  cases hslot : store.blockSlot head with
  | none => rw [if_neg (blockSlot_eq_none.mp hslot)]
  | some slot =>
    have hstored : head ∈ store.blocks := by
      by_contra hnot
      rw [blockSlot_eq_none.mpr hnot] at hslot
      cases hslot
    rw [if_pos hstored]

private theorem rests_of_moved {store' : ForkChoiceStore} {head : Bytes32}
    (found : store.findHead = some head) (nodes : store'.nodes = store.nodes)
    (indices : store'.nodeIndices = store.nodeIndices)
    (justified : store'.latestJustified.root = store.latestJustified.root)
    (blocks : store'.blocks = store.blocks)
    (moved : store'.head = (store.moveHead head).head) : Rests store' := by
  intro again hagain
  rw [moveHead_head, blocks]
  by_cases hknown : store.latestJustified.root ∈ store.nodeIndices
  · -- the same walk over the same arena
    rw [findHead_congr nodes indices justified hknown, found, some_inj] at hagain
    rw [← hagain, moved, moveHead_head]
    split <;> rfl
  · have hself : store'.findHead = some store'.head :=
      findHead_of_unknown (by rw [justified, indices]; exact hknown)
    rw [hself, some_inj] at hagain
    rw [← hagain]
    split <;> rfl

/-- `accept_new_votes` does nothing, or counts and leaves a head that rests. -/
theorem acceptNewVotes_tally (h : store.acceptNewVotes = some next) :
    store.latestNewVotes.entries = [] ∧ next = store ∨
      store.latestNewVotes.entries ≠ [] ∧ next.latestNewVotes.entries = [] ∧
        ReorgTally store.parents store.head store.reorgsTotal next ∧ Rests next := by
  unfold ForkChoiceStore.acceptNewVotes at h
  split at h
  · rename_i hnone
    cases h
    exact .inl ⟨List.isEmpty_iff.mp hnone, rfl⟩
  rename_i hsome
  refine .inr ⟨fun hnil => hsome (List.isEmpty_iff.mpr hnil), ?_⟩
  obtain ⟨voted, hvoted, h⟩ := bind_eq_some_iff.mp h
  obtain ⟨head, hfound, hsettle⟩ := bind_eq_some_iff.mp h
  have steady := steady_setVotes hvoted
  obtain ⟨newHead, newSlot, hmove, -⟩ := moveHead_eq voted head
  obtain ⟨reorgsTotal, safeTarget, hnext, htally⟩ := settleHead_tally hsettle
  rw [moveHead_reorgsTotal, steady.head, steady.reorgsTotal, hmove, steady.parents] at htally
  rw [hmove] at hnext
  refine ⟨?_, htally, ?_⟩
  · rw [hnext]
    exact congrArg AList.entries steady.newVotes
  · refine rests_of_moved hfound ?_ ?_ ?_ ?_ ?_ <;> rw [hnext]
    rw [hmove]

/-- What `get_proposal_head` does to head and counter. -/
theorem getProposalHead_tally (h : store.getProposalHead = some next) :
    store.latestNewVotes.entries = [] ∧
        (∃ head, store.findHead = some head ∧ next = store.moveHead head) ∨
      store.latestNewVotes.entries ≠ [] ∧
        ReorgTally store.parents store.head store.reorgsTotal next := by
  obtain ⟨accepted, haccept, h⟩ := bind_eq_some_iff.mp h
  obtain ⟨head, hfound, hmove⟩ := bind_eq_some_iff.mp h
  cases hmove
  rcases acceptNewVotes_tally haccept with ⟨hnone, rfl⟩ | ⟨hsome, -, htally, hrests⟩
  · exact .inl ⟨hnone, head, hfound, rfl⟩
  · refine .inr ⟨hsome, ?_, ?_⟩
    · rw [hrests head hfound, moveHead_reorgsTotal]
      exact htally.onward
    · rw [hrests head hfound, moveHead_reorgsTotal]
      exact htally.reorg

private theorem getProposalHeadWithPending_tally {pendingVotes : List Attestation}
    (h : store.getProposalHeadWithPending pendingVotes = some next) :
    (pendingVotes.foldl (stageVote store) store.latestNewVotes).entries = [] ∧
        (∃ head, store.findHead = some head ∧
          next.head = (store.moveHead head).head ∧ next.reorgsTotal = store.reorgsTotal) ∨
      (pendingVotes.foldl (stageVote store) store.latestNewVotes).entries ≠ [] ∧
        ReorgTally store.parents store.head store.reorgsTotal next := by
  unfold ForkChoiceStore.getProposalHeadWithPending at h
  rw [applyPending_all] at h
  obtain ⟨staged, hstaged, h⟩ := bind_eq_some_iff.mp h
  cases hstaged
  obtain ⟨accepted, haccept, h⟩ := bind_eq_some_iff.mp h
  rcases acceptNewVotes_tally haccept with ⟨hnone, rfl⟩ | ⟨hsome, hdone, htally, hrests⟩
  · rcases getProposalHead_tally h with ⟨-, head, hfound, rfl⟩ | ⟨hsome, -⟩
    · refine .inl ⟨hnone, head, hfound, ?_, moveHead_reorgsTotal ..⟩
      rw [moveHead_head, moveHead_head]
    · exact absurd hnone hsome
  · rcases getProposalHead_tally h with ⟨-, head, hfound, rfl⟩ | ⟨hagain, -⟩
    · refine .inr ⟨hsome, ?_, ?_⟩
      · rw [hrests head hfound, moveHead_reorgsTotal]
        exact htally.onward
      · rw [hrests head hfound, moveHead_reorgsTotal]
        exact htally.reorg
    · exact absurd hdone hagain

/-- What `find_head` finds, if stored, is the head or a descendant of it. -/
def FoundOnward (store : ForkChoiceStore) : Prop :=
  ∀ head, store.findHead = some head → head ∈ store.blocks →
    Climbs (parentLink store.parents) head store.head

private theorem tally_moved_iff {head : Bytes32} (found : store.findHead = some head)
    (moved : next.head = (store.moveHead head).head)
    (same : next.reorgsTotal = store.reorgsTotal) :
    ReorgTally store.parents store.head store.reorgsTotal next ↔ FoundOnward store := by
  rw [tally_iff_of_same same, moved, moveHead_head]
  constructor
  · intro honward other hother hstored
    obtain rfl := some_inj.mp (found.symm.trans hother)
    rw [if_pos hstored] at honward
    exact honward
  · intro honward
    split
    · rename_i hstored
      exact honward head found hstored
    · exact .refl _ _

/-! ## Imports without a prune -/

variable {signed : SignedBlockWithAttestation} {postState : State} {proposer : Bool}

/-- The recorded links with the block in. -/
def linksWith (ssz : Ssz) (store : ForkChoiceStore) (signed : SignedBlockWithAttestation) :
    RapidHashMap Bytes32 :=
  store.parents.insert (signed.message.block.hashTreeRoot ssz) signed.message.block.parentRoot

/-- Finality moves to a block that is stored, or to the block itself. -/
def Prunes (ssz : Ssz) (store : ForkChoiceStore) (signed : SignedBlockWithAttestation)
    (postState : State) : Prop :=
  postState.latestFinalized.slot > store.latestFinalized.slot ∧
    (postState.latestFinalized.root = signed.message.block.hashTreeRoot ssz ∨
      postState.latestFinalized.root ∈ store.blocks)

/-- The stages of an import. Up to the prune head and counter are as they were. -/
structure ImportRun (ssz : Ssz) (store : ForkChoiceStore) (signed : SignedBlockWithAttestation)
    (postState : State) (next : ForkChoiceStore) where
  adopted : ForkChoiceStore
  settled : ForkChoiceStore
  found : Bytes32
  head : adopted.head = store.head
  reorgsTotal : adopted.reorgsTotal = store.reorgsTotal
  parents : adopted.parents = linksWith ssz store signed
  blocks : adopted.blocks = store.blocks.insert (signed.message.block.hashTreeRoot ssz) signed
  finalized : adopted.latestFinalized = higher store.latestFinalized postState.latestFinalized
  prunes : (if postState.latestFinalized.slot > store.latestFinalized.slot
    then adopted.pruneFinalizedHistory else some adopted) = some settled
  finds : settled.findHead = some found
  settles : (settled.importHead found (signed.message.block.hashTreeRoot ssz)
    signed.message.block.slot).settleHead settled.head = some next

private theorem exists_importRun
    (h : store.importMatching ssz signed postState proposer = some next) :
    ∃ run : ImportRun ssz store signed postState next,
      ∃ entered voted,
        (store.recordBlock ssz signed postState).insertProtoNode
          (signed.message.block.hashTreeRoot ssz) signed.message.block.parentRoot
          signed.message.block.slot signed.message.block.proposerIndex = some entered ∧
        (ForkChoiceStore.blockVotes signed proposer).foldlM (fun store attestation =>
          store.applyAttestationVotes attestation .active) entered = some voted ∧
        run.adopted = voted.adoptCheckpoints postState := by
  unfold ForkChoiceStore.importMatching at h
  obtain ⟨entered, henter, h⟩ := bind_eq_some_iff.mp h
  obtain ⟨voted, hvote, h⟩ := bind_eq_some_iff.mp h
  obtain ⟨settled, hsettled, h⟩ : ∃ settled,
      (if postState.latestFinalized.slot > voted.latestFinalized.slot
        then (voted.adoptCheckpoints postState).pruneFinalizedHistory
        else some (voted.adoptCheckpoints postState)) = some settled ∧
      (do
        let head ← settled.findHead
        (settled.importHead head (signed.message.block.hashTreeRoot ssz)
          signed.message.block.slot).settleHead settled.head) = some next := by
    dsimp only at h
    by_cases hmoved : postState.latestFinalized.slot > voted.latestFinalized.slot
    · rw [if_pos (decide_eq_true hmoved)] at h
      obtain ⟨settled, hsettled, h⟩ := bind_eq_some_iff.mp h
      exact ⟨settled, (if_pos hmoved).trans hsettled, h⟩
    · rw [if_neg (by rw [decide_eq_true_iff]; exact hmoved)] at h
      exact ⟨_, if_neg hmoved, h⟩
  obtain ⟨head, hfound, h⟩ := bind_eq_some_iff.mp h
  have hvoted : Steady entered voted :=
    foldlM_keeps (Steady entered)
      (fun _ _ _ steady happly => steady.trans (steady_applyActive happly)) _ (.refl entered) hvote
  have steady := (steady_insertProtoNode henter).trans hvoted
  obtain ⟨previousJustified, hadopt⟩ := adoptCheckpoints_eq voted postState
  refine ⟨⟨voted.adoptCheckpoints postState, settled, head, ?_, ?_, ?_, ?_, ?_, ?_, hfound, h⟩,
    entered, voted, henter, hvote, rfl⟩
  · rw [hadopt]
    exact steady.head
  · rw [hadopt]
    exact steady.reorgsTotal
  · rw [hadopt]
    exact steady.parents
  · rw [hadopt]
    exact steady.blocks
  · rw [hadopt, steady.finalized]
    rfl
  · rw [← hsettled, steady.finalized]
    rfl

private theorem importHead_eq (store : ForkChoiceStore) (found root : Bytes32) (slot : Nat) :
    ∃ head headSlot, store.importHead found root slot = { store with head, headSlot } := by
  unfold ForkChoiceStore.importHead
  split
  · obtain ⟨newHead, newSlot, heq, -⟩ := moveHead_eq store found
    exact ⟨newHead, newSlot, heq⟩
  · split
    · exact ⟨_, _, rfl⟩
    · exact ⟨store.head, store.headSlot, rfl⟩

/-- **An import that does not prune is counted**, on any store. -/
theorem importMatching_tally (stays : ¬ Prunes ssz store signed postState)
    (h : store.importMatching ssz signed postState proposer = some next) :
    ReorgTally (linksWith ssz store signed) store.head store.reorgsTotal next := by
  obtain ⟨run, -⟩ := exists_importRun h
  have hsame : run.settled = run.adopted := by
    have hsettled := run.prunes
    split at hsettled
    · rename_i hmoved
      have hunknown : run.adopted.latestFinalized.root ∉ run.adopted.blocks := by
        rw [run.finalized, higher, if_pos hmoved, run.blocks, AList.mem_insert]
        exact fun hstored => stays ⟨hmoved, hstored⟩
      rw [prune_of_unknown hunknown] at hsettled
      exact (some_inj.mp hsettled).symm
    · exact (some_inj.mp hsettled).symm
  obtain ⟨newHead, newSlot, himport⟩ := importHead_eq run.settled run.found
    (signed.message.block.hashTreeRoot ssz) signed.message.block.slot
  obtain ⟨reorgsTotal, safeTarget, -, htally⟩ := settleHead_tally run.settles
  rw [himport, hsame, run.head] at htally
  rw [← run.parents, ← run.reorgsTotal]
  exact htally

/-! ## Imports with a prune -/

private theorem PruneRun.reorgsTotal_eq {pruned : ForkChoiceStore} (run : PruneRun store pruned) :
    pruned.reorgsTotal = store.reorgsTotal := by
  have hrebuilt : run.rebuilt.reorgsTotal = store.reorgsTotal :=
    rebuild_keeps (·.reorgsTotal) rfl (fun _ _ parentIdx _ _ => by cases parentIdx <;> rfl)
      (fun _ _ => rfl) run.rebuilds
  have hvoted : run.voted.reorgsTotal = run.rebuilt.reorgsTotal :=
    (foldlM_keeps (Steady _) (fun _ _ _ steady hdelta => steady.trans (steady_applyVoteDelta hdelta))
      _ (.refl _) run.counts).reorgsTotal
  have hreset : (run.voted.resetCheckpoints.resetHead run.head).reorgsTotal =
      run.voted.reorgsTotal := by
    unfold ForkChoiceStore.resetHead
    split <;> rfl
  rw [refreshSafeTarget_eq run.refreshes]
  exact hreset.trans (hvoted.trans hrebuilt)

/-- In a consistent store, descent from a stored block is the climb along stored parents. -/
theorem Skeleton.climbs_parentLink (skeleton : Skeleton rank store) {node ancestor : Bytes32}
    (stored : ancestor ∈ store.blocks) :
    Climbs (parentLink store.parents) node ancestor ↔
      Climbs store.storedParent node ancestor := by
  constructor
  · intro h
    induction h using Relation.ReflTransGen.head_induction_on with
    | refl => exact .refl _ ancestor
    | @head node parent hlink _ ih =>
      by_cases hself : node = ancestor
      · exact hself ▸ .refl _ node
      · exact (skeleton.climbs_parent stored (parentLink_eq_some.mp hlink).1 hself).mpr ih
  · refine fun h => h.congr fun node _ parent hup => ?_
    obtain ⟨hlink, hparent⟩ := ForkChoiceStore.storedParent_eq_some.mp hup
    exact parentLink_eq_some.mpr ⟨hlink, skeleton.ne_zero hparent⟩

open Classical in
/-- Where the head is looked up once history is pruned. -/
noncomputable def lookupStart (store : ForkChoiceStore) (justified finalized : Bytes32) : Bytes32 :=
  if Below store finalized justified then justified else finalized

private theorem lookupStart_below (finalized : Bytes32) (stored : finalized ∈ store.blocks)
    (justified : Bytes32) : Below store finalized (lookupStart store justified finalized) := by
  unfold lookupStart
  split
  · assumption
  · exact ⟨stored, .refl _ finalized⟩

/-- **The head a prune leaves** is the one of the unpruned tree, looked up from there. -/
theorem prune_ghostHead (consistent : Consistent rank store)
    (stored : store.latestFinalized.root ∈ store.blocks) :
    ∃ pruned, store.pruneFinalizedHistory = some pruned ∧ Headed pruned ∧
      pruned.reorgsTotal = store.reorgsTotal ∧
      GhostHead store.storedParent store.activeVote
        (lookupStart store store.latestJustified.root store.latestFinalized.root) pruned.head := by
  obtain ⟨pruned, hrun, ⟨run⟩, consistent', hpruned, -, -, trims⟩ := prune_trims consistent stored
  refine ⟨pruned, hrun, hpruned.headed, run.reorgsTotal_eq, ?_⟩
  have hbelow := lookupStart_below store.latestFinalized.root stored store.latestJustified.root
  have hjustified : pruned.latestJustified.root =
      lookupStart store store.latestJustified.root store.latestFinalized.root := by
    rw [hpruned.justified, lookupStart]
    by_cases hkept : Below store store.latestFinalized.root store.latestJustified.root
    · rw [if_pos (hpruned.trimmed.kept.mpr hkept), if_pos hkept]
    · rw [if_neg fun h => hkept (hpruned.trimmed.kept.mp h), if_neg hkept]
  generalize hstart : lookupStart store store.latestJustified.root store.latestFinalized.root =
    start at hbelow hjustified ⊢
  -- the unpruned tree has a head below the same block, and pruning leaves it
  have hconsistent : Consistent rank { store with latestJustified := ⟨start, 0⟩ } :=
    consistent.congr ⟨rfl, rfl, rfl, rfl, rfl, .refl _⟩ rfl rfl rfl
  obtain ⟨head, -, hghost⟩ := hconsistent.findHead_spec (consistent.skeleton.stored.mp hbelow.1)
  have hghost' := trims.ghostHead consistent.skeleton.falls_storedParent hbelow.2 hghost
  obtain ⟨found, hfound, hfinds⟩ := consistent'.findHead_spec (by
    rw [hjustified]
    exact hpruned.trimmed.kept.mpr hbelow)
  rw [hpruned.headed.found, some_inj] at hfound
  rw [hjustified] at hfinds
  rw [hfound, ← hghost'.unique hfinds]
  exact hghost

/-- The store is in order, and the block has a parent below it and no other parent on record. -/
structure InOrder (ssz : Ssz) (store : ForkChoiceStore) (signed : SignedBlockWithAttestation) :
    Prop where
  headed : Headed store
  nonzero : signed.message.block.hashTreeRoot ssz ≠ Bytes32.zero
  link : signed.message.block.hashTreeRoot ssz ∈ store.nodeIndices →
    store.parents.lookup (signed.message.block.hashTreeRoot ssz) =
      some signed.message.block.parentRoot
  consistent : ∃ rank : Bytes32 → Nat, Consistent rank store ∧
    (signed.message.block.parentRoot ≠ Bytes32.zero →
      rank signed.message.block.parentRoot < rank (signed.message.block.hashTreeRoot ssz))

/-- The old head is above the block from which the head is looked up, or on the way from there to
the heaviest child, over the tree and the votes with the block in. -/
def OnCourse (ssz : Ssz) (store : ForkChoiceStore) (signed : SignedBlockWithAttestation)
    (postState : State) : Prop :=
  let recorded := store.recordBlock ssz signed postState
  let votes := (ForkChoiceStore.blockVotes signed true).foldl (stageVote recorded) store.latestVotes
  let start := lookupStart recorded
    (higher store.latestJustified postState.latestJustified).root postState.latestFinalized.root
  Climbs recorded.storedParent start store.head ∨
    Relation.ReflTransGen (BestChild recorded.storedParent votes.lookup) start store.head

/-- **An import that prunes counts nothing**, which is right as long as the old head is on
course. -/
theorem importMatching_pruned_iff (inOrder : InOrder ssz store signed)
    (prunes : Prunes ssz store signed postState)
    (h : store.importMatching ssz signed postState true = some next) :
    ReorgTally (linksWith ssz store signed) store.head store.reorgsTotal next ↔
      OnCourse ssz store signed postState := by
  obtain ⟨rank, consistent, below⟩ := inOrder.consistent
  obtain ⟨run, entered, voted, henter, hvote, hrun⟩ := exists_importRun h
  obtain ⟨entered', voted', henter', hvote', hconsistent, hadopted, -, -⟩ :=
    adopt_spec consistent inOrder.nonzero below inOrder.link postState true
  obtain rfl := some_inj.mp (henter.symm.trans henter')
  obtain rfl := some_inj.mp (hvote.symm.trans hvote')
  rw [← hrun] at hconsistent hadopted
  have hfinalized : run.adopted.latestFinalized = postState.latestFinalized := by
    rw [run.finalized, higher, if_pos prunes.1]
  have hstored : run.adopted.latestFinalized.root ∈ run.adopted.blocks := by
    rw [hfinalized, run.blocks, AList.mem_insert]
    exact prunes.2
  obtain ⟨pruned, hprune, hheaded, htotal, hghost⟩ := prune_ghostHead hconsistent hstored
  -- the head is asked for again, and the question is put to the head the prune has left
  have hsettled : run.settled = pruned := by
    have hprunes := run.prunes
    rw [if_pos prunes.1, hprune] at hprunes
    exact (some_inj.mp hprunes).symm
  have hfound : run.found = pruned.head := by
    have hfinds := run.finds
    rw [hsettled, hheaded.found] at hfinds
    exact (some_inj.mp hfinds).symm
  have hsettles := run.settles
  rw [hfound, hsettled, importHead_of_stored hheaded.stored] at hsettles
  obtain ⟨reorgsTotal, safeTarget, hnext, htally⟩ := settleHead_tally hsettles
  have hhead : next.head = pruned.head := by
    rw [hnext]
    exact (moveHead_head pruned pruned.head).trans (if_pos hheaded.stored)
  have hsame : next.reorgsTotal = store.reorgsTotal := by
    rw [htally.onward (hhead ▸ .refl _ _), moveHead_reorgsTotal, htotal, run.reorgsTotal]
  have holdStored : store.head ∈ run.adopted.blocks := by
    rw [run.blocks, AList.mem_insert]
    exact .inr inOrder.headed.stored
  rw [tally_iff_of_same hsame, hhead, ← run.parents,
    hconsistent.skeleton.climbs_parentLink holdStored, hghost.climbs_iff]
  -- the adopted store has the tree and the votes of the store with the block in
  have hup : run.adopted.storedParent =
      (store.recordBlock ssz signed postState).storedParent := by
    funext root
    rw [ForkChoiceStore.storedParent, run.parents, run.blocks]
    rfl
  have hvotes : run.adopted.activeVote = ((ForkChoiceStore.blockVotes signed true).foldl
      (stageVote (store.recordBlock ssz signed postState)) store.latestVotes).lookup := by
    have hstage : stageVote run.adopted = stageVote (store.recordBlock ssz signed postState) :=
      stageVote_congr run.blocks
    funext v
    rw [ForkChoiceStore.activeVote, hadopted.votes, hstage]
  have hstart : lookupStart run.adopted run.adopted.latestJustified.root
      run.adopted.latestFinalized.root =
        lookupStart (store.recordBlock ssz signed postState)
          (higher store.latestJustified postState.latestJustified).root
          postState.latestFinalized.root := by
    rw [hadopted.justified, hfinalized]
    unfold lookupStart Below
    rw [run.blocks, hup]
    rfl
  rw [hstart, hup, hvotes]
  rfl

/-! ## Every call -/

/-- The recorded links when the call is over and before anything is pruned. -/
def Step.links (ssz : Ssz) (step : Step) : RapidHashMap Bytes32 :=
  match step.enters ssz with
  | some signed => linksWith ssz step.before signed
  | none => step.before.parents

/-- A proposal head is asked for, and no vote is pending. -/
def Step.Idle (step : Step) : Prop :=
  match step.event with
  | .propose => step.before.latestNewVotes.entries = []
  | .proposeWith pendingVotes =>
    (pendingVotes.foldl (stageVote step.before) step.before.latestNewVotes).entries = []
  | _ => False

/-- What keeps the counter right: nothing moves the head off course without a question asked. -/
structure Step.Asked (ssz : Ssz) (step : Step) : Prop where
  found : step.Idle → FoundOnward step.before
  onCourse : ∀ signed postState, step.event = .block signed postState →
    (step.prunes ssz).isSome → OnCourse ssz step.before signed postState

private theorem Step.prunes_isSome {store : ForkChoiceStore}
    (hmatch : stateMatchesBlockRoot ssz postState signed.message.block.stateRoot = true) :
    (Step.prunes ssz ⟨store, .block signed postState⟩).isSome ↔
      Prunes ssz store signed postState := by
  unfold Step.prunes
  dsimp only
  split
  · rename_i h
    exact iff_of_true rfl h.2
  · rename_i h
    exact iff_of_false Bool.false_ne_true fun hprunes => h ⟨hmatch, hprunes⟩

/-- **When the reorg counter is exact.** A call that returns adds one exactly for a head that is
neither the old head nor a descendant of it, if and only if a prune finds the old head on course,
and a proposal without pending votes finds the head, or a descendant of it. -/
theorem reorgCounter_exact_iff {event : Event} (handled : store.handle ssz event = some next)
    (inOrder : ∀ signed postState, event = .block signed postState →
      (Step.prunes ssz ⟨store, event⟩).isSome → InOrder ssz store signed) :
    ReorgTally (Step.links ssz ⟨store, event⟩) store.head store.reorgsTotal next ↔
      Step.Asked ssz ⟨store, event⟩ := by
  cases event with
  | block signed postState =>
    rw [handle_block] at handled
    by_cases hmatch : stateMatchesBlockRoot ssz postState signed.message.block.stateRoot
    · rw [if_pos hmatch] at handled
      have hlinks : Step.links ssz ⟨store, .block signed postState⟩ =
          linksWith ssz store signed := by
        have henters : Step.enters ssz ⟨store, .block signed postState⟩ = some signed :=
          if_pos hmatch
        rw [Step.links, henters]
      rw [hlinks]
      by_cases hprunes : Prunes ssz store signed postState
      · have hsome := (Step.prunes_isSome hmatch).mpr hprunes
        rw [importMatching_pruned_iff (inOrder signed postState rfl hsome) hprunes handled]
        constructor
        · refine fun onCourse => ⟨False.elim, fun other otherState heq _ => ?_⟩
          cases heq
          exact onCourse
        · exact fun asked => asked.onCourse signed postState rfl hsome
      · refine iff_of_true (importMatching_tally hprunes handled) ⟨False.elim, ?_⟩
        intro other otherState heq hsome
        cases heq
        exact absurd ((Step.prunes_isSome hmatch).mp hsome) hprunes
    · -- a refused block leaves everything as it was
      rw [if_neg hmatch] at handled
      cases handled
      refine iff_of_true (tally_of_still rfl rfl) ⟨False.elim, ?_⟩
      intro other otherState heq hsome
      cases heq
      have hnone : Step.prunes ssz ⟨store, .block signed postState⟩ = none :=
        if_neg fun h => hmatch h.1
      rw [hnone] at hsome
      cases hsome
  | attestation attestation =>
    rw [ForkChoiceStore.handle, ForkChoiceStore.onAttestation, applyPending_eq] at handled
    cases handled
    exact iff_of_true (tally_of_still rfl rfl)
      ⟨False.elim, fun _ _ heq => by cases heq⟩
  | accept =>
    refine iff_of_true ?_ ⟨False.elim, fun _ _ heq => by cases heq⟩
    rcases acceptNewVotes_tally handled with ⟨-, rfl⟩ | ⟨-, -, htally, -⟩
    · exact tally_of_still rfl rfl
    · exact htally
  | propose =>
    rcases getProposalHead_tally handled with ⟨hnone, head, hfound, rfl⟩ | ⟨hsome, htally⟩
    · refine (tally_moved_iff hfound rfl (moveHead_reorgsTotal store head)).trans ?_
      exact ⟨fun honward => ⟨fun _ => honward, fun _ _ heq => by cases heq⟩,
        fun asked => asked.found hnone⟩
    · exact iff_of_true htally ⟨fun hidle => absurd hidle hsome, fun _ _ heq => by cases heq⟩
  | proposeWith pendingVotes =>
    rcases getProposalHeadWithPending_tally handled with
      ⟨hnone, head, hfound, hmoved, hsame⟩ | ⟨hsome, htally⟩
    · refine (tally_moved_iff hfound hmoved hsame).trans ?_
      exact ⟨fun honward => ⟨fun _ => honward, fun _ _ heq => by cases heq⟩,
        fun asked => asked.found hnone⟩
    · exact iff_of_true htally ⟨fun hidle => absurd hidle hsome, fun _ _ heq => by cases heq⟩

private theorem Step.enters_of_prunes (heq : event = .block signed postState)
    (hsome : (Step.prunes ssz ⟨store, event⟩).isSome) :
    Step.enters ssz ⟨store, event⟩ = some signed := by
  subst heq
  refine if_pos ?_
  by_contra hmatch
  have hnone : Step.prunes ssz ⟨store, .block signed postState⟩ = none :=
    if_neg fun h => hmatch h.1
  rw [hnone] at hsome
  cases hsome

private theorem Run.inOrder {anchor : SignedBlockWithAttestation} {anchorState : State}
    {first : ForkChoiceStore} {steps : List Step}
    (accepted : ForkChoiceStore.new ssz anchor anchorState = .ok first)
    (run : Run ssz first steps store)
    (sound : SoundTree ssz (blocksOf ssz anchor (steps ++ [⟨store, event⟩])))
    (once : PrunedOnce ssz (steps ++ [⟨store, event⟩]))
    (enters : Step.enters ssz ⟨store, event⟩ = some signed) : InOrder ssz store signed := by
  obtain ⟨rank, hfalls⟩ := sound.exists_rank
  have hsub := @blocksOf_subset ssz anchor steps ⟨store, event⟩
  have htracked := run.tracked accepted (sound.mono hsub) (List.pairwise_append.mp once).1
    fun block hblock => hfalls block (hsub block hblock)
  have hfits := fits_of_sound sound once hfalls enters
  exact ⟨htracked.headed, hfits.nonzero, htracked.link hfits, rank, htracked.consistent,
    hfits.below⟩

/-! ## A block that finalizes -/

/-- Three blocks on genesis; the third finalizes the first. -/
def thirdPlan : List PlannedBlock :=
  [⟨1, []⟩, ⟨2, [⟨0, 1, voters 3 3#8⟩]⟩, ⟨3, [⟨1, 2, voters 3 3#8⟩]⟩]

def thirdBlock : Event :=
  (plannedEvents thirdPlan anchorGenesis).getD 2 .accept

/-- The first two blocks are in. -/
def beforeThird : List Step × ForkChoiceStore :=
  (play anchorSsz (anchoredStore anchorGenesis)
    ((plannedEvents thirdPlan anchorGenesis).take 2)).getD ([], anchoredStore anchorGenesis)

/-- Whether a call moves the head to a block that is no descendant of the old head, evaluated. -/
def ForkChoiceStore.reorgs (ssz : Ssz) (store : ForkChoiceStore) (event : Event)
    (next : ForkChoiceStore) : Option Bool :=
  ForkChoiceStore.headChangeIsReorg { store with parents := Step.links ssz ⟨store, event⟩ }
    store.head next.head

private theorem not_climbs_of_reorgs (h : store.reorgs ssz event next = some true) :
    ¬ Climbs (parentLink (Step.links ssz ⟨store, event⟩)) next.head store.head :=
  (headChangeIsReorg_iff h).mp rfl

private theorem tally_of_reorgs (h : store.reorgs ssz event next = some false)
    (same : next.reorgsTotal = store.reorgsTotal) :
    ReorgTally (Step.links ssz ⟨store, event⟩) store.head store.reorgsTotal next := by
  refine (tally_iff_of_same same).mpr ?_
  by_contra hmoved
  exact Bool.false_ne_true ((headChangeIsReorg_iff h).mpr hmoved)

private theorem handle_getD (h : (store.handle ssz event).isSome = true) :
    store.handle ssz event = some ((store.handle ssz event).getD store) := by
  obtain ⟨next, hnext⟩ := Option.isSome_iff_exists.mp h
  rw [hnext, Option.getD_some]

/-- The store after the third block. -/
def afterThird : ForkChoiceStore :=
  (beforeThird.2.handle anchorSsz thirdBlock).getD beforeThird.2

/-- The third block prunes, the head moves on to it, and the counter is right. -/
theorem reorgCounter_exact_third :
    (Step.prunes anchorSsz ⟨beforeThird.2, thirdBlock⟩).isSome ∧
      Step.Asked anchorSsz ⟨beforeThird.2, thirdBlock⟩ := by
  have hrun : Run anchorSsz (anchoredStore anchorGenesis) beforeThird.1 beforeThird.2 :=
    Run.of_play (by decide +kernel)
  have hfalls : ∀ link ∈ linksOf anchorSsz (blocksOf anchorSsz (anchorOf anchorGenesis)
      (beforeThird.1 ++ [⟨beforeThird.2, thirdBlock⟩])),
      placeIn (anchoredRoots thirdPlan anchorGenesis) link.2 <
        placeIn (anchoredRoots thirdPlan anchorGenesis) link.1 := by
    decide +kernel
  have hsound : SoundTree anchorSsz (blocksOf anchorSsz (anchorOf anchorGenesis)
      (beforeThird.1 ++ [⟨beforeThird.2, thirdBlock⟩])) :=
    ⟨acyclic_of_rank hfalls, by decide +kernel, by decide +kernel⟩
  have honce : PrunedOnce anchorSsz (beforeThird.1 ++ [⟨beforeThird.2, thirdBlock⟩]) := by
    unfold PrunedOnce
    decide +kernel
  have hhandled : beforeThird.2.handle anchorSsz thirdBlock = some afterThird :=
    handle_getD (by decide +kernel)
  have hreorgs : beforeThird.2.reorgs anchorSsz thirdBlock afterThird = some false := by
    decide +kernel
  have hcounter : afterThird.reorgsTotal = beforeThird.2.reorgsTotal := by
    decide +kernel
  refine ⟨by decide +kernel, (reorgCounter_exact_iff hhandled ?_).mp ?_⟩
  · intro signed postState heq hsome
    exact hrun.inOrder (new_anchoredStore (by decide +kernel)) hsound honce
      (Step.enters_of_prunes heq hsome)
  · exact tally_of_reorgs hreorgs hcounter

/-- Before the third block a fork from the first arrives, and all vote for it. -/
def forkedEvents : List Event :=
  let fork : List PlannedBlock := [⟨1, []⟩, ⟨4, []⟩]
  (plannedEvents thirdPlan anchorGenesis).take 2 ++
    (plannedEvents fork anchorGenesis).drop 1 ++
    [.attestation (headVote 4 ((plannedRoots fork anchorGenesis).getD 1 0#256) (voters 3 7#8)),
      .accept]

def forkedRun : List Step × ForkChoiceStore :=
  (play anchorSsz (anchoredStore anchorGenesis) forkedEvents).getD
    ([], anchoredStore anchorGenesis)

def forkedThird : ForkChoiceStore :=
  (forkedRun.2.handle anchorSsz thirdBlock).getD forkedRun.2

/-- **A reorg that is not counted.** The third block takes two votes back from the fork and
finalizes the first block; the head leaves the fork, and the counter stays. -/
theorem prune_hides_reorg :
    Run anchorSsz (anchoredStore anchorGenesis) forkedRun.1 forkedRun.2 ∧
      forkedRun.2.handle anchorSsz thirdBlock = some forkedThird ∧
      ¬ Climbs (parentLink (Step.links anchorSsz ⟨forkedRun.2, thirdBlock⟩))
        forkedThird.head forkedRun.2.head ∧
      forkedThird.reorgsTotal = forkedRun.2.reorgsTotal := by
  have hreorgs : forkedRun.2.reorgs anchorSsz thirdBlock forkedThird = some true := by
    decide +kernel
  exact ⟨Run.of_play (by decide +kernel), handle_getD (by decide +kernel),
    not_climbs_of_reorgs hreorgs, by decide +kernel⟩

end Peam
