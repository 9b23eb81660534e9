import Peam.Laws.Encode
import Peam.Sync

/-!
# What the sync task holds on to

The task is in one of two phases (`InPhase`). At rest nothing is pending and nothing is in flight.
While it fetches, one root is pending, it alone is in flight, and the fetched blocks lead from the
head that was asked for down to it. A response that does not match, does not decode or comes twice
changes nothing, a matching one moves the chain by one block, and every failure drops the whole
chain. So a root is never scheduled twice, and an import is called with nothing but a linked chain,
for any shared state a turn may find and any order of events.
-/

namespace Peam

open Packed (Byte)
open Traces (Traced)
open Calls.Attempt (Returns returns_bind returns_pure)

variable {ssz : Ssz} {codec : SszCodec} {verifier : SignatureVerifier}
  {signed : SignedBlockWithAttestation} {root : Bytes32}

/-! ## Linked chains -/

/-- Newest first, the blocks lead from the root `head` to the root `next`: each is the block of the
root before it and names the root after it as its parent. -/
def Linked (ssz : Ssz) : Bytes32 → List SignedBlockWithAttestation → Bytes32 → Prop
  | head, [], next => head = next
  | head, signed :: rest, next =>
    signed.message.block.hashTreeRoot ssz = head ∧
      Linked ssz signed.message.block.parentRoot rest next

/-- Each block names the one after it as its parent. -/
def ParentLinked (ssz : Ssz) : List SignedBlockWithAttestation → Prop :=
  List.IsChain fun newer older =>
    newer.message.block.parentRoot = older.message.block.hashTreeRoot ssz

variable {head next : Bytes32} {chain : List SignedBlockWithAttestation} {step : SyncStep}

section

variable (linked : Linked ssz head chain next)

include linked

private theorem Linked.push (h : signed.message.block.hashTreeRoot ssz = next) :
    Linked ssz head (chain ++ [signed]) signed.message.block.parentRoot := by
  induction chain generalizing head with
  | nil => exact ⟨h.trans (Eq.symm linked), rfl⟩
  | cons first rest ih => exact ⟨linked.1, ih linked.2⟩

private theorem Linked.parentLinked : ParentLinked ssz chain := by
  induction chain generalizing head with
  | nil => exact .nil
  | cons first rest ih =>
    refine List.isChain_cons.mpr ⟨fun second hsecond => ?_, ih linked.2⟩
    cases rest with
    | nil => cases hsecond
    | cons second' rest =>
      cases hsecond
      exact linked.2.1.symm

private theorem Linked.next_eq :
    next = (chain.getLast?.map (·.message.block.parentRoot)).getD head := by
  induction chain generalizing head with
  | nil => exact Eq.symm linked
  | cons first rest ih =>
    rw [ih linked.2]
    cases rest with
    | nil => rfl
    | cons second rest =>
      rw [List.getLast?_cons_cons, List.getLast?_eq_getLast_of_ne_nil (List.cons_ne_nil second rest)]
      rfl

private theorem Linked.head_eq (nonempty : chain ≠ []) :
    chain.head?.map (·.message.block.hashTreeRoot ssz) = some head := by
  cases chain with
  | nil => exact absurd rfl nonempty
  | cons first rest => exact congrArg some linked.1

end

/-! ## The two phases -/

/-- Nothing is pending. -/
structure Resting (task : SyncTask) : Prop where
  pending : task.pendingRoot = none
  since : task.pendingSince = none
  fetched : task.fetchedChainNewestToOldest = []
  inFlight : task.inFlightRoots = ∅
  range : task.pendingRangeStartSlot = none

/-- The task has asked for `root`, on the way down from `head`. -/
structure Fetching (ssz : Ssz) (head root : Bytes32) (task : SyncTask) : Prop where
  pending : task.pendingRoot = some root
  since : task.pendingSince.isSome
  fetched : Linked ssz head task.fetchedChainNewestToOldest root
  bounded : task.fetchedChainNewestToOldest.length ≤ maxBackfillDepth
  inFlight : task.inFlightRoots = {root}
  range : task.pendingRangeStartSlot = none

/-- The head asked for last. -/
def lastHead (trace : List SyncRequest) : Option Bytes32 :=
  trace.foldl (fun last request => match request with | .head root => some root | .parent _ => last)
    none

private theorem lastHead_head (trace : List SyncRequest) (root : Bytes32) :
    lastHead (trace ++ [.head root]) = some root := by
  rw [lastHead, List.foldl_append]
  rfl

private theorem lastHead_parent (trace : List SyncRequest) (root : Bytes32) :
    lastHead (trace ++ [.parent root]) = lastHead trace := by
  rw [lastHead, List.foldl_append]
  rfl

/-- At rest, or on the way down from the head asked for last. -/
def InPhase (ssz : Ssz) (trace : List SyncRequest) (task : SyncTask) : Prop :=
  Resting task ∨ ∃ head root, lastHead trace = some head ∧ Fetching ssz head root task

variable {trace : List SyncRequest} {context : SyncContext} {task task' : SyncTask}
  {requests : List SyncRequest} {peerId : String} {payload : List Byte}

private theorem InPhase.range (phase : InPhase ssz trace task) :
    task.pendingRangeStartSlot = none :=
  phase.elim (·.range) fun ⟨_, _, _, fetching⟩ => fetching.range

private theorem InPhase.resting (phase : InPhase ssz trace task) (h : task.isWaiting = false) :
    Resting task := by
  refine phase.resolve_right fun ⟨head, root, _, fetching⟩ => ?_
  rw [SyncTask.isWaiting, fetching.pending] at h
  cases h

/-! ## Ticks -/

private theorem Fetching.dropRequest (fetching : Fetching ssz head root task) :
    Resting (task.dropRequest context) := by
  refine ⟨rfl, rfl, rfl, ?_, fetching.range⟩
  show task.pendingRoot.elim task.inFlightRoots task.inFlightRoots.erase = ∅
  rw [fetching.pending, fetching.inFlight]
  exact Finset.erase_singleton root

private theorem InPhase.tick (phase : InPhase ssz trace task) :
    InPhase ssz trace (task.tick context) := by
  have checked : InPhase ssz trace
      (if task.timedOut context.now then task.dropRequest context else task) := by
    split
    · rename_i timedOut
      rcases phase with resting | ⟨head, root, -, fetching⟩
      · rw [SyncTask.timedOut, SyncTask.isWaiting, resting.pending, resting.range] at timedOut
        cases timedOut
      · exact .inl fetching.dropRequest
    · exact phase
  unfold SyncTask.tick
  generalize (if task.timedOut context.now then task.dropRequest context else task) = kept
    at checked ⊢
  dsimp only
  split
  · exact checked
  · rename_i idle
    split
    · exact checked
    · have resting := checked.resting (Bool.eq_false_iff.mpr idle)
      exact .inl ⟨resting.pending, resting.since, resting.fetched, resting.inFlight, resting.range⟩

/-! ## Responses -/

/-- The block asked for has joined the chain, and nothing is in flight. -/
structure Pushed (ssz : Ssz) (head parentRoot : Bytes32) (task : SyncTask) : Prop where
  fetched : Linked ssz head task.fetchedChainNewestToOldest parentRoot
  nonempty : task.fetchedChainNewestToOldest ≠ []
  inFlight : task.inFlightRoots = ∅
  range : task.pendingRangeStartSlot = none

/-- Where a turn leads from a phase: to a phase, to the end, or into the import of the chain. -/
inductive Answered (ssz : Ssz) (trace : List SyncRequest) : SyncStep → Prop
  | waiting {task : SyncTask} {requests : List SyncRequest} :
      InPhase ssz (trace ++ requests) task → Answered ssz trace (.waiting task requests)
  | stopped : Answered ssz trace .stopped
  | importing {task : SyncTask} {head parentRoot : Bytes32} : lastHead trace = some head →
      Pushed ssz head parentRoot task →
      task.fetchedChainNewestToOldest.length ≤ maxBackfillDepth →
      Answered ssz trace (.importing task)

private theorem InPhase.silent (phase : InPhase ssz trace task) :
    Answered ssz trace (.waiting task []) :=
  .waiting (by rw [List.append_nil]; exact phase)

private theorem Resting.nothingToFetch (resting : Resting task) (localHeadSlot : Nat) :
    Resting (task.nothingToFetch localHeadSlot) := by
  unfold SyncTask.nothingToFetch
  split
  · exact ⟨rfl, rfl, rfl, rfl, rfl⟩
  · exact resting

/-- At rest nothing is in flight, so the head is asked for. -/
theorem Resting.fetchHead (resting : Resting task) (remote : Status) :
    Answered ssz trace (task.fetchHead context peerId remote) := by
  unfold SyncTask.fetchHead
  dsimp only
  rw [resting.inFlight, if_neg (Finset.notMem_empty _)]
  split
  · refine .waiting (.inl ⟨rfl, rfl, rfl, ?_, rfl⟩)
    exact Finset.erase_insert (Finset.notMem_empty _)
  · exact .waiting (.inr ⟨remote.headRoot, remote.headRoot, lastHead_head trace _, rfl, rfl, rfl,
      Nat.zero_le _, rfl, resting.range⟩)

private theorem InPhase.receiveStatus (phase : InPhase ssz trace task)
    (h : task.receiveStatus codec context peerId payload = .ok step) : Answered ssz trace step := by
  unfold SyncTask.receiveStatus at h
  split at h
  · cases h
    exact phase.silent
  · rename_i idle
    have resting := phase.resting (Bool.eq_false_iff.mpr idle)
    split at h
    · cases h
    · dsimp only at h
      split at h
      · cases h
        exact resting.fetchHead _
      · cases h
        exact InPhase.silent (.inl (resting.nothingToFetch _))
    · cases h
      exact phase.silent

private theorem Fetching.push (fetching : Fetching ssz head root task)
    (h : signed.message.block.hashTreeRoot ssz = root) :
    Pushed ssz head signed.message.block.parentRoot (task.push peerId root signed) where
  fetched := fetching.fetched.push h
  nonempty := List.append_ne_nil_of_right_ne_nil _ (List.cons_ne_nil signed [])
  inFlight := by
    show task.inFlightRoots.erase root = ∅
    rw [fetching.inFlight]
    exact Finset.erase_singleton root
  range := fetching.range

/-- With nothing in flight the parent is asked for, or the chain is dropped. -/
theorem Pushed.fetchParent {parentRoot : Bytes32} (pushed : Pushed ssz head parentRoot task)
    (bounded : task.fetchedChainNewestToOldest.length ≤ maxBackfillDepth)
    (asked : lastHead trace = some head) :
    Answered ssz trace (task.fetchParent context peerId parentRoot) := by
  unfold SyncTask.fetchParent
  dsimp only
  rw [pushed.inFlight, if_neg (Finset.notMem_empty _)]
  split
  · refine .waiting (.inl ⟨rfl, rfl, rfl, ?_, pushed.range⟩)
    exact Finset.erase_insert (Finset.notMem_empty _)
  · exact .waiting (.inr ⟨head, parentRoot, (lastHead_parent trace parentRoot).trans asked, rfl,
      rfl, pushed.fetched, bounded, rfl, pushed.range⟩)

/-- The received block is the one asked for, and there is room for it. -/
structure TakenUp (ssz : Ssz) (pending : PendingBackfill) (targetRoot : Bytes32)
    (signed : SignedBlockWithAttestation) : Prop where
  asked : pending.pendingRoot = some targetRoot
  own : signed.message.block.hashTreeRoot ssz = targetRoot
  room : pending.fetchedChainNewestToOldest.length + 1 ≤ maxBackfillDepth

/-- What the arm for blocks by root has checked when it goes on with a block. -/
def BlocksByRootStep.Checked (ssz : Ssz) (pending : PendingBackfill) : BlocksByRootStep → Prop
  | .fetchParent targetRoot signed => TakenUp ssz pending targetRoot signed
  | .importTurn targetRoot signed _ => TakenUp ssz pending targetRoot signed
  | _ => True

private theorem receiveBlocksByRoot_checked (live : State) (store : FileStore)
    (pending : PendingBackfill) :
    (Peam.receiveBlocksByRoot codec live store pending payload).value.Checked codec pending := by
  unfold Peam.receiveBlocksByRoot
  split
  · trivial
  next targetRoot asked =>
  split
  · trivial
  · next signed _ =>
    dsimp only
    split
    · trivial
    next own =>
    split
    · trivial
    next room =>
    rw [Traced.value_bind]
    split <;> exact ⟨asked, not_not.mp own, Nat.not_lt.mp room⟩
  · trivial

/-- A block that is taken up makes the chain longer. -/
theorem InPhase.push (phase : InPhase ssz trace task)
    (taken : TakenUp ssz task.toPendingBackfill root signed) :
    ∃ head, lastHead trace = some head ∧
      Pushed ssz head signed.message.block.parentRoot (task.push peerId root signed) := by
  rcases phase with resting | ⟨head, root, asked, fetching⟩
  · cases resting.pending.symm.trans taken.asked
  · cases fetching.pending.symm.trans taken.asked
    exact ⟨head, asked, fetching.push taken.own⟩

private theorem InPhase.receiveBlocksByRoot (phase : InPhase codec trace task)
    (h : task.receiveBlocksByRoot codec context peerId payload = .ok step) :
    Answered codec trace step := by
  have checked := @receiveBlocksByRoot_checked codec payload context.views.live
    context.views.store task.toPendingBackfill
  unfold SyncTask.receiveBlocksByRoot at h
  split at h
  · cases h
    exact phase.silent
  · cases h
  · cases h
    exact .waiting (.inl ⟨rfl, rfl, rfl, rfl, rfl⟩)
  · next targetRoot signed hstep =>
    cases h
    rw [hstep] at checked
    obtain ⟨head, asked, pushed⟩ := phase.push checked
    exact pushed.fetchParent (List.length_append.trans_le checked.room) asked
  · next targetRoot signed replayState hstep =>
    cases h
    rw [hstep] at checked
    obtain ⟨head, asked, pushed⟩ := phase.push checked
    exact .importing asked pushed (List.length_append.trans_le checked.room)

/-- **One turn**, up to an import, leads from a phase to a phase or into the import of a linked
chain. A range is never imported. -/
theorem InPhase.receive {event : SyncEvent} (phase : InPhase codec trace task)
    (h : task.receive codec context event = .ok step) : Answered codec trace step := by
  cases event with
  | tick =>
    cases h
    exact phase.tick.silent
  | lagged =>
    cases h
    exact phase.silent
  | closed =>
    cases h
    exact .stopped
  | other =>
    cases h
    exact phase.silent
  | response peerId protocol payload =>
    cases protocol with
    | statusV1 => exact phase.receiveStatus h
    | blocksByRootV1 => exact phase.receiveBlocksByRoot h
    | blocksByRangeV1 =>
      have h : task.receiveBlocksByRange codec payload = .ok step := h
      rw [SyncTask.receiveBlocksByRange, phase.range] at h
      cases h
      exact phase.silent

/-! ## Runs -/

private theorem resting_afterImport (localHead : Nat) :
    Resting (task.afterImport context localHead) := by
  unfold SyncTask.afterImport
  dsimp only
  split <;> exact ⟨rfl, rfl, rfl, rfl, rfl⟩

/-- A task at the head of its loop, with the requests that have gone out. Each turn finds the shared
objects as the other tasks left them. -/
inductive SyncTask.Reaches (codec : SszCodec) (verifier : SignatureVerifier) :
    List SyncRequest → SyncTask → Prop
  | start (context : SyncContext) : Reaches codec verifier [] (SyncTask.initial context)
  | turn {trace : List SyncRequest} {task : SyncTask} {context : SyncContext} {event : SyncEvent}
      {turned : SyncTask.Turned} : Reaches codec verifier trace task →
      Returns (task.turn codec verifier context event) (some turned) →
      Reaches codec verifier (trace ++ turned.requests) turned.task

private theorem SyncTask.Reaches.inPhase (reaches : SyncTask.Reaches codec verifier trace task) :
    InPhase codec trace task := by
  induction reaches with
  | start context => exact .inl ⟨rfl, rfl, rfl, rfl, rfl⟩
  | @turn trace task context event turned _ hturn phase =>
    obtain ⟨step, hstep, hturn⟩ := returns_bind.mp hturn
    have hreceive : task.receive codec context event = .ok step := Option.some_inj.mp hstep
    cases phase.receive hreceive with
    | waiting next =>
      cases returns_pure.mp hturn
      exact next
    | stopped => cases returns_pure.mp hturn
    | importing asked pushed bounded =>
      obtain ⟨⟨imported, views⟩, -, hturn⟩ := returns_bind.mp hturn
      cases returns_pure.mp hturn
      exact .inl (resting_afterImport _)

/-- The invariant of the task at the head of its loop. -/
structure SyncInvariant (ssz : Ssz) (trace : List SyncRequest) (task : SyncTask) : Prop where
  /-- What is in flight is the pending root, and nothing else. -/
  inFlight : task.inFlightRoots = task.pendingRoot.toFinset
  since : task.pendingRoot.isSome ↔ task.pendingSince.isSome
  linked : ParentLinked ssz task.fetchedChainNewestToOldest
  /-- The pending root is the parent of the block fetched last, or the head asked for. -/
  next : ∀ root ∈ task.pendingRoot, some root =
    (task.fetchedChainNewestToOldest.getLast?.map (·.message.block.parentRoot)).or (lastHead trace)
  idle : task.pendingRoot = none → task.fetchedChainNewestToOldest = []
  bounded : task.fetchedChainNewestToOldest.length ≤ maxBackfillDepth

private theorem InPhase.invariant (phase : InPhase ssz trace task) :
    SyncInvariant ssz trace task := by
  rcases phase with resting | ⟨head, root, asked, fetching⟩
  · refine ⟨?_, ?_, ?_, fun root hroot => ?_, fun _ => resting.fetched, ?_⟩
    · rw [resting.inFlight, resting.pending]
      rfl
    · rw [resting.pending, resting.since]
      exact Iff.rfl
    · rw [resting.fetched]
      exact .nil
    · rw [resting.pending] at hroot
      cases hroot
    · rw [resting.fetched]
      exact Nat.zero_le _
  · refine ⟨?_, ?_, fetching.fetched.parentLinked, fun root' hroot => ?_, fun hnone => ?_,
      fetching.bounded⟩
    · rw [fetching.inFlight, fetching.pending]
      rfl
    · rw [fetching.pending]
      exact iff_of_true rfl fetching.since
    · rw [fetching.pending] at hroot
      cases hroot
      rw [asked, fetching.fetched.next_eq]
      cases task.fetchedChainNewestToOldest.getLast? <;> rfl
    · rw [fetching.pending] at hnone
      cases hnone

/-- **The sync task at every head of its loop, and at every import.** -/
theorem syncTask_invariant (codec : SszCodec) (verifier : SignatureVerifier)
    (trace : List SyncRequest) (task : SyncTask)
    (reaches : SyncTask.Reaches codec verifier trace task) :
    SyncInvariant codec trace task ∧
      ∀ context event step, task.receive codec context event = .ok step →
        (∀ importer, step = .importing importer →
          ParentLinked codec importer.fetchedChainNewestToOldest ∧
          importer.fetchedChainNewestToOldest ≠ [] ∧
          importer.fetchedChainNewestToOldest.length ≤ maxBackfillDepth ∧
          importer.fetchedChainNewestToOldest.head?.map
            (·.message.block.hashTreeRoot codec) = lastHead trace) ∧
        ∀ importer blocks, step ≠ .importingRange importer blocks := by
  have phase := reaches.inPhase
  refine ⟨phase.invariant, fun context event step hstep => ?_⟩
  cases phase.receive hstep with
  | waiting next => exact ⟨nofun, nofun⟩
  | stopped => exact ⟨nofun, nofun⟩
  | importing asked pushed bounded =>
    refine ⟨fun importer h => ?_, nofun⟩
    cases h
    refine ⟨pushed.fetched.parentLinked, pushed.nonempty, bounded, ?_⟩
    rw [asked]
    exact pushed.fetched.head_eq pushed.nonempty

/-! ## A head and its block -/

/-- A node at genesis, with one peer. -/
def quietContext : SyncContext where
  now := 5000
  views := ⟨generateGenesis sampleSsz 0 threeValidators, FileStore.fresh, none⟩
  peers := ["peer"]
  sends _ := true

/-- The status of a peer whose head is another one, at slot 7. -/
def aheadStatus : SyncEvent :=
  .response "peer" .statusV1
    [asRef 32 0#256, leBytes 8 0, asRef 32 ((proposedBy 3).message.block.hashTreeRoot sampleSsz),
      leBytes 8 7].flatten

/-- The peer sends its head. -/
def headResponse : SyncEvent :=
  .response "peer" .blocksByRootV1 (((proposedBy 3).encodeSsz layoutEncoder).toOption.getD [])

/-- What a turn leaves. -/
def sampleTurn (task : SyncTask) (event : SyncEvent) : SyncTask.Turned :=
  (task.turn layoutEncoder noopSignatureVerifier quietContext event).value?.join.getD
    ⟨task, [], quietContext.views, []⟩

private theorem returns_sampleTurn {event : SyncEvent}
    (h : (task.turn layoutEncoder noopSignatureVerifier quietContext event).value?.join.isSome =
      true) :
    Returns (task.turn layoutEncoder noopSignatureVerifier quietContext event)
      (some (sampleTurn task event)) := by
  obtain ⟨turned, hturned⟩ := Option.isSome_iff_exists.mp h
  rw [sampleTurn, hturned]
  exact Calls.Attempt.value?_eq_some.mp (Option.join_eq_some_iff.mp hturned)

def afterStatus : SyncTask.Turned := sampleTurn (SyncTask.initial quietContext) aheadStatus

def afterBlock : SyncTask.Turned := sampleTurn afterStatus.task headResponse

/-- The head is fetched, and its parent is pending. -/
theorem syncTask_invariant_fetched :
    SyncTask.Reaches layoutEncoder noopSignatureVerifier
        ([] ++ afterStatus.requests ++ afterBlock.requests) afterBlock.task ∧
      afterBlock.task.fetchedChainNewestToOldest = [proposedBy 3] ∧
      afterBlock.task.pendingRoot = some 5#256 ∧
      SyncInvariant layoutEncoder ([] ++ afterStatus.requests ++ afterBlock.requests)
        afterBlock.task := by
  have reaches := SyncTask.Reaches.turn
    (.turn (.start quietContext) (@returns_sampleTurn _ aheadStatus (by decide +kernel)))
    (@returns_sampleTurn _ headResponse (by decide +kernel))
  refine ⟨reaches, by decide +kernel, by decide +kernel, ?_⟩
  exact (syncTask_invariant _ _ _ _ reaches).1

end Peam
