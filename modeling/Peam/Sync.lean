import Mathlib.Data.Finset.Basic
import Peam.Import

/-!
# The sync task

`spawn_status_sync_task` of `src/node/sync/manager.rs` as a state machine. The task owns the record
of the pending backfill, the set of roots in flight and the time of the last status probe; the three
atomics it shares are written by it alone and are part of its state. Everything else is an input of
each turn: the clock, the live state, the store and the fork choice as the turn finds them, the
connected peers, and whether a command to a peer goes out. A turn may find the shared objects in any
state.

A turn is cut in two at the calls of an import (`SyncStep`), so that what an import is called with
does not depend on how it ends. The clock is read once a turn. Log lines and the observability
counters are left out.
-/

namespace Peam

open Packed (Byte)
open Calls (Outcome)

/-- `SYNC_REQUEST_TIMEOUT`, in milliseconds. -/
def syncRequestTimeout : Nat := 4000

/-- `STATUS_PROBE_INTERVAL`, in milliseconds. -/
def statusProbeInterval : Nat := 1000

/-- `SYNC_SLOT_LAG_THRESHOLD`. -/
def syncSlotLagThreshold : Nat := 0

/-- `BLOCKS_BY_ROOT_FANOUT_PEERS`. -/
def blocksByRootFanoutPeers : Nat := 1

/-- The variables of the task. -/
structure SyncTask extends PendingBackfill where
  activePeer : Option String
  pendingRangeStartSlot : Option Nat
  pendingRangeCount : Option Nat
  pendingSince : Option Nat
  inFlightRoots : Finset Bytes32
  lastStatusProbe : Nat
  isSyncing : Bool
  syncTargetSlot : Nat
  syncPendingDepth : Nat

/-- What a turn finds. -/
structure SyncContext where
  now : Nat
  views : Views
  /-- `PeerManager::list`. -/
  peers : List String
  /-- The peer's id parses and the network task takes a command for it. -/
  sends : String → Bool

/-- What wakes the task. -/
inductive SyncEvent where
  | tick
  /-- The event channel has dropped events. -/
  | lagged
  /-- The event channel is closed. -/
  | closed
  /-- An event that is no response, or one of a protocol the node does not know. -/
  | other
  | response (peerId : String) (protocol : LeanSupportedProtocol) (payload : List Byte)

/-- A `BlocksByRoot` request that went out, for the head of a peer's status or for the parent of the
block fetched last. -/
inductive SyncRequest where
  | head (root : Bytes32)
  | parent (root : Bytes32)
  deriving DecidableEq

/-- Where a turn leads: back to the head of the loop, to the end of the task, or into an import. -/
inductive SyncStep where
  | waiting (task : SyncTask) (requests : List SyncRequest)
  | stopped
  | importing (task : SyncTask)
  | importingRange (task : SyncTask) (blocks : List SignedBlockWithAttestation)

/-- `build_local_status`. -/
def buildLocalStatus (ssz : Ssz) (state : State) : Status where
  finalizedRoot := state.latestFinalized.root
  finalizedSlot := state.latestFinalized.slot
  headRoot := state.latestBlockHeader.hashTreeRoot ssz
  headSlot := state.latestBlockHeader.slot

/-- `BlocksByRangeResponse::decode_ssz_checked`. -/
def BlocksByRangeResponse.decodeSszChecked (codec : SszCodec) (bytes : List Byte) :
    Outcome (SszList SignedBlockWithAttestation maxBlocksPerRequest) := do
  Outcome.failIf (bytes.length < 4) "BlocksByRangeResponse missing offset table"
  let offset ← readU32 bytes 0
  Outcome.failIf (offset ≠ 4 ∨ offset > bytes.length) "BlocksByRangeResponse offset is invalid"
  Outcome.sliceFrom bytes offset >>=
    SszList.decode codec (SignedBlockWithAttestation.decodeSsz codec) true none maxBlocksPerRequest

/-! ## Requests -/

/-- The loop of `request_root_with_fanout` over the other peers. -/
def fanoutLoop (sends : String → Bool) (preferredPeerId : String) (maxPeers : Nat) :
    List String → Nat → Nat
  | [], requested => requested
  | peerId :: rest, requested =>
    if peerId = preferredPeerId then fanoutLoop sends preferredPeerId maxPeers rest requested
    else
      let requested := if sends peerId then requested + 1 else requested
      if requested ≥ maxPeers then requested
      else fanoutLoop sends preferredPeerId maxPeers rest requested

/-- `request_root_with_fanout`: the number of peers asked. -/
def SyncContext.requestRootWithFanout (context : SyncContext) (preferredPeerId : String)
    (maxPeers : Nat) : Nat :=
  let requested := if context.sends preferredPeerId then 1 else 0
  if requested ≥ maxPeers then requested
  else fanoutLoop context.sends preferredPeerId maxPeers context.peers requested

/-- `broadcast_status_to_peers`: the number of peers the status went to. -/
def SyncContext.broadcastStatusToPeers (context : SyncContext) : Nat :=
  (context.peers.filter context.sends).length

/-- A probe time that is due: `Instant::now()` less the interval, if the clock reaches that far
back. -/
def SyncContext.dueProbe (context : SyncContext) : Nat :=
  if statusProbeInterval ≤ context.now then context.now - statusProbeInterval else context.now

namespace SyncTask

/-- The task as it starts. -/
def initial (context : SyncContext) : SyncTask where
  pendingRoot := none
  fetchedChainNewestToOldest := []
  activePeer := none
  pendingRangeStartSlot := none
  pendingRangeCount := none
  pendingSince := none
  inFlightRoots := ∅
  lastStatusProbe := context.dueProbe
  isSyncing := false
  syncTargetSlot := 0
  syncPendingDepth := 0

/-- `PendingBackfill::reset`. -/
def reset (task : SyncTask) : SyncTask :=
  { task with
    activePeer := none
    pendingRoot := none
    pendingRangeStartSlot := none
    pendingRangeCount := none
    pendingSince := none
    fetchedChainNewestToOldest := [] }

/-- `PendingBackfill::set_target`. -/
def setTarget (task : SyncTask) (now : Nat) (peerId : String) (root : Bytes32) : SyncTask :=
  { task with
    activePeer := some peerId
    pendingRoot := some root
    pendingSince := some now
    fetchedChainNewestToOldest := [] }

/-- A request is pending. -/
def isWaiting (task : SyncTask) : Bool :=
  task.pendingRoot.isSome || task.pendingRangeStartSlot.isSome

/-! ## Ticks -/

/-- The pending request has timed out. -/
def timedOut (task : SyncTask) (now : Nat) : Bool :=
  task.isWaiting && task.pendingSince.any fun since => decide (syncRequestTimeout ≤ now - since)

/-- What a tick makes of a request that has timed out. -/
def dropRequest (task : SyncTask) (context : SyncContext) : SyncTask :=
  { task with
    inFlightRoots := task.pendingRoot.elim task.inFlightRoots task.inFlightRoots.erase
    pendingRoot := none
    pendingSince := none
    fetchedChainNewestToOldest := []
    activePeer := none
    syncPendingDepth := 0
    lastStatusProbe := context.dueProbe }

/-- The tick arm of the loop. -/
def tick (task : SyncTask) (context : SyncContext) : SyncTask :=
  let task := if task.timedOut context.now then task.dropRequest context else task
  if task.isWaiting then task
  else if context.now - task.lastStatusProbe < statusProbeInterval then task
  else
    let quiet : Bool := context.broadcastStatusToPeers = 0 ∧ task.syncTargetSlot = 0
    { task with
      lastStatusProbe := context.now
      isSyncing := if quiet then false else task.isSyncing
      syncPendingDepth := if quiet then 0 else task.syncPendingDepth
      activePeer := none }

/-! ## Responses -/

section Responses

variable (codec : SszCodec) (context : SyncContext) (peerId : String) (payload : List Byte)

/-- A status that shows nothing to fetch ends a sync that has reached its target. -/
def nothingToFetch (task : SyncTask) (localHeadSlot : Nat) : SyncTask :=
  if task.syncTargetSlot ≠ 0 ∧ localHeadSlot ≥ task.syncTargetSlot then
    { task.reset with
      isSyncing := false
      inFlightRoots := ∅
      syncTargetSlot := 0
      syncPendingDepth := 0 }
  else task

/-- The head of a status becomes the root to fetch, unless it is in flight. -/
def fetchHead (task : SyncTask) (remote : Status) : SyncStep :=
  let task :=
    { task with
      isSyncing := true
      syncTargetSlot := max task.syncTargetSlot remote.headSlot
      syncPendingDepth := 0 }
  if remote.headRoot ∈ task.inFlightRoots then .waiting task []
  else
    let task :=
      { task with inFlightRoots := insert remote.headRoot task.inFlightRoots }.setTarget
        context.now peerId remote.headRoot
    if context.requestRootWithFanout peerId blocksByRootFanoutPeers = 0 then
      .waiting { task with inFlightRoots := task.inFlightRoots.erase remote.headRoot }.reset []
    else .waiting task [.head remote.headRoot]

/-- The `StatusV1` arm. -/
def receiveStatus (task : SyncTask) : Outcome SyncStep :=
  if task.isWaiting then .ok (.waiting task [])
  else
    match LeanResponseMessage.decodeSsz codec .statusV1 payload with
    | .error (.panicked text) => .error (.panicked text)
    | .ok (.status remote) =>
      let here := buildLocalStatus codec.toSsz context.views.live
      let needsRootBackfill : Bool :=
        remote.headRoot ≠ here.headRoot ∧ remote.headSlot + syncSlotLagThreshold ≥ here.headSlot
      if needsRootBackfill then .ok (task.fetchHead context peerId remote)
      else .ok (.waiting (task.nothingToFetch here.headSlot) [])
    | _ => .ok (.waiting task [])

/-- The `BlocksByRangeV1` arm, up to the import. -/
def receiveBlocksByRange (task : SyncTask) : Outcome SyncStep :=
  match task.pendingRangeStartSlot with
  | none => .ok (.waiting task [])
  | some _ =>
    match BlocksByRangeResponse.decodeSszChecked codec payload with
    | .error (.panicked text) => .error (.panicked text)
    | .error (.err _) => .ok (.waiting task [])
    | .ok blocks => .ok (.importingRange task blocks.items)

/-- The block asked for has arrived. -/
def push (task : SyncTask) (targetRoot : Bytes32) (signed : SignedBlockWithAttestation) :
    SyncTask :=
  let fetched := task.fetchedChainNewestToOldest ++ [signed]
  { task with
    inFlightRoots := task.inFlightRoots.erase targetRoot
    activePeer := some peerId
    fetchedChainNewestToOldest := fetched
    syncPendingDepth := fetched.length }

/-- The parent becomes the root to fetch. A request that does not go out drops the chain. -/
def fetchParent (task : SyncTask) (parentRoot : Bytes32) : SyncStep :=
  let task := { task with pendingRoot := some parentRoot, pendingSince := some context.now }
  if parentRoot ∈ task.inFlightRoots then .waiting task []
  else
    let task := { task with inFlightRoots := insert parentRoot task.inFlightRoots }
    if context.requestRootWithFanout peerId blocksByRootFanoutPeers = 0 then
      .waiting
        { task with
          inFlightRoots := task.inFlightRoots.erase parentRoot
          pendingRoot := none
          pendingSince := none
          activePeer := none
          fetchedChainNewestToOldest := []
          syncPendingDepth := 0
          lastStatusProbe := context.dueProbe } []
    else .waiting task [.parent parentRoot]

/-- A chain longer than `MAX_BACKFILL_DEPTH` is dropped, with the block just received. -/
def abort (task : SyncTask) : SyncTask :=
  { task.reset with
    inFlightRoots := ∅
    isSyncing := false
    syncTargetSlot := 0
    syncPendingDepth := 0 }

/-- The `BlocksByRootV1` arm, up to the import: what `Peam.receiveBlocksByRoot` makes of the payload
decides. -/
def receiveBlocksByRoot (task : SyncTask) : Outcome SyncStep :=
  match (Peam.receiveBlocksByRoot codec context.views.live context.views.store
    task.toPendingBackfill payload).value with
  -- "wait for timeout-driven retry"
  | .ignored => .ok (.waiting task [])
  | .panicked text => .error (.panicked text)
  | .aborted => .ok (.waiting task.abort [])
  | .fetchParent targetRoot signed =>
    .ok ((task.push peerId targetRoot signed).fetchParent context peerId
      signed.message.block.parentRoot)
  | .importTurn targetRoot signed _ => .ok (.importing (task.push peerId targetRoot signed))

end Responses

/-- A turn, up to an import. -/
def receive (codec : SszCodec) (context : SyncContext) (task : SyncTask) :
    SyncEvent → Outcome SyncStep
  | .tick => .ok (.waiting (task.tick context) [])
  | .lagged => .ok (.waiting task [])
  | .closed => .ok .stopped
  | .other => .ok (.waiting task [])
  | .response peerId .statusV1 payload => task.receiveStatus codec context peerId payload
  | .response _ .blocksByRangeV1 payload => task.receiveBlocksByRange codec payload
  | .response peerId .blocksByRootV1 payload => task.receiveBlocksByRoot codec context peerId payload

/-! ## Imports -/

/-- What follows the import of a fetched chain, whatever it returned. -/
def afterImport (task : SyncTask) (context : SyncContext) (localHead : Nat) : SyncTask :=
  let target := task.syncTargetSlot
  let task := { task.reset with inFlightRoots := ∅, syncPendingDepth := 0 }
  if target ≠ 0 ∧ localHead < target then
    { task with isSyncing := true, lastStatusProbe := context.dueProbe }
  else { task with isSyncing := false, syncTargetSlot := 0 }

/-- What follows the import of a range. -/
def afterRange (task : SyncTask) (context : SyncContext) (imported : Bool) (localHead : Nat) :
    SyncTask :=
  let task := { task.reset with syncPendingDepth := 0 }
  if imported ∧ localHead < task.syncTargetSlot then
    { task with isSyncing := true, lastStatusProbe := context.dueProbe }
  else if imported then { task with isSyncing := false, syncTargetSlot := 0 }
  else { task with isSyncing := false }

/-- The proposer attestations a chain brings into the pending list: those of all its blocks, once
one of them was imported. -/
def enqueued (imported : Option Nat) (chain : List SignedBlockWithAttestation) :
    List Attestation :=
  match imported with
  | some (_ + 1) => chain.map (·.message.proposerAttestation)
  | _ => []

/-- What a turn leaves: the task, the requests that went out, the shared objects, and what it adds
to the pending attestations. -/
structure Turned where
  task : SyncTask
  requests : List SyncRequest
  views : Views
  attestations : List Attestation

/-- A whole turn; `none` is the end of the task. -/
def turn (codec : SszCodec) (verifier : SignatureVerifier) (context : SyncContext)
    (task : SyncTask) (event : SyncEvent) : Calls.Attempt (Option Turned) := do
  match ← ExceptT.mk (some (task.receive codec context event)) with
  | .stopped => return none
  | .waiting task requests => return some ⟨task, requests, context.views, []⟩
  | .importing task =>
    let chain := task.fetchedChainNewestToOldest
    let (imported, views) ← importBackfillChain codec.toSsz verifier context.views chain
    let localHead := (buildLocalStatus codec.toSsz views.live).headSlot
    return some ⟨task.afterImport context localHead, [], views, enqueued imported chain⟩
  | .importingRange task blocks =>
    let (imported, views) ← importStreamedRangeChain codec.toSsz verifier context.views blocks
    let localHead := (buildLocalStatus codec.toSsz views.live).headSlot
    return some ⟨task.afterRange context imported localHead, [], views, []⟩

end SyncTask

end Peam
