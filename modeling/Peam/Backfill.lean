import Peam.FileStore
import Peam.ReqResp
import Peam.Lib.Traced

/-!
# Backfill

The way of a `BlocksByRoot` response through the sync task, from its bytes to the block's turn in
`import_backfill_chain`, where its signatures are checked (`src/node/sync/manager.rs`,
`src/node/sync/backfill.rs`). The trace counts the passes of `process_slots`, the one loop on this
way whose length is not that of something the node holds.

The task does not read the clock here. The anchor state is the genesis state taken to the slot the
block names, one slot at a time.
-/

namespace Peam

open Packed (Byte)
open Traces

/-- The fields of `PendingBackfill` that the response handler reads. -/
structure PendingBackfill where
  pendingRoot : Option Bytes32
  fetchedChainNewestToOldest : List SignedBlockWithAttestation

def maxBackfillDepth : Nat := 512

section Anchor

variable (ssz : Ssz)

/-- `processSlotLoop`, with an event a pass. -/
def tracedSlotLoop : Nat → State → Traced Unit State
  | 0, state => pure state
  | remaining + 1, state => do
    Traced.emit ()
    tracedSlotLoop remaining (processSlot ssz state)

/-- `process_slots` with its passes; `none` is its error. -/
def tracedProcessSlots (targetSlot : Nat) (state : State) : Traced Unit (Option State) :=
  if state.slot ≥ targetSlot then pure none
  else do
    let state ← tracedSlotLoop ssz (targetSlot - state.slot) state
    return some state

/-- `sync_anchor_state_for_import_slot`: the genesis state at the import slot, set back by one. -/
def syncAnchorStateForImportSlot (live : State) (importSlot : Nat) :
    Traced Unit (Option State) :=
  let anchor := generateGenesis ssz live.config.genesisTime live.validators
  if importSlot > anchor.slot then do
    match ← tracedProcessSlots ssz importSlot anchor with
    | none => return none
    | some anchor =>
      return some (if importSlot > 0 then { anchor with slot := importSlot - 1 } else anchor)
  else return some anchor

/-- `parent_matches_sync_anchor`. -/
def parentMatchesSyncAnchor (live : State) (parentRoot : Bytes32) (oldestSlot : Nat) :
    Traced Unit Bool :=
  if parentRoot = Bytes32.zero then return true
  else do
    match ← syncAnchorStateForImportSlot ssz live oldestSlot with
    | none => return false
    | some anchor => return anchor.latestBlockHeader.hashTreeRoot ssz = parentRoot

/-- The test of the handler: no parent, a stored one, or the anchor. -/
def parentKnownOrAnchor (live : State) (store : FileStore) (block : Block) : Traced Unit Bool :=
  if block.parentRoot = Bytes32.zero ∨ (store.getBlock block.parentRoot).isSome then return true
  else parentMatchesSyncAnchor ssz live block.parentRoot block.slot

/-- The state `import_backfill_chain` starts its replay from. -/
def replayStart (live : State) (store : FileStore) (oldest : Block) : Traced Unit State := do
  let derived ← syncAnchorStateForImportSlot ssz live oldest.slot
  let anchor := derived.getD (generateGenesis ssz live.config.genesisTime live.validators)
  if oldest.parentRoot = Bytes32.zero then return anchor
  match store.getBlock oldest.parentRoot with
  | none => return anchor
  | some _ => return (store.getState oldest.parentRoot).getD anchor

end Anchor

/-- Where a `BlocksByRoot` response leads. -/
inductive BlocksByRootStep where
  /-- No root is pending, the payload does not decode, or the block is not the one asked for. -/
  | ignored
  | panicked (text : String)
  /-- The chain is longer than `MAX_BACKFILL_DEPTH`. -/
  | aborted
  /-- The block asked for by its root; its parent is asked for next. -/
  | fetchParent (targetRoot : Bytes32) (signed : SignedBlockWithAttestation)
  /-- The block's turn in the import, with the state of the replay. -/
  | importTurn (targetRoot : Bytes32) (signed : SignedBlockWithAttestation) (replayState : State)

/-- The `BlocksByRootV1` arm of `spawn_status_sync_task`, up to the block's turn in the import. -/
def receiveBlocksByRoot (codec : SszCodec) (live : State) (store : FileStore)
    (pending : PendingBackfill) (payload : List Byte) : Traced Unit BlocksByRootStep :=
  match pending.pendingRoot with
  | none => return .ignored
  | some targetRoot =>
    match LeanResponseMessage.decodeSsz codec .blocksByRootV1 payload with
    | .error (.panicked text) => return .panicked text
    | .ok (.blocksByRoot signed) => do
      let block := signed.message.block
      if block.hashTreeRoot codec.toSsz ≠ targetRoot then return .ignored
      if pending.fetchedChainNewestToOldest.length + 1 > maxBackfillDepth then return .aborted
      if ← parentKnownOrAnchor codec.toSsz live store block then
        -- The block just received is the oldest of the chain, and the import takes that one first.
        let replayState ← replayStart codec.toSsz live store block
        return .importTurn targetRoot signed replayState
      else return .fetchParent targetRoot signed
    | _ => return .ignored

end Peam
