import Peam.CheckpointSync
import Peam.Import

/-!
# The store under a node

The calls on a `FileStore` that can move its finalized checkpoint, each with the state the node
makes it with. A gossiped or local block is put with the live state. A backfill puts its blocks with
a state of its own, the replay, and the live state takes over the replay when the backfill is
through; an early return drops it. A streamed range is put with the live state itself.

Blocks are put under their own roots. A call that fails leaves everything as it was.
-/

namespace Peam

open Calls (Outcome)

/-- A store with the states a node puts blocks with. -/
structure NodeStore where
  store : FileStore
  live : State
  /-- The state of the running backfill, once it has put a block. -/
  replay : Option State

inductive NodeCall where
  /-- `seed_anchor_store_and_fork_choice`: the state it leaves becomes the live one. -/
  | seed (state : State)
  | setFinalized (root : Bytes32)
  | setFinalizedCheckpoint (checkpoint : Checkpoint)
  /-- `put_signed_block`, for a gossiped block. -/
  | putSignedBlock (signed : SignedBlockWithAttestation)
  /-- `put_prevalidated_signed_block_with_metrics`, for a local block. -/
  | putPrevalidatedSignedBlock (signed : SignedBlockWithAttestation) (postState : State)
  /-- `put_backfill_signed_block` in `import_backfill_chain`, which starts its replay from
  `start`. -/
  | putBackfillSignedBlock (signed : SignedBlockWithAttestation) (start : State)
  /-- `import_backfill_chain` comes to its end. -/
  | mergeReplay
  /-- `import_backfill_chain` returns early. -/
  | dropReplay
  /-- `put_backfill_signed_block` in `import_streamed_range_chain`. -/
  | putRangeSignedBlock (signed : SignedBlockWithAttestation)

namespace NodeStore

/-- A node before its first call. -/
def initial (live : State) : NodeStore := ⟨FileStore.fresh, live, none⟩

variable (ssz : Ssz) (verifier : SignatureVerifier)

/-- The node after a put with the live state. -/
def afterPut (node : NodeStore) : Outcome (FileStore × State) → NodeStore
  | .error _ => node
  | .ok (store, live) => { node with store, live }

/-- The node after a call. -/
def call (node : NodeStore) : NodeCall → NodeStore
  | .seed state =>
    match seedAnchorStoreAndForkChoice ssz node.store state with
    | .error _ => node
    | .ok (store, live, _) => ⟨store, live, none⟩
  | .setFinalized root => { node with store := node.store.setFinalized root }
  | .setFinalizedCheckpoint checkpoint =>
    { node with store := node.store.setFinalizedCheckpoint checkpoint }
  | .putSignedBlock signed =>
    node.afterPut (node.store.putSignedBlockInner ssz verifier
      (signed.message.block.hashTreeRoot ssz) signed node.live)
  | .putPrevalidatedSignedBlock signed postState =>
    node.afterPut (node.store.putPrevalidatedSignedBlock ssz
      (signed.message.block.hashTreeRoot ssz) signed node.live postState)
  | .putBackfillSignedBlock signed start =>
    match node.store.putBackfillSignedBlock ssz verifier (signed.message.block.hashTreeRoot ssz)
      signed (node.replay.getD start) with
    | .error _ => node
    | .ok (store, replay) => { node with store, replay := some replay }
  | .mergeReplay =>
    match node.replay with
    | none => node
    | some replay => { node with live := Peam.mergeReplay ssz node.live replay, replay := none }
  | .dropReplay => { node with replay := none }
  | .putRangeSignedBlock signed =>
    node.afterPut (node.store.putBackfillSignedBlock ssz verifier
      (signed.message.block.hashTreeRoot ssz) signed node.live)

/-- The node after a run. -/
def run (node : NodeStore) (calls : List NodeCall) : NodeStore :=
  calls.foldl (fun node call => node.call ssz verifier call) node

end NodeStore

end Peam
