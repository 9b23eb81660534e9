import Peam.Encode
import Peam.Production
import Peam.Sync

/-!
# The request handler and the node it answers for

`StoreReqRespHandler` of `src/networking/reqresp_handler.rs` answers from the live state and the
store as it finds them. The status takes its roots from the store and its finalized slot from the
live state, while `build_local_status`, which the sync task sends out, reads the live state alone.

What comes between two answers is an import: of a gossiped block, of a block of the node's own, of a
fetched chain or of a streamed range. Each import holds the locks of state and store to its end;
other tasks change neither. The log line of an anchor status is left out.
-/

namespace Peam

open Calls (Outcome)

/-- `StoreReqRespHandler`, with what is behind its two locks. -/
structure StoreReqRespHandler where
  state : State
  store : FileStore

namespace StoreReqRespHandler

variable (ssz : Ssz)

/-- The head a status names: the store's, if its block is there. -/
def statusHead (handler : StoreReqRespHandler) : Bytes32 × Nat :=
  (handler.store.live.head.bind fun root =>
    (handler.store.getBlock root).map fun block => (root, block.slot)).getD
      (handler.state.latestBlockHeader.hashTreeRoot ssz, handler.state.slot)

/-- `build_status`. -/
def buildStatus (handler : StoreReqRespHandler) : Status where
  finalizedRoot := handler.store.live.finalized.getD handler.state.latestFinalized.root
  finalizedSlot := handler.state.latestFinalized.slot
  headRoot := (handler.statusHead ssz).1
  headSlot := (handler.statusHead ssz).2

variable (codec : SszEncoder) (digest : List Packed.Byte → Bytes32)

/-- The loop of a `BlocksByRange` request over the offsets. It ends when a slot leaves the range of
`u64`, and passes over the slots it finds nothing for. A block is read from its bytes, where the
decoder may panic. -/
def rangeLoop (store : FileStore) (startSlot step : Nat) :
    List Nat → Outcome (List SignedBlockWithAttestation)
  | [] => .ok []
  | offset :: rest =>
    if offset * step ≥ 2 ^ 64 ∨ startSlot + offset * step ≥ 2 ^ 64 then .ok []
    else
      match store.getBlockBySlot (startSlot + offset * step) with
      | none => rangeLoop store startSlot step rest
      | some block => do
        let found ← store.readSignedBlock codec digest (block.hashTreeRoot codec.toSsz)
        let others ← rangeLoop store startSlot step rest
        .ok (found.toList ++ others)

/-- The blocks of a `BlocksByRange` request. -/
def blocksByRange (store : FileStore) (request : BlocksByRangeRequest) :
    Outcome (List SignedBlockWithAttestation) :=
  rangeLoop codec digest store request.startSlot (max request.step 1)
    (List.range (min request.count maxBlocksPerRequest))

/-- The blocks of a `BlocksByRoot` request. -/
def blocksByRoot (store : FileStore) (roots : SszList Bytes32 maxBlocksPerRootRequest) :
    Outcome (List SignedBlockWithAttestation) := do
  let found ← (roots.items.take maxBlocksPerRootRequest).mapM (store.readSignedBlock codec digest)
  .ok found.reduceOption

/-- `on_request`. -/
def onRequest (handler : StoreReqRespHandler) :
    LeanRequestMessage → Outcome (List LeanResponseMessage)
  | .status _ => .ok [.status (handler.buildStatus codec.toSsz)]
  | .blocksByRange request => do
    let blocks ← blocksByRange codec digest handler.store request
    .ok (blocks.map .blocksByRange)
  | .blocksByRoot roots => do
    let blocks ← blocksByRoot codec digest handler.store roots
    .ok (blocks.map .blocksByRoot)

end StoreReqRespHandler

namespace ProducerCells

/-- What a request is answered from. -/
def handler (cells : ProducerCells) : StoreReqRespHandler := ⟨cells.live, cells.store⟩

/-- The cells an import of a fetched chain works on. -/
def views (cells : ProducerCells) : Views := ⟨cells.live, cells.store, cells.forkChoice⟩

def withViews (cells : ProducerCells) (views : Views) : ProducerCells :=
  { cells with live := views.live, store := views.store, forkChoice := views.forkChoice }

end ProducerCells

/-- What happens to the cells of a node, one import at a time. -/
inductive NodeImport where
  | gossip (signed : SignedBlockWithAttestation)
  /-- A pass of the production task, with the clock it reads. -/
  | produce (now : Option Nat)
  | backfill (fetchedNewestToOldest : List SignedBlockWithAttestation)
  | range (fetchedOldestToNewest : List SignedBlockWithAttestation)
  /-- Other tasks are at work. -/
  | others (forkChoice : Option ForkChoiceStore) (pending : List PendingBlockAttestation)

namespace NodeImport

variable (ssz : Ssz) (verifier : SignatureVerifier)
  (order : List Attestation → List Attestation) {K : Type} (node : SigningNode K)

/-- A node after its start. -/
def start (state : State) : Outcome ProducerCells := do
  let (store, live, forkChoice) ← seedAnchorStoreAndForkChoice ssz FileStore.fresh state
  return { live, store, forkChoice := some forkChoice, pending := [] }

def apply (cells : ProducerCells) : NodeImport → Calls.Attempt ProducerCells
  | .gossip signed => return cells.handleGossipBlock ssz verifier signed
  | .produce now => return (cells.pass ssz order node now).2
  | .backfill fetched => do
    let (_, views) ← importBackfillChain ssz verifier cells.views fetched
    return cells.withViews views
  | .range fetched => do
    let (_, views) ← importStreamedRangeChain ssz verifier cells.views fetched
    return cells.withViews views
  | .others forkChoice pending => return { cells with forkChoice, pending }

/-- A run of imports. -/
def run : List NodeImport → ProducerCells → Calls.Attempt ProducerCells
  | [], cells => return cells
  | step :: rest, cells => do
    let next ← apply ssz verifier order node cells step
    run rest next

end NodeImport

end Peam
