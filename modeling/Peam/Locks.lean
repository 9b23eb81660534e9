import Peam.Lib.Locking
import Peam.Types

/-!
# The locks of the node

Every place of `src/node/`, `src/networking/` and `src/metrics.rs` that takes the `RwLock` on the
live state, the store or the fork choice once the tasks run. A *pass* is one such place from its
first lock to its last release. Data decides only which branch a pass takes, so a pass carries its
branch decisions, in any combination.

Two more locks are nested inside the three: the pending attestations, which a gossip import appends
to, and the recent roots of the gossip context. The buffer of deferred gossip is locked around them:
the retry task holds it while it checks each message against the context.
-/

namespace Peam

open Locking

inductive Lock where
  | deferredGossip
  | state
  | store
  | forkChoice
  | pendingAttestations
  | recentRoots
  deriving DecidableEq

/-- One attempt of block production: whether the pre-state was in the store, whether a block came
out, and whether its import succeeded. -/
structure Attempt where
  stored : Bool
  built : Bool
  imported : Bool
  deriving DecidableEq

/-- A question of `validate_with_context` to its context. -/
inductive ContextQuery where
  /-- `finalized_slot`; also `current_slot`, where there is no slot clock. -/
  | slot
  /-- `knows_block_root`: found directly, found among the recent roots. -/
  | knowsBlockRoot (direct recent : Bool)
  deriving DecidableEq

inductive Pass where
  /-- `handle_gossip_event` on a block. -/
  | gossipBlock (imported : Bool)
  /-- `import_backfill_chain`; an empty chain returns first. -/
  | backfillImport (fetched : Bool)
  /-- `import_streamed_range_chain`. -/
  | rangeImport (fetched : Bool)
  /-- The parent check on a `BlocksByRoot` response, with what `get_block` finds. -/
  | parentCheck (parentRoot : Bytes32) (known : Bool)
  /-- One tick of `spawn_block_production_task`. -/
  | produce (attempts : List Attempt)
  /-- One tick of the fork-choice lifecycle task, and whether votes are put back. -/
  | lifecycle (unresolved : Bool)
  /-- `load_attestation_data`, with a fork choice or without. -/
  | loadAttestationData (initialized : Bool)
  /-- `proposal_head_from_pending`. -/
  | proposalHead
  /-- `build_local_status`, the registry checks at task start. -/
  | readState
  /-- `build_status`, and the finalized state over HTTP. -/
  | buildStatus
  /-- Blocks served by range or by root. -/
  | serveBlocks
  /-- `validate_with_context` on a gossiped message. -/
  | validate (queries : List ContextQuery)
  /-- `queue_deferred_unknown_root_gossip`. -/
  | deferGossip
  /-- One tick of `spawn_deferred_gossip_retry_task`, up to the imports of what is ready. -/
  | retryDeferred (queries : List ContextQuery)
  /-- The metrics page. -/
  | metrics
  /-- The fork choice and the justified checkpoint over HTTP. -/
  | readForkChoice

/-- `load_proposal_pre_state`: the store first, and the live state when it has no pre-state. -/
def loadProposalPreState (stored : Bool) : List (Op Lock) :=
  guarding .store .read [] ++ if stored then [] else guarding .state .read []

/-- The import of a block: the fork choice is taken only after the store accepted it. -/
def importBlock (imported : Bool) (body : List (Op Lock)) : List (Op Lock) :=
  guarding .state .write <| guarding .store .write <|
    if imported then guarding .forkChoice .write body else []

/-- The body of `for attempt in 0..2`. -/
def Attempt.ops (attempt : Attempt) : List (Op Lock) :=
  guarding .forkChoice .read [] ++ loadProposalPreState attempt.stored ++
    if attempt.built then importBlock attempt.imported [] else []

/-- The locks of `parent_matches_sync_anchor`. -/
def anchorCheck (parentRoot : Bytes32) : List (Op Lock) :=
  if parentRoot = Bytes32.zero then [] else guarding .state .read []

def ContextQuery.ops : ContextQuery → List (Op Lock)
  | .slot => guarding .state .read []
  | .knowsBlockRoot direct recent =>
    guarding .state .read (if direct then [] else guarding .recentRoots .write []) ++
      if direct || recent then [] else guarding .store .read []

def Pass.ops : Pass → List (Op Lock)
  | .gossipBlock imported =>
    importBlock imported (guarding .pendingAttestations .write [])
  | .backfillImport fetched => if fetched then importBlock true [] else []
  | .rangeImport fetched => if fetched then importBlock true [] else []
  | .parentCheck parentRoot known =>
    -- The store guard lives to the end of the condition, callee included.
    guarding .store .read <|
      if parentRoot = Bytes32.zero ∨ known then [] else anchorCheck parentRoot
  | .produce attempts =>
    guarding .state .read [] ++ (attempts.take 2).flatMap Attempt.ops
  | .lifecycle unresolved =>
    guarding .pendingAttestations .write [] ++ guarding .forkChoice .write [] ++
      if unresolved then guarding .pendingAttestations .write [] else []
  | .loadAttestationData initialized =>
    guarding .pendingAttestations .read [] ++ guarding .forkChoice .write [] ++
      if initialized then [] else guarding .state .read []
  | .proposalHead =>
    guarding .pendingAttestations .read [] ++ guarding .forkChoice .write []
  | .readState => guarding .state .read []
  | .buildStatus => guarding .state .read (guarding .store .read [])
  | .serveBlocks => guarding .store .read []
  | .validate queries => queries.flatMap ContextQuery.ops
  | .deferGossip => guarding .deferredGossip .write []
  | .retryDeferred queries =>
    -- one guard around the checks of all drained messages
    guarding .deferredGossip .write (queries.flatMap ContextQuery.ops)
  | .metrics => guarding .state .read (guarding .store .read (guarding .forkChoice .read []))
  | .readForkChoice => guarding .forkChoice .read []

end Peam
