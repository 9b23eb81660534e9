import Peam.Transition
import Peam.Lib.Forest

/-!
# Fork choice

`src/fork_choice.rs`: the block tree, the proto-array of weighted nodes over it, and the votes.

The end of the source's `while` loops depends on the tree. Each runs here under a bound above the
number of entries it can visit, and a function with one returns an `Option`: `none` would mean that
the loop does not end. The laws show that no operation on a reachable store is `none`, and that the
indices of `nodes` are in range; where one were not, the update would be skipped.

Weights are `i64` in the source and integers here: they count validators, whose number the bit
lists bound by `validatorRegistryLimit`. Log lines, counters of dropped votes and the read-only
accessors are left out.
-/

namespace Peam

open Calls (Outcome)
open Loops (Turn iterate)

/-- `JUSTIFICATION_LOOKBACK_SLOTS`. -/
def justificationLookbackSlots : Nat := 3

/-- A node of the arena; `parent`, `children` and `bestChild` are indices into it. -/
structure ProtoNode where
  root : Bytes32
  parent : Option Nat
  children : List Nat
  slot : Nat
  proposerIndex : Nat
  weight : Int
  bestChild : Option Nat
  deriving DecidableEq

/-- Votes: validator index to the root of the head voted for. -/
abbrev VoteMap := AList (fun _ : Nat => Bytes32)

structure ForkChoiceStore where
  head : Bytes32
  safeTarget : Bytes32
  headSlot : Nat
  latestJustified : Checkpoint
  previousJustified : Checkpoint
  latestFinalized : Checkpoint
  reorgsTotal : Nat
  validatorCount : Nat
  blocks : RapidHashMap SignedBlockWithAttestation
  states : RapidHashMap State
  parents : RapidHashMap Bytes32
  children : RapidHashMap (List Bytes32)
  nodes : List ProtoNode
  nodeIndices : RapidHashMap Nat
  latestVotes : VoteMap
  latestNewVotes : VoteMap

/-- Whether a vote counts at once or waits for `accept_new_votes`. -/
inductive VoteDisposition where
  | active
  | pending
  deriving DecidableEq

/-- `children.entry(parent).or_default().push(child)`. -/
def pushChild (children : RapidHashMap (List Bytes32)) (parent child : Bytes32) :
    RapidHashMap (List Bytes32) :=
  children.insert parent ((children.lookup parent).getD [] ++ [child])

/-! ## The arena -/

/-- A node as it enters the arena. -/
def ProtoNode.fresh (root : Bytes32) (parent : Option Nat) (slot proposerIndex : Nat) :
    ProtoNode where
  root
  parent
  children := []
  slot
  proposerIndex
  weight := 0
  bestChild := none

/-- `child_is_better`: more weight, or as much and a smaller root. -/
def childIsBetter (nodes : List ProtoNode) (candidate incumbent : Nat) : Bool :=
  match nodes[candidate]?, nodes[incumbent]? with
  | some candidate, some incumbent =>
    decide (candidate.weight > incumbent.weight ∨
      candidate.weight = incumbent.weight ∧ candidate.root < incumbent.root)
  | _, _ => false

/-- The scan of `recompute_best_child`. -/
def bestChildOf (nodes : List ProtoNode) (children : List Nat) : Option Nat :=
  Forests.pick (childIsBetter nodes) children

/-- `recompute_best_child`. -/
def recomputeBestChild (nodes : List ProtoNode) (parentIdx : Nat) : List ProtoNode :=
  nodes.modify parentIdx fun parent =>
    { parent with bestChild := bestChildOf nodes parent.children }

/-- Add `delta` to the weight of one node. -/
def addWeight (nodes : List ProtoNode) (idx : Nat) (delta : Int) : List ProtoNode :=
  nodes.modify idx fun node => { node with weight := node.weight + delta }

/-- One turn of `propagate_weight_from_index`. -/
def propagateTurn (delta : Int) :
    List ProtoNode × Nat → Turn (List ProtoNode × Nat) (List ProtoNode)
  | (nodes, idx) =>
    let nodes := addWeight nodes idx delta
    match (nodes[idx]?).bind (·.parent) with
    | some parentIdx => .again (recomputeBestChild nodes parentIdx, parentIdx)
    | none => .done nodes

/-- `propagate_weight_from_index`: add `delta` to a node and everything above it. -/
def propagateWeightFromIndex (nodes : List ProtoNode) (startIdx : Nat) (delta : Int) :
    Option (List ProtoNode) :=
  iterate (propagateTurn delta) (nodes.length + 1) (nodes, startIdx)

/-- The links `attach_child` sets. -/
def linkChild (nodes : List ProtoNode) (parentIdx childIdx : Nat) : List ProtoNode :=
  let nodes := nodes.modify childIdx fun child => { child with parent := some parentIdx }
  nodes.modify parentIdx fun parent =>
    if childIdx ∈ parent.children then parent
    else { parent with children := parent.children ++ [childIdx] }

/-- `attach_child`: a child that has a parent keeps it. -/
def attachChild (nodes : List ProtoNode) (parentIdx childIdx : Nat) : Option (List ProtoNode) :=
  match nodes[childIdx]? with
  | none => some nodes
  | some child =>
    if child.parent.isSome then some nodes
    else
      let nodes := recomputeBestChild (linkChild nodes parentIdx childIdx) parentIdx
      if child.weight ≠ 0 then propagateWeightFromIndex nodes parentIdx child.weight
      else some nodes

/-! ## Loops over parent links -/

/-- More turns than a walk over the parent links can take. -/
def parentFuel (parents : RapidHashMap Bytes32) : Nat := parents.entries.length + 2

/-- One turn of `is_descendant`. -/
def isDescendantTurn (parents : RapidHashMap Bytes32) (ancestor node : Bytes32) :
    Turn Bytes32 Bool :=
  match parents.lookup node with
  | none => .done false
  | some parent =>
    if parent = ancestor then .done true
    else if parent = Bytes32.zero then .done false
    else .again parent

/-- One turn of `head_change_is_reorg`. -/
def isReorgTurn (parents : RapidHashMap Bytes32) (oldHead node : Bytes32) : Turn Bytes32 Bool :=
  if node = oldHead then .done false
  else
    match parents.lookup node with
    | none => .done true
    | some parent => if parent = Bytes32.zero then .done true else .again parent

/-- One turn of `normalize_pruned_vote_root`. -/
def normalizeTurn (parents : RapidHashMap Bytes32) (root finalizedRoot cursor : Bytes32) :
    Turn Bytes32 (Option Bytes32) :=
  if cursor = root then .done (some finalizedRoot)
  else
    match parents.lookup cursor with
    | none => .done none
    | some parent => if parent = Bytes32.zero then .done none else .again parent

/-- `normalize_pruned_vote_root`: a kept vote stays, a vote for an ancestor of the finalized block
moves to that block, any other is dropped. -/
def normalizePrunedVoteRoot (root finalizedRoot : Bytes32) (keptRoots : List Bytes32)
    (oldParents : RapidHashMap Bytes32) : Option (Option Bytes32) :=
  if root ∈ keptRoots then some (some root)
  else
    iterate (normalizeTurn oldParents root finalizedRoot) (parentFuel oldParents) finalizedRoot

/-- The votes that survive a prune. -/
def normalizeVotes (votes : VoteMap) (finalizedRoot : Bytes32) (keptRoots : List Bytes32)
    (oldParents : RapidHashMap Bytes32) : Option VoteMap :=
  votes.entries.foldlM
    (fun kept vote =>
      (normalizePrunedVoteRoot vote.2 finalizedRoot keptRoots oldParents).map fun
        | some normalized => kept.insert vote.1 normalized
        | none => kept)
    ∅

namespace ForkChoiceStore

/-- `is_descendant`. -/
def isDescendant (store : ForkChoiceStore) (node ancestor : Bytes32) : Option Bool :=
  if node = ancestor then some true
  else iterate (isDescendantTurn store.parents ancestor) (parentFuel store.parents) node

/-- `head_change_is_reorg`. -/
def headChangeIsReorg (store : ForkChoiceStore) (oldHead newHead : Bytes32) : Option Bool :=
  if oldHead = newHead then some false
  else iterate (isReorgTurn store.parents oldHead) (parentFuel store.parents) newHead

/-- The slot of a stored block. -/
def blockSlot (store : ForkChoiceStore) (root : Bytes32) : Option Nat :=
  (store.blocks.lookup root).map (·.message.block.slot)

/-- `checkpoint_for_root`. -/
def checkpointForRoot (store : ForkChoiceStore) (root : Bytes32) : Option Checkpoint :=
  (store.blockSlot root).map fun slot => { root, slot }

/-! ## The head -/

/-- `find_head`: from the justified root, follow `best_child` to a leaf. -/
def findHead (store : ForkChoiceStore) : Option Bytes32 :=
  match store.nodeIndices.lookup store.latestJustified.root with
  | none => some store.head
  | some startIdx => do
    let leaf ← iterate
      (fun current =>
        match (store.nodes[current]?).bind (·.bestChild) with
        | some bestChild => .again bestChild
        | none => .done current)
      (store.nodes.length + 1) startIdx
    let node ← store.nodes[leaf]?
    return node.root

/-- `head` and `head_slot` move to a root that is stored. -/
def moveHead (store : ForkChoiceStore) (head : Bytes32) : ForkChoiceStore :=
  match store.blockSlot head with
  | some headSlot => { store with head, headSlot }
  | none => store

/-- `subtree_weight`. -/
def subtreeWeight (store : ForkChoiceStore) (root : Bytes32) : Nat :=
  ((store.nodeIndices.lookup root).bind (store.nodes[·]?)).elim 0 (·.weight.toNat)

/-- The scan of `refresh_safe_target` at one block. -/
def safeTargetStep (store : ForkChoiceStore) (anchorRoot : Bytes32) (best : Checkpoint)
    (root : Bytes32) (slot : Nat) : Option Checkpoint := do
  let below ← store.isDescendant root anchorRoot
  if ¬ below then return best
  if 3 * store.subtreeWeight root < 2 * store.validatorCount then return best
  if slot > best.slot ∨ slot = best.slot ∧ root < best.root then return ⟨root, slot⟩
  return best

/-- The block `refresh_safe_target` starts from. -/
def safeAnchor (store : ForkChoiceStore) : Bytes32 :=
  if store.latestFinalized.root ∈ store.blocks then store.latestFinalized.root
  else if store.latestJustified.root ∈ store.blocks then store.latestJustified.root
  else store.head

/-- `refresh_safe_target`: the highest block below the anchor that two thirds voted for. -/
def refreshSafeTarget (store : ForkChoiceStore) : Option ForkChoiceStore :=
  if store.validatorCount = 0 then some { store with safeTarget := store.head }
  else do
    let anchorRoot := store.safeAnchor
    let best ← store.blocks.entries.foldlM
      (fun best entry =>
        store.safeTargetStep anchorRoot best entry.1 entry.2.message.block.slot)
      ⟨anchorRoot, (store.blockSlot anchorRoot).getD store.headSlot⟩
    return { store with safeTarget := best.root }

/-- What follows a head change: count a reorg, refresh the safe target. -/
def settleHead (store : ForkChoiceStore) (oldHead : Bytes32) : Option ForkChoiceStore := do
  let reorg ← store.headChangeIsReorg oldHead store.head
  refreshSafeTarget
    { store with reorgsTotal := if reorg then store.reorgsTotal + 1 else store.reorgsTotal }

/-- `override_checkpoint_roots`: the roots change, the slots of the checkpoints do not. -/
def overrideCheckpointRoots (store : ForkChoiceStore) (anchorRoot : Bytes32) : ForkChoiceStore :=
  { store with
    latestJustified := { store.latestJustified with root := anchorRoot }
    latestFinalized := { store.latestFinalized with root := anchorRoot }
    previousJustified := { store.previousJustified with root := anchorRoot }
    safeTarget := anchorRoot
    head := anchorRoot
    headSlot := (store.blockSlot anchorRoot).getD store.headSlot }

/-! ## Votes -/

/-- `apply_vote_delta`. -/
def applyVoteDelta (store : ForkChoiceStore) (root : Bytes32) (delta : Int) :
    Option ForkChoiceStore :=
  match store.nodeIndices.lookup root with
  | none => some store
  | some nodeIdx => do
    let nodes ← propagateWeightFromIndex store.nodes nodeIdx delta
    return { store with nodes }

/-- `set_latest_vote`: the vote that comes last stands, whatever its slot. -/
def setLatestVote (store : ForkChoiceStore) (validatorId : Nat) (root : Bytes32) :
    Option ForkChoiceStore :=
  let previous := store.latestVotes.lookup validatorId
  let store := { store with latestVotes := store.latestVotes.insert validatorId root }
  if previous = some root then some store
  else do
    let store ←
      match previous with
      | some oldRoot => store.applyVoteDelta oldRoot (-1)
      | none => some store
    store.applyVoteDelta root 1

/-- `resolve_vote_root`: a vote is for its head, if that block is known. -/
def resolveVoteRoot (store : ForkChoiceStore) (attestation : Attestation) : Option Bytes32 :=
  if attestation.data.head.root ∈ store.blocks then some attestation.data.head.root else none

/-- `bitlist_indices`. -/
def bitlistIndices (bits : BitList validatorRegistryLimit) : List Nat := setBits bits

/-- `apply_attestation_votes`. The flag the source returns is whether the head is known. -/
def applyAttestationVotes (store : ForkChoiceStore) (attestation : Attestation)
    (disposition : VoteDisposition) : Option ForkChoiceStore :=
  match store.resolveVoteRoot attestation with
  | none => some store
  | some voteRoot =>
    match disposition with
    | .active =>
      (bitlistIndices attestation.aggregationBits).foldlM
        (fun store validatorId => store.setLatestVote validatorId voteRoot) store
    | .pending =>
      some
        { store with
          latestNewVotes :=
            (bitlistIndices attestation.aggregationBits).foldl
              (fun votes validatorId => votes.insert validatorId voteRoot) store.latestNewVotes }

/-- `on_attestation`. -/
def onAttestation (store : ForkChoiceStore) (attestation : Attestation) : Option ForkChoiceStore :=
  store.applyAttestationVotes attestation .pending

/-- `accept_new_votes`. -/
def acceptNewVotes (store : ForkChoiceStore) : Option ForkChoiceStore :=
  if store.latestNewVotes.entries.isEmpty then some store
  else do
    let pending := store.latestNewVotes.entries
    let store ← pending.foldlM (fun store vote => store.setLatestVote vote.1 vote.2)
      { store with latestNewVotes := ∅ }
    let head ← store.findHead
    (store.moveHead head).settleHead store.head

/-- `get_proposal_head`; the head it returns is that of the store it leaves. -/
def getProposalHead (store : ForkChoiceStore) : Option ForkChoiceStore := do
  let store ← store.acceptNewVotes
  let head ← store.findHead
  return store.moveHead head

/-- `get_proposal_head_with_pending`. -/
def getProposalHeadWithPending (store : ForkChoiceStore) (pendingVotes : List Attestation) :
    Option ForkChoiceStore := do
  let store ← pendingVotes.foldlM (fun store attestation =>
    store.applyAttestationVotes attestation .pending) store
  let store ← store.acceptNewVotes
  store.getProposalHead

/-! ## Nodes -/

/-- The parent side of `insert_proto_node`: a node whose parent is known is attached to it. -/
def attachParent (nodeIndices : RapidHashMap Nat) (nodes : List ProtoNode) (parentRoot : Bytes32)
    (nodeIdx : Nat) : Option (List ProtoNode) :=
  match nodeIndices.lookup parentRoot with
  | some parentIdx => attachChild nodes parentIdx nodeIdx
  | none => some nodes

/-- `attach_known_children`: blocks that arrived before their parent are attached to it. -/
def attachKnownChildren (children : RapidHashMap (List Bytes32)) (nodeIndices : RapidHashMap Nat)
    (nodes : List ProtoNode) (parentRoot : Bytes32) (parentIdx : Nat) :
    Option (List ProtoNode) :=
  ((children.lookup parentRoot).getD []).foldlM
    (fun nodes childRoot =>
      if childRoot = parentRoot then some nodes
      else
        match nodeIndices.lookup childRoot with
        | none => some nodes
        | some childIdx => attachChild nodes parentIdx childIdx)
    nodes

/-- `insert_proto_node`. -/
def insertProtoNode (store : ForkChoiceStore) (root parentRoot : Bytes32)
    (slot proposerIndex : Nat) : Option ForkChoiceStore :=
  if root ∈ store.nodeIndices then some store
  else do
    let nodeIdx := store.nodes.length
    let nodeIndices := store.nodeIndices.insert root nodeIdx
    let nodes := store.nodes ++ [ProtoNode.fresh root none slot proposerIndex]
    let nodes ← attachParent nodeIndices nodes parentRoot nodeIdx
    let nodes ← attachKnownChildren store.children nodeIndices nodes root nodeIdx
    return { store with nodes, nodeIndices }

/-! ## Pruning -/

/-- One turn of the scan for the blocks to keep: a work stack and the roots kept so far. -/
def keepTurn (store : ForkChoiceStore) :
    List Bytes32 × List Bytes32 → Turn (List Bytes32 × List Bytes32) (List Bytes32)
  | ([], kept) => .done kept
  | (root :: stack, kept) =>
    if root ∈ kept then .again (stack, kept)
    else
      let known := ((store.children.lookup root).getD []).filter (· ∈ store.blocks)
      .again (known.reverse ++ stack, root :: kept)

/-- More turns than a stack of child links can take. -/
def stackFuel (store : ForkChoiceStore) : Nat :=
  (store.children.entries.map (·.2.length)).sum + 2

/-- The blocks to keep: the finalized one and what is stored below it. -/
def keptRoots (store : ForkChoiceStore) (finalizedRoot : Bytes32) : Option (List Bytes32) :=
  iterate store.keepTurn store.stackFuel ([finalizedRoot], [])

/-- The store while its tree is taken apart. -/
def cleared (store : ForkChoiceStore) : ForkChoiceStore :=
  { store with
    blocks := ∅, states := ∅, parents := ∅, children := ∅, nodes := [], nodeIndices := ∅ }

/-- The node of a kept block, linked to its parent's node. -/
def addKeptNode (nodes : List ProtoNode) (root : Bytes32) (parentIdx : Option Nat)
    (slot proposerIndex : Nat) : List ProtoNode :=
  let idx := nodes.length
  let nodes := nodes ++ [ProtoNode.fresh root parentIdx slot proposerIndex]
  match parentIdx with
  | some parentIdx =>
    nodes.modify parentIdx fun parent => { parent with children := parent.children ++ [idx] }
  | none => nodes

/-- A kept block enters the new tree. -/
def addKept (store : ForkChoiceStore) (root : Bytes32) (parentIdx : Option Nat)
    (signed : SignedBlockWithAttestation) (state : State) : ForkChoiceStore :=
  let block := signed.message.block
  let store :=
    { store with
      nodeIndices := store.nodeIndices.insert root store.nodes.length
      blocks := store.blocks.insert root signed
      states := store.states.insert root state
      nodes := addKeptNode store.nodes root parentIdx block.slot block.proposerIndex }
  match parentIdx with
  | some parentIdx =>
    let parentRoot := (store.nodes[parentIdx]?).elim Bytes32.zero (·.root)
    { store with
      parents := store.parents.insert root parentRoot
      children := pushChild store.children parentRoot root }
  | none => { store with parents := store.parents.insert root Bytes32.zero }

/-- One turn of the rebuild: a work stack of roots with their parents' nodes, and the new tree. -/
def rebuildTurn (old : ForkChoiceStore) (kept : List Bytes32) :
    List (Bytes32 × Option Nat) × ForkChoiceStore →
      Turn (List (Bytes32 × Option Nat) × ForkChoiceStore) ForkChoiceStore
  | ([], store) => .done store
  | ((root, parentIdx) :: stack, store) =>
    if root ∈ store.nodeIndices then .again (stack, store)
    else
      match old.blocks.lookup root, old.states.lookup root with
      | some signed, some state =>
        let below := ((old.children.lookup root).getD []).filter (· ∈ kept)
        .again (below.map (·, some store.nodes.length) ++ stack,
          store.addKept root parentIdx signed state)
      | _, _ => .again (stack, store)

/-- The tree of the kept blocks, without weights. -/
def rebuild (store : ForkChoiceStore) (kept : List Bytes32) (finalizedRoot : Bytes32) :
    Option ForkChoiceStore := do
  let rebuilt ← iterate (store.rebuildTurn kept) store.stackFuel
    ([(finalizedRoot, none)], store.cleared)
  return { rebuilt with
    nodes := (List.range rebuilt.nodes.length).reverse.foldl recomputeBestChild rebuilt.nodes }

/-- Checkpoints and safe target after a prune: what is gone falls back to the finalized block. -/
def resetCheckpoints (store : ForkChoiceStore) : ForkChoiceStore :=
  let latestJustified :=
    if store.latestJustified.root ∈ store.nodeIndices then store.latestJustified
    else store.latestFinalized
  { store with
    latestJustified
    previousJustified :=
      if store.previousJustified.root ∈ store.nodeIndices then store.previousJustified
      else latestJustified
    safeTarget :=
      if store.safeTarget ∈ store.nodeIndices then store.safeTarget
      else store.latestFinalized.root }

/-- The head after a prune. -/
def resetHead (store : ForkChoiceStore) (head : Bytes32) : ForkChoiceStore :=
  if head ∈ store.nodeIndices then
    { store with head, headSlot := (store.blockSlot head).getD store.latestFinalized.slot }
  else
    { store with head := store.latestFinalized.root, headSlot := store.latestFinalized.slot }

/-- `prune_finalized_history`. -/
def pruneFinalizedHistory (store : ForkChoiceStore) : Option ForkChoiceStore :=
  let finalizedRoot := store.latestFinalized.root
  if finalizedRoot = Bytes32.zero ∨ finalizedRoot ∉ store.blocks then some store
  else do
    let kept ← store.keptRoots finalizedRoot
    let rebuilt ← store.rebuild kept finalizedRoot
    let latestVotes ← normalizeVotes store.latestVotes finalizedRoot kept store.parents
    let latestNewVotes ← normalizeVotes store.latestNewVotes finalizedRoot kept store.parents
    let voted ← (latestVotes.entries.map (·.2)).foldlM (fun store root => store.applyVoteDelta root 1)
      { rebuilt with latestVotes, latestNewVotes }
    let reset := voted.resetCheckpoints
    let head ← reset.findHead
    (reset.resetHead head).refreshSafeTarget

/-! ## Imports -/

section Imports

variable (ssz : Ssz)

/-- `state_matches_block_root`. -/
def stateMatchesBlockRoot (state : State) (expected : Bytes32) : Bool :=
  state.latestBlockHeader.stateRoot == expected || state.hashTreeRoot ssz == expected

/-- The store over one anchor block, before `override_checkpoint_roots`. -/
def anchored (anchorBlock : SignedBlockWithAttestation) (anchorState : State) :
    ForkChoiceStore :=
  let block := anchorBlock.message.block
  let root := block.hashTreeRoot ssz
  { head := root
    safeTarget := root
    headSlot := block.slot
    latestJustified := anchorState.latestJustified
    previousJustified := anchorState.latestJustified
    latestFinalized := anchorState.latestFinalized
    reorgsTotal := 0
    validatorCount := anchorState.validators.items.length
    blocks := AList.insert root anchorBlock ∅
    states := AList.insert root anchorState ∅
    parents := AList.insert root block.parentRoot ∅
    children := pushChild ∅ block.parentRoot root
    nodes := [ProtoNode.fresh root none block.slot block.proposerIndex]
    nodeIndices := AList.insert root 0 ∅
    latestVotes := ∅
    latestNewVotes := ∅ }

/-- `ForkChoiceStore::new`. -/
def new (anchorBlock : SignedBlockWithAttestation) (anchorState : State) :
    Outcome ForkChoiceStore :=
  let block := anchorBlock.message.block
  if stateMatchesBlockRoot ssz anchorState block.stateRoot then
    .ok ((anchored ssz anchorBlock anchorState).overrideCheckpointRoots (block.hashTreeRoot ssz))
  else .error (.err "anchor block state root does not match post-state invariants")

/-- The block enters the maps of the tree. -/
def recordBlock (store : ForkChoiceStore) (signed : SignedBlockWithAttestation)
    (postState : State) : ForkChoiceStore :=
  let block := signed.message.block
  let root := block.hashTreeRoot ssz
  { store with
    blocks := store.blocks.insert root signed
    states := store.states.insert root postState
    parents := store.parents.insert root block.parentRoot
    children := pushChild store.children block.parentRoot root }

/-- The votes a block brings: its body's, and its proposer's own unless this is a preview. -/
def blockVotes (signed : SignedBlockWithAttestation) (includeProposerAttestation : Bool) :
    List Attestation :=
  signed.message.block.body.attestations.items ++
    if includeProposerAttestation then [signed.message.proposerAttestation] else []

/-- The checkpoints only move forward, whichever branch the post-state is on. -/
def adoptCheckpoints (store : ForkChoiceStore) (postState : State) : ForkChoiceStore :=
  let store :=
    if postState.latestJustified.slot > store.latestJustified.slot then
      { store with
        previousJustified := store.latestJustified, latestJustified := postState.latestJustified }
    else store
  if postState.latestFinalized.slot > store.latestFinalized.slot then
    { store with latestFinalized := postState.latestFinalized }
  else store

/-- The head after an import: the block itself, if the head found is not stored and it is higher. -/
def importHead (store : ForkChoiceStore) (head root : Bytes32) (slot : Nat) : ForkChoiceStore :=
  if (store.blockSlot head).isSome then store.moveHead head
  else if slot > store.headSlot then { store with head := root, headSlot := slot }
  else store

/-- `import_block_internal` once the post-state is known to match. -/
def importMatching (store : ForkChoiceStore) (signed : SignedBlockWithAttestation)
    (postState : State) (includeProposerAttestation : Bool) : Option ForkChoiceStore := do
  let block := signed.message.block
  let root := block.hashTreeRoot ssz
  let store ← (store.recordBlock ssz signed postState).insertProtoNode root block.parentRoot
    block.slot block.proposerIndex
  let store ← (blockVotes signed includeProposerAttestation).foldlM
    (fun store attestation => store.applyAttestationVotes attestation .active) store
  let finalizedAdvanced : Bool := postState.latestFinalized.slot > store.latestFinalized.slot
  let store := store.adoptCheckpoints postState
  let store ← if finalizedAdvanced then store.pruneFinalizedHistory else some store
  let head ← store.findHead
  (store.importHead head root block.slot).settleHead store.head

/-- `import_block_internal`. -/
def importBlockInternal (store : ForkChoiceStore) (signed : SignedBlockWithAttestation)
    (postState : State) (includeProposerAttestation : Bool) :
    Option (Outcome ForkChoiceStore) :=
  if stateMatchesBlockRoot ssz postState signed.message.block.stateRoot then
    (store.importMatching ssz signed postState includeProposerAttestation).map .ok
  else some (.error (.err "post-state root does not match block.state_root invariants"))

/-- `on_block`. -/
def onBlock (store : ForkChoiceStore) (signed : SignedBlockWithAttestation) (postState : State) :
    Option (Outcome ForkChoiceStore) :=
  store.importBlockInternal ssz signed postState true

end Imports

/-! ## The attestation target -/

/-- The first walk of `attestation_target`: at most `steps` parents back while above the safe
slot. -/
def lookback (store : ForkChoiceStore) (safeSlot : Nat) : Nat → Bytes32 → Option Bytes32
  | 0, targetRoot => some targetRoot
  | steps + 1, targetRoot => do
    let targetSlot ← store.blockSlot targetRoot
    if targetSlot ≤ safeSlot then return targetRoot
    let parent ← store.parents.lookup targetRoot
    if parent = Bytes32.zero then return targetRoot
    store.lookback safeSlot steps parent

/-- One turn of the second walk: back to a slot that may be justified. -/
def justifiableTurn (store : ForkChoiceStore) (finalizedSlot : Nat) (targetRoot : Bytes32) :
    Turn Bytes32 (Option Bytes32) :=
  match store.blockSlot targetRoot with
  | none => .done none
  | some targetSlot =>
    match isJustifiableAfter targetSlot finalizedSlot with
    | .error _ => .done none
    | .ok true => .done (some targetRoot)
    | .ok false =>
      match store.parents.lookup targetRoot with
      | none => .done none
      | some parent => if parent = Bytes32.zero then .done (some targetRoot) else .again parent

/-- `attestation_target`; the outer `Option` is that of the loop. -/
def attestationTarget (store : ForkChoiceStore) (finalizedSlot : Nat) :
    Option (Option Checkpoint) :=
  let safeSlot := (store.blockSlot store.safeTarget).getD store.headSlot
  match store.lookback safeSlot justificationLookbackSlots store.head with
  | none => some none
  | some targetRoot => do
    let found ← iterate (store.justifiableTurn finalizedSlot) (parentFuel store.parents) targetRoot
    return found.bind fun targetRoot =>
      (store.checkpointForRoot targetRoot).map fun target =>
        if target.slot < store.latestJustified.slot then store.latestJustified else target

end ForkChoiceStore

/-! ## Calls -/

/-- A call the node makes on its store. -/
inductive Event where
  | block (signed : SignedBlockWithAttestation) (postState : State)
  | attestation (attestation : Attestation)
  | accept
  | propose
  | proposeWith (pendingVotes : List Attestation)

/-- The store a call leaves; a refused block leaves it as it was. -/
def ForkChoiceStore.handle (ssz : Ssz) (store : ForkChoiceStore) : Event → Option ForkChoiceStore
  | .block signed postState =>
    (store.onBlock ssz signed postState).map fun
      | .ok next => next
      | .error _ => store
  | .attestation attestation => store.onAttestation attestation
  | .accept => store.acceptNewVotes
  | .propose => store.getProposalHead
  | .proposeWith pendingVotes => store.getProposalHeadWithPending pendingVotes

end Peam
