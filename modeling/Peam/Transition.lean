import Peam.Votes
import Peam.Window

/-!
# The state transition

`src/containers/state.rs`, from slot processing to the import of a signed block. Each function on
`&mut self` is a `Mutation`, so an early return leaves behind what was written before it; the import
itself works on a copy.

The loop of `process_attestations` carries the state, the unpacked votes once an eligible
attestation has asked for them, and the finalized slot in force. `AttestationLoop` is that triple
and `attestationStep` one pass of the body: the checks in source order (`isEligible`), the tally
(`recordVote`), the justification and the finalization.

Log lines and metrics are left out.
-/

namespace Peam

open Calls (Outcome Mutation)

variable (ssz : Ssz)

/-! ## Slots -/

/-- One pass of the loop of `process_slots`. -/
def processSlot (state : State) : State :=
  let state :=
    if state.latestBlockHeader.stateRoot = Bytes32.zero then
      { state with
        latestBlockHeader :=
          { state.latestBlockHeader with stateRoot := state.hashTreeRoot ssz } }
    else state
  { state with slot := state.slot + 1 }

/-- The loop of `process_slots`, for the number of slots still to go. -/
def processSlotLoop : Nat → State → State
  | 0, state => state
  | remaining + 1, state => processSlotLoop remaining (processSlot ssz state)

/-- `process_slots`. -/
def processSlots (targetSlot : Nat) : Mutation State Unit := fun state =>
  if state.slot ≥ targetSlot then .error (.err "target slot must be in the future") state
  else .ok () (processSlotLoop ssz (targetSlot - state.slot) state)

/-- `process_slots` where the target lies ahead, which is where it cannot fail. -/
def advanceTo (slot : Nat) (state : State) : State :=
  if state.slot < slot then processSlotLoop ssz (slot - state.slot) state else state

/-- The root of the latest header, as the block of a slot will name its parent. -/
def headRootAt (slot : Nat) (state : State) : Bytes32 :=
  (advanceTo ssz slot state).latestBlockHeader.hashTreeRoot ssz

/-! ## The header -/

/-- The checkpoint seeding of the first header after genesis. -/
def seedCheckpoints (parentRoot : Bytes32) (state : State) : State :=
  if state.latestBlockHeader.slot = 0 then
    { state with
      latestJustified := { state.latestJustified with root := parentRoot }
      latestFinalized := { state.latestFinalized with root := parentRoot } }
  else state

/-- The history part of the header: the parent root, then a zero root for each empty slot. -/
def appendHistory (parentRoot : Bytes32) (numEmptySlots : Nat) : Mutation State Unit := do
  let state ← get
  let pushed ← Mutation.lift (state.historicalBlockHashes.push ssz parentRoot)
  modify fun state => { state with historicalBlockHashes := pushed }
  if numEmptySlots > 0 then
    let extended ← Mutation.lift (pushed.extendCopy ssz numEmptySlots Bytes32.zero)
    modify fun state => { state with historicalBlockHashes := extended }

/-- A header as it is staged while its block is in flight: with a zero state root. -/
def BlockHeader.staged (header : BlockHeader) : BlockHeader :=
  { header with stateRoot := Bytes32.zero }

@[simp] theorem BlockHeader.staged_slot (header : BlockHeader) :
    header.staged.slot = header.slot := rfl

@[simp] theorem BlockHeader.staged_staged (header : BlockHeader) :
    header.staged.staged = header.staged := rfl

theorem BlockHeader.staged_eq {header : BlockHeader} (h : header.stateRoot = Bytes32.zero) :
    header.staged = header := by
  rw [BlockHeader.staged, ← h]

/-- Cover the slots before the block and stage its header. -/
def stageHeader (block : BlockHeader) (state : State) : State :=
  { state with
    justifiedSlots :=
      extendJustifiedSlots state.justifiedSlots state.latestFinalized.slot block.slot
    latestBlockHeader := block.staged }

/-- `process_block_header_assuming_slot`. -/
def processBlockHeaderAssumingSlot (block : BlockHeader) : Mutation State Unit := do
  let state ← get
  Mutation.failIf (block.slot ≤ state.latestBlockHeader.slot)
    "block slot not greater than latest header slot"
  Mutation.failIf (¬ isProposerFor block.proposerIndex state.slot state.validators.items.length)
    "block proposer index does not match expected proposer"
  Mutation.failIf (block.parentRoot ≠ state.latestBlockHeader.hashTreeRoot ssz)
    "block parent root does not match latest header root"
  modify (seedCheckpoints block.parentRoot)
  appendHistory ssz block.parentRoot (block.slot - state.latestBlockHeader.slot - 1)
  modify (stageHeader block)

/-- `process_block_header`. -/
def processBlockHeader (block : BlockHeader) : Mutation State Unit := do
  let state ← get
  Mutation.failIf (block.slot ≠ state.slot)
    "block slot does not match state slot"
  processBlockHeaderAssumingSlot ssz block

/-! ## Attestations -/

/-- `build_historical_root_slots`, from slot `slotIdx` on. A later slot overwrites. -/
def buildHistoricalRootSlots : Nat → List Bytes32 → RapidHashMap Nat → RapidHashMap Nat
  | _, [], out => out
  | slotIdx, root :: rest, out =>
    buildHistoricalRootSlots (slotIdx + 1) rest
      (if root ≠ Bytes32.zero then out.insert root slotIdx else out)

/-- `root_to_slot`: the history, and the staged header if its root is new. -/
def rootToSlot (state : State) : RapidHashMap Nat :=
  let map := buildHistoricalRootSlots 0 state.historicalBlockHashes.items ∅
  let latestRoot := state.latestBlockHeader.hashTreeRoot ssz
  if latestRoot ≠ Bytes32.zero ∧ latestRoot ∉ map then
    map.insert latestRoot state.latestBlockHeader.slot
  else map

/-- What the loop carries from one attestation to the next, over a registry of `n` validators. -/
structure AttestationLoop (n : Nat) where
  state : State
  votes : Option (RapidHashMap (Tally n))
  finalizedSlot : Nat

/-- The source checkpoint is the history's. -/
def sourceMatches (state : State) (data : AttestationData) : Bool :=
  state.historicalBlockHashes.items[data.source.slot]? = some data.source.root

/-- The target checkpoint is the history's, or the header staged right now. -/
def targetMatches (latestRoot : Bytes32) (state : State) (data : AttestationData) : Bool :=
  state.historicalBlockHashes.items[data.target.slot]? = some data.target.root ∨
    (data.target.slot = state.historicalBlockHashes.items.length ∧
      data.target.slot = state.latestBlockHeader.slot ∧ data.target.root = latestRoot)

/-- The checks of the loop body, in source order. `.ok false` is a skipped attestation; the `?` on
the justifiability rule makes a target below the finalized slot an error. -/
def isEligible (latestRoot : Bytes32) (state : State) (finalizedSlot : Nat)
    (data : AttestationData) : Outcome Bool := do
  if data.target.slot ≤ data.source.slot then return false
  if data.source.root = Bytes32.zero ∨ data.target.root = Bytes32.zero then return false
  if ¬ sourceMatches state data then return false
  if ¬ targetMatches latestRoot state data then return false
  if ¬ (← isJustifiableAfter data.target.slot finalizedSlot) then return false
  if isSlotJustified state.justifiedSlots finalizedSlot data.target.slot then return false
  if ¬ isSlotJustified state.justifiedSlots finalizedSlot data.source.slot then return false
  return true

namespace AttestationLoop

variable {n : Nat}

/-- `get_or_insert_with(decode_justification_votes)`. -/
def votesMap (loop : AttestationLoop n) : RapidHashMap (Tally n) :=
  loop.votes.getD (decodeJustificationVotes loop.state n)

/-- The target's tally with the attestation's participants merged in. -/
def mergedTally (loop : AttestationLoop n) (att : Attestation) : Tally n :=
  ((loop.votesMap.lookup att.data.target.root).getD (Tally.new n)).merge att.aggregationBits

/-- The vote is tallied under the target's root. -/
def recordVote (loop : AttestationLoop n) (att : Attestation) : AttestationLoop n :=
  { loop with
    votes := some (loop.votesMap.insert att.data.target.root (loop.mergedTally att)) }

/-- The target becomes the latest justified checkpoint. -/
def setLatestJustified (loop : AttestationLoop n) (target : Checkpoint) : AttestationLoop n :=
  { loop with state := { loop.state with latestJustified := target } }

/-- The target's bit is set and its tally dropped. -/
def closeTarget (loop : AttestationLoop n) (target : Checkpoint) (window : JustifiedSlots) :
    AttestationLoop n :=
  { loop with
    state := { loop.state with justifiedSlots := window }
    votes := some (loop.votesMap.erase target.root) }

/-- The source becomes finalized: the window moves and old tallies are dropped. -/
def finalizeSource (loop : AttestationLoop n) (slots : RapidHashMap Nat) (source : Checkpoint) :
    AttestationLoop n :=
  { state :=
      { loop.state with
        latestFinalized := source
        justifiedSlots := shiftJustifiedWindow loop.state.justifiedSlots
          (subU64 source.slot loop.state.latestFinalized.slot) }
    finalizedSlot := source.slot
    votes := some (loop.votesMap.retain fun root =>
      match slots.lookup root with
      | some slot => decide (slot > source.slot)
      | none => false) }

/-- `missing_root_to_slot`: some pending root is unknown to the history. -/
def missingRoot (loop : AttestationLoop n) (slots : RapidHashMap Nat) : Bool :=
  loop.votesMap.keys.any fun root => (slots.lookup root).isNone

end AttestationLoop

/-- The end of the loop body, once the target has its supermajority. -/
def justifyTarget {n : Nat} (slots : RapidHashMap Nat) (data : AttestationData) :
    Mutation (AttestationLoop n) Unit := fun loop =>
  let loop := loop.setLatestJustified data.target
  match setJustifiedSlot loop.state.justifiedSlots loop.finalizedSlot data.target.slot with
  | .error e => .error e loop
  | .ok window =>
    let closed := loop.closeTarget data.target window
    if isNextValidJustifiableSlot data.source.slot data.target.slot loop.finalizedSlot then
      let moved := closed.finalizeSource slots data.source
      if closed.missingRoot slots then
        .error (.err "justification root missing from root_to_slot") moved
      else .ok () moved
    else .ok () closed

/-- One pass of the loop of `process_attestations`. -/
def attestationStep {n : Nat} (latestRoot : Bytes32) (slots : RapidHashMap Nat)
    (att : Attestation) : Mutation (AttestationLoop n) Unit := fun loop =>
  match isEligible latestRoot loop.state loop.finalizedSlot att.data with
  | .error e => .error e loop
  | .ok false => .ok () loop
  | .ok true =>
    if 3 * (loop.mergedTally att).count < 2 * n then .ok () (loop.recordVote att)
    else justifyTarget slots att.data (loop.recordVote att)

/-- The loop of `process_attestations`. -/
def attestationLoop {n : Nat} (latestRoot : Bytes32) (slots : RapidHashMap Nat)
    (attestations : List Attestation) : Mutation (AttestationLoop n) Unit :=
  forM attestations (attestationStep latestRoot slots)

/-- The loop's starting point. -/
def AttestationLoop.start (state : State) : AttestationLoop state.validators.items.length :=
  { state, votes := none, finalizedSlot := state.latestFinalized.slot }

/-- `process_attestations`. -/
def processAttestations (attestations : List Attestation) : Mutation State Unit := fun state =>
  if state.validators.items.length = 0 then .ok () state
  else if state.justificationsRoots.items.any (· = Bytes32.zero) then
    .error (.err "zero hash is not allowed in justifications roots") state
  else
    let latestRoot := state.latestBlockHeader.hashTreeRoot ssz
    match attestationLoop latestRoot (rootToSlot ssz state) attestations
      (AttestationLoop.start state) with
    | .error e loop => .error e loop.state
    | .ok () loop =>
      match loop.votes with
      | none => .ok () loop.state
      | some votes => encodeJustificationVotes ssz votes loop.state

/-! ## Blocks -/

/-- `process_block_body`. -/
def processBlockBody (body : BlockBody) (expectedRoot : Bytes32) : Mutation State Unit := do
  Mutation.failIf (expectedRoot ≠ body.hashTreeRoot ssz)
    "block body root does not match header"
  processAttestations ssz body.attestations.items

/-- The last step of the transition: the computed root must be the block's, and is written back
into the header. -/
def sealBlock (block : Block) : Mutation State Unit := do
  let state ← get
  let computedRoot := state.hashTreeRoot ssz
  Mutation.failIf (computedRoot ≠ block.stateRoot)
    "block state root does not match computed state root"
  set { state with
    latestBlockHeader := { state.latestBlockHeader with stateRoot := computedRoot } }

/-- `state_transition_inner`. -/
def stateTransitionInner (block : Block) : Mutation State Unit := do
  processSlots ssz block.slot
  processBlockHeaderAssumingSlot ssz (block.header ssz)
  processBlockBody ssz block.body (block.header ssz).bodyRoot
  sealBlock ssz block

/-- A `SignatureVerifier`. -/
abbrev SignatureVerifier := SignedBlockWithAttestation → State → Outcome Unit

/-- `NoopSignatureVerifier`: every block passes. -/
def noopSignatureVerifier : SignatureVerifier := fun _ _ => .ok ()

/-- `process_signed_block_with_verifier`: the transition runs on a copy, so a rejected block leaves
the live state alone. -/
def processSignedBlock (verifier : SignatureVerifier) (signed : SignedBlockWithAttestation) :
    Mutation State Unit := fun state =>
  match signed.validateBasic with
  | .error e => .error e state
  | .ok () =>
    match verifier signed state with
    | .error e => .error e state
    | .ok () =>
      match stateTransitionInner ssz signed.message.block state with
      | .error e _ => .error e state
      | .ok () working => .ok () working

end Peam
