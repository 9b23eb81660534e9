import Peam.Transition

/-!
# Signing

The three places of `src/node/tasks.rs` that use a local validator's secret key: the attestation
task, the proposer's signature in block production, and the payload builder, which signs pending
attestations that carry no proof. Each function returns also the signatures it released, in order.

`Signers` is the part of the node these sites share, and `Signers.step` one pass of one of the
tasks. What the tasks read from elsewhere (the clock, the live state, the store, the fork choice) is
an input, so a list of events is a run under any clock and any head changes. A proposal that fails
on its parent is retried in a pass of its own: other tasks may run in between.

`leansig` and `lean-multisig` are a parameter, and so is what the tasks ask of the fork choice.
-/

namespace Peam

open Packed
open Calls (Outcome Mutation)

/-! ## Keys -/

/-- The calls into `leansig` and `lean-multisig`. -/
structure LeanSig (K : Type) where
  /-- `SignatureScheme::sign`, and the serialized signature. -/
  sign : K → Nat → Bytes32 → Except String (List Byte)
  /-- `get_activation_interval`, a half-open range of epochs. -/
  activation : K → Nat × Nat
  /-- `get_prepared_interval`. -/
  prepared : K → Nat × Nat
  /-- `xmss_aggregate_signatures` on the decoded keys and signatures. -/
  aggregate : List Bytes52 → List Bytes3112 → Bytes32 → Nat → Except String (List Byte)

/-- `Range::contains`. -/
def inRange (range : Nat × Nat) (epoch : Nat) : Bool :=
  decide (range.1 ≤ epoch ∧ epoch < range.2)

structure KeyMaterial (K : Type) where
  pubkey : Bytes52
  secretKey : K

/-- One use of a secret key. -/
structure Signing (K : Type) where
  key : K
  epoch : Nat
  message : Bytes32

/-- A result and the signatures released on the way to it. -/
abbrev Released (K α : Type) := α × List (Signing K)

section Sign

variable {K : Type} (lib : LeanSig K)

/-- `sign_message`. The epoch is a `u32`. -/
def signMessage (key : K) (epoch : Nat) (message : Bytes32) : Released K (Outcome Bytes3112) :=
  match lib.sign key (epoch % 2 ^ 32) message with
  | .error e => (.error (.err s!"failed to sign message: {e}"), [])
  | .ok bytes =>
    (if bytes.length ≠ 3112 then
      .error (.err s!"unexpected signature length {bytes.length}, expected {3112}")
    else .ok (BitVec.ofNat 24896 (natOfBytes bytes)),
      [⟨key, epoch % 2 ^ 32, message⟩])

/-- The loop of `sign_aggregate`, up to the first failure. -/
def signAll (epoch : Nat) (message : Bytes32) : List K → Released K (Outcome (List Bytes3112))
  | [] => (.ok [], [])
  | key :: rest =>
    match signMessage lib key epoch message with
    | (.error e, log) => (.error e, log)
    | (.ok signature, log) =>
      match signAll epoch message rest with
      | (.error e, more) => (.error e, log ++ more)
      | (.ok signatures, more) => (.ok (signature :: signatures), log ++ more)

/-- `sign_aggregate`. -/
def signAggregate (publicKeys : List Bytes52) (secretKeys : List K) (epoch : Nat)
    (message : Bytes32) : Released K (Outcome (List Byte)) :=
  if publicKeys = [] then
    (.error (.err "aggregate signature participants must be non-empty"), [])
  else if publicKeys.length ≠ secretKeys.length then
    (.error (.err
      s!"public key count ({publicKeys.length}) does not match secret key count ({secretKeys.length})"),
      [])
  else
    match signAll lib epoch message secretKeys with
    | (.error e, log) => (.error e, log)
    | (.ok signatures, log) =>
      match lib.aggregate publicKeys signatures message (epoch % 2 ^ 32) with
      | .error e => (.error (.err s!"failed to aggregate signatures: {e}"), log)
      | .ok proof => (.ok proof, log)

end Sign

/-! ## The payload builder -/

structure PendingBlockAttestation where
  attestation : Attestation
  proof : Option AggregatedSignatureProof

/-- `merge_aggregation_bits`. -/
def mergeAggregationBits (dst src : BitList validatorRegistryLimit) :
    BitList validatorRegistryLimit :=
  let targetLen := max dst.len src.len
  let data := grow dst.data ((targetLen + 7) / 8)
  let mergeBytes := min src.data.length data.length
  { data := (List.range data.length).map fun i =>
      if i < mergeBytes then data.getD i 0#8 ||| src.data.getD i 0#8 else data.getD i 0#8
    len := targetLen }

variable (ssz : Ssz)

/-- `aggregate_attestations`: one entry for each data root. The source hands them out in the order
of its hash map. -/
def aggregateAttestations (attestations : List Attestation) : List Attestation :=
  let grouped : RapidHashMap Attestation := attestations.foldl
    (fun grouped attestation =>
      let key := attestation.data.hashTreeRoot ssz
      match grouped.lookup key with
      | some existing =>
        grouped.insert key { existing with
          aggregationBits :=
            mergeAggregationBits existing.aggregationBits attestation.aggregationBits }
      | none => grouped.insert key attestation) ∅
  grouped.entries.map (·.2)

section Payload

variable {K : Type} (lib : LeanSig K) (keys : List (Option (KeyMaterial K)))

/-- The key material of all participants, if each of them can sign in the proposal's slot. -/
def signableKeys (slot : Nat) (participants : List Nat) : Option (List (KeyMaterial K)) :=
  participants.mapM fun index =>
    match keys[index]? with
    | some (some material) =>
      if inRange (lib.activation material.secretKey) slot &&
          inRange (lib.prepared material.secretKey) slot then some material
      else none
    | _ => none

/-- One aggregate without proof: signed with every participant's key, for the attestation's own
slot. -/
def signPending (slot : Nat) (attestation : Attestation) :
    Released K (Option (Attestation × AggregatedSignatureProof)) :=
  let participants := setBits attestation.aggregationBits
  if participants = [] then (none, [])
  else
    match signableKeys lib keys slot participants with
    | none => (none, [])
    | some materials =>
      match signAggregate lib (materials.map (·.pubkey)) (materials.map (·.secretKey))
        attestation.data.slot (attestation.data.hashTreeRoot ssz) with
      | (.error _, log) => (none, log)
      | (.ok proof, log) =>
        if proof.length > proofMaxBytes then (none, log)
        else (some (attestation, ⟨attestation.aggregationBits, ⟨proof⟩⟩), log)

/-- `build_block_attestation_payload`, on the drained entries. -/
def buildBlockAttestationPayload (slot finalizedSlot : Nat)
    (drained : List PendingBlockAttestation) :
    Released K (List Attestation × List AggregatedSignatureProof) :=
  let fresh := drained.filter fun entry => ¬ entry.attestation.data.target.slot < finalizedSlot
  let proven := fresh.filterMap fun entry => entry.proof.map fun proof =>
    ({ entry.attestation with aggregationBits := proof.participants }, proof)
  if proven.length ≥ attestationsLimit then
    (((proven.take attestationsLimit).map (·.1), (proven.take attestationsLimit).map (·.2)), [])
  else
    let unaggregated := fresh.filterMap fun entry =>
      if entry.proof.isNone then some entry.attestation else none
    let signed := ((aggregateAttestations ssz unaggregated).take
      (attestationsLimit - proven.length)).map (signPending ssz lib keys slot)
    let payload := proven ++ signed.filterMap (·.1)
    ((payload.map (·.1), payload.map (·.2)), signed.flatMap (·.2))

end Payload

/-! ## Attestation data -/

/-- What the tasks ask of a `ForkChoiceStore`. -/
structure ForkChoiceApi (F : Type) where
  latestJustified : F → Checkpoint
  latestFinalized : F → Checkpoint
  head : F → Bytes32
  headSlot : F → Nat
  checkpointForRoot : F → Bytes32 → Option Checkpoint
  attestationTarget : F → Nat → Option Checkpoint
  /-- `get_proposal_head_with_pending`, which also updates the store. -/
  proposalHeadWithPending : F → List Attestation → Bytes32 × F
  /-- `import_block_internal` on a copy, without the proposer's attestation. -/
  importPreview : F → Block → State → Outcome F

section Tasks

variable {K F : Type} (api : ForkChoiceApi F)

/-- The end of `load_attestation_data`: a target that cannot be justified is not attested. -/
def attestationDataFor (slot finalizedSlot : Nat) (head target source : Checkpoint) :
    Option AttestationData :=
  let head := if head.slot < target.slot then target else head
  if target.slot ≤ source.slot ∨ isJustifiableAfter target.slot finalizedSlot ≠ .ok true then none
  else some { slot := max slot head.slot, head, target, source }

/-- `load_attestation_data`. -/
def loadAttestationData (state : State) (forkChoice : Option F) (pending : List Attestation)
    (slot : Nat) : Option AttestationData :=
  match forkChoice with
  | some fc =>
    let (headRoot, fc) := api.proposalHeadWithPending fc (aggregateAttestations ssz pending)
    let source := api.latestJustified fc
    let finalizedSlot := (api.latestFinalized fc).slot
    let head := (api.checkpointForRoot fc headRoot).getD ⟨headRoot, api.headSlot fc⟩
    let target := (api.attestationTarget fc finalizedSlot).getD source
    attestationDataFor slot finalizedSlot head target source
  | none =>
    attestationDataFor slot state.latestFinalized.slot
      ⟨state.latestBlockHeader.hashTreeRoot ssz, state.slot⟩ state.latestJustified
      state.latestJustified

/-- `preview_proposer_attestation_data`. -/
def previewProposerAttestationData (fc : F) (block : Block) (postState : State) :
    Outcome AttestationData := do
  let blockCheckpoint : Checkpoint := ⟨block.hashTreeRoot ssz, block.slot⟩
  let preview ← api.importPreview fc block postState
  let source := api.latestJustified preview
  let target := (api.attestationTarget preview (api.latestFinalized preview).slot).getD source
  let target := if target.slot < source.slot then source else target
  let target := if target.slot > block.slot then blockCheckpoint else target
  let head := (api.checkpointForRoot preview (api.head preview)).getD blockCheckpoint
  return { slot := block.slot, head, target, source }

/-! ## Block production -/

/-- The post-state of a block without state root, and the block with it filled in. -/
def finishBlock (preState : State) (block : Block) : Option (Block × State) :=
  match (do processBlockHeader ssz (block.header ssz)
            processBlockBody ssz block.body (block.header ssz).bodyRoot :
          Mutation State Unit) (advanceTo ssz block.slot preState) with
  | .error _ _ => none
  | .ok () post =>
    let stateRoot := post.hashTreeRoot ssz
    some ({ block with stateRoot },
      { post with latestBlockHeader := { post.latestBlockHeader with stateRoot } })

/-- The proposer's own attestation data. -/
def proposerData (forkChoice : Option F) (block : Block) (postState : State) :
    Outcome AttestationData :=
  match forkChoice with
  | some fc => previewProposerAttestationData ssz api fc block postState
  | none =>
    .ok { slot := block.slot, head := ⟨block.hashTreeRoot ssz, block.slot⟩,
          target := postState.latestJustified, source := postState.latestJustified }

/-- The constants of a node's tasks. Both tasks are spawned only with a key of the cache. -/
structure SigningNode (K : Type) where
  lib : LeanSig K
  keys : List (Option (KeyMaterial K))
  genesisTimeSecs : Nat
  localIndex : Nat
  localKey : KeyMaterial K
  localKey_cached : keys[localIndex]? = some (some localKey)

/-- The end of `produce_block_with_signatures`: the proposer signs its attestation data for the
block's slot. -/
def signProposal (node : SigningNode K) (slot : Nat) (data : AttestationData) :
    Released K (Outcome Bytes3112) :=
  if ¬ inRange (node.lib.activation node.localKey.secretKey) slot then
    (.error (.err s!"skipping block proposal: key not active at epoch {slot}"), [])
  else if ¬ inRange (node.lib.prepared node.localKey.secretKey) slot then
    (.error (.err s!"skipping block proposal: key not prepared at epoch {slot}"), [])
  else signMessage node.lib node.localKey.secretKey slot (data.hashTreeRoot ssz)

/-- `produce_block_with_signatures`, on the drained pending entries. -/
def produceBlockWithSignatures (node : SigningNode K) (preState : State) (slot : Nat)
    (forkChoice : Option F) (drained : List PendingBlockAttestation) :
    Released K (Option (SignedBlockWithAttestation × State)) :=
  let ((attestations, proofs), log) :=
    buildBlockAttestationPayload ssz node.lib node.keys slot preState.latestFinalized.slot drained
  match SszList.new ssz attestationsLimit attestations, SszList.new ssz attestationsLimit proofs with
  | .ok attestations, .ok attestationSignatures =>
    let draft : Block :=
      { slot, proposerIndex := node.localIndex, parentRoot := headRootAt ssz slot preState,
        stateRoot := Bytes32.zero, body := ⟨attestations⟩ }
    match finishBlock ssz preState draft with
    | none => (none, log)
    | some (block, postState) =>
      match proposerData ssz api forkChoice block postState with
      | .error _ => (none, log)
      | .ok data =>
        if node.localIndex + 1 > validatorRegistryLimit then (none, log)
        else
          match signProposal ssz node slot data with
          | (.error _, more) => (none, log ++ more)
          | (.ok proposerSignature, more) =>
            (some
              ({ message :=
                  { block, proposerAttestation := ⟨singleBit node.localIndex, data⟩ }
                 signature := { attestationSignatures, proposerSignature } }, postState),
              log ++ more)
  | _, _ => (none, log)

/-! ## The tasks -/

/-- What the signing sites keep between passes. `lastProposedSlot` is a history variable: no task
reads it. -/
structure Signers (K : Type) where
  /-- `last_signed_slot` of the attestation task. -/
  lastSignedSlot : Option Nat
  /-- The slot block production is about to retry. -/
  retrying : Option Nat
  /-- `pending_block_attestations`. -/
  pending : List PendingBlockAttestation
  lastProposedSlot : Option Nat
  /-- Every signature released so far. -/
  signatures : List (Signing K)

def Signers.initial : Signers K := ⟨none, none, [], none, []⟩

/-- What one attempt at a proposal reads: the fork choice snapshot, the loaded pre-state, and the
live state at the time of the import. -/
structure ProposalAttempt (F : Type) where
  forkChoice : Option F
  preState : State
  importState : State

inductive SigningEvent (F : Type)
  /-- A pass of the attestation task. -/
  | attest (now : Option Nat) (forkChoice : Option F) (state : State) (pending : List Attestation)
  /-- The gossip handler or the aggregation task adds an aggregate with its proof. -/
  | push (attestation : Attestation) (proof : AggregatedSignatureProof)
  /-- A pass of the block production task, up to its first attempt. -/
  | propose (now : Option Nat) (live : State) (attempt : ProposalAttempt F)
  /-- The second attempt. -/
  | retry (attempt : ProposalAttempt F)

namespace Signers

variable (node : SigningNode K)

/-- The loop body of `spawn_signed_attestation_task`. -/
def attest (signers : Signers K) (now : Option Nat) (forkChoice : Option F) (state : State)
    (pending : List Attestation) : Signers K :=
  match now with
  | none => signers
  | some now =>
    if intervalIndexFromUnixMillis node.genesisTimeSecs now ≠ attestationIntervalIndex then signers
    else
      match loadAttestationData ssz api state forkChoice pending
        (slotIndexFromUnixMillis node.genesisTimeSecs now) with
      | none => signers
      | some data =>
        if signers.lastSignedSlot = some data.slot then signers
        else if ¬ inRange (node.lib.activation node.localKey.secretKey) data.slot then signers
        else if ¬ inRange (node.lib.prepared node.localKey.secretKey) data.slot then signers
        else
          match signMessage node.lib node.localKey.secretKey data.slot (data.hashTreeRoot ssz) with
          | (.error _, log) => { signers with signatures := signers.signatures ++ log }
          | (.ok _, log) =>
            { signers with
              signatures := signers.signatures ++ log
              lastSignedSlot := some data.slot }

/-- One attempt of the loop in `spawn_block_production_task`: the payload is drained, the block
produced and imported. On a parent mismatch its attestations are queued again without their proofs,
and a first attempt is retried. -/
def attemptProposal (signers : Signers K) (slot : Nat) (first : Bool)
    (attempt : ProposalAttempt F) : Signers K :=
  let (produced, log) :=
    produceBlockWithSignatures ssz api node attempt.preState slot attempt.forkChoice signers.pending
  let drained : Signers K :=
    { signers with
      pending := []
      retrying := none
      lastProposedSlot := some slot
      signatures := signers.signatures ++ log }
  match produced with
  | none => drained
  | some (signed, _) =>
    let block := signed.message.block
    if block.parentRoot ≠ headRootAt ssz block.slot attempt.importState then
      { drained with
        pending := block.body.attestations.items.map fun attestation => ⟨attestation, none⟩
        retrying := if first then some slot else none }
    else drained

/-- The loop body of `spawn_block_production_task`, up to its first attempt. -/
def propose (signers : Signers K) (now : Option Nat) (live : State) (attempt : ProposalAttempt F) :
    Signers K :=
  match now with
  | none => signers
  | some now =>
    let slot := slotIndexFromUnixMillis node.genesisTimeSecs now
    let validatorCount := live.validators.items.length
    if validatorCount = 0 then signers
    else if slot ≤ live.slot then signers
    else if slot ≠ live.slot + 1 then signers
    else if slot % validatorCount ≠ node.localIndex then signers
    else signers.attemptProposal ssz api node slot true attempt

/-- One pass of one task. Block production starts a new slot only when it is not retrying. -/
def step (signers : Signers K) : SigningEvent F → Signers K
  | .attest now forkChoice state pending => signers.attest ssz api node now forkChoice state pending
  | .push attestation proof =>
    { signers with pending := signers.pending ++ [⟨attestation, some proof⟩] }
  | .propose now live attempt =>
    if signers.retrying.isSome then signers else signers.propose ssz api node now live attempt
  | .retry attempt =>
    match signers.retrying with
    | none => signers
    | some slot => signers.attemptProposal ssz api node slot false attempt

/-- A run. -/
def run (signers : Signers K) (events : List (SigningEvent F)) : Signers K :=
  events.foldl (step ssz api node) signers

end Signers

end Tasks

/-! ## The calls

Every call of `sign`, whether a signature comes of it or not: the upstream function panics on an
epoch outside the key's intervals. -/

section Calls

variable {K F : Type} (lib : LeanSig K) (keys : List (Option (KeyMaterial K)))

/-- The calls of the loop of `sign_aggregate`. -/
def signAllCalls (epoch : Nat) (message : Bytes32) : List K → List (Signing K)
  | [] => []
  | key :: rest =>
    ⟨key, epoch % 2 ^ 32, message⟩ ::
      match (signMessage lib key epoch message).1 with
      | .error _ => []
      | .ok _ => signAllCalls epoch message rest

/-- The calls of `sign_aggregate`. -/
def signAggregateCalls (publicKeys : List Bytes52) (secretKeys : List K) (epoch : Nat)
    (message : Bytes32) : List (Signing K) :=
  if publicKeys = [] then []
  else if publicKeys.length ≠ secretKeys.length then []
  else signAllCalls lib epoch message secretKeys

/-- The calls for one aggregate without proof. -/
def signPendingCalls (slot : Nat) (attestation : Attestation) : List (Signing K) :=
  let participants := setBits attestation.aggregationBits
  if participants = [] then []
  else
    match signableKeys lib keys slot participants with
    | none => []
    | some materials =>
      signAggregateCalls lib (materials.map (·.pubkey)) (materials.map (·.secretKey))
        attestation.data.slot (attestation.data.hashTreeRoot ssz)

/-- The aggregates the payload builder tries to sign. -/
def unprovenAggregates (finalizedSlot : Nat) (drained : List PendingBlockAttestation) :
    List Attestation :=
  let fresh := drained.filter fun entry => ¬ entry.attestation.data.target.slot < finalizedSlot
  let proven := fresh.filter (·.proof.isSome)
  if proven.length ≥ attestationsLimit then []
  else
    (aggregateAttestations ssz (fresh.filterMap fun entry =>
      if entry.proof.isNone then some entry.attestation else none)).take
        (attestationsLimit - proven.length)

/-- The calls of `build_block_attestation_payload`. -/
def payloadCalls (slot finalizedSlot : Nat) (drained : List PendingBlockAttestation) :
    List (Signing K) :=
  (unprovenAggregates ssz finalizedSlot drained).flatMap (signPendingCalls ssz lib keys slot)

variable (api : ForkChoiceApi F) (node : SigningNode K)

/-- The call for the proposer's own attestation. -/
def signProposalCalls (slot : Nat) (data : AttestationData) : List (Signing K) :=
  if ¬ inRange (node.lib.activation node.localKey.secretKey) slot then []
  else if ¬ inRange (node.lib.prepared node.localKey.secretKey) slot then []
  else [⟨node.localKey.secretKey, slot % 2 ^ 32, data.hashTreeRoot ssz⟩]

/-- The calls of `produce_block_with_signatures`. -/
def productionCalls (preState : State) (slot : Nat) (forkChoice : Option F)
    (drained : List PendingBlockAttestation) : List (Signing K) :=
  let ((attestations, _), _) :=
    buildBlockAttestationPayload ssz node.lib node.keys slot preState.latestFinalized.slot drained
  payloadCalls ssz node.lib node.keys slot preState.latestFinalized.slot drained ++
    match SszList.new ssz attestationsLimit attestations with
    | .error _ => []
    | .ok attestations =>
      let draft : Block :=
        { slot, proposerIndex := node.localIndex, parentRoot := headRootAt ssz slot preState,
          stateRoot := Bytes32.zero, body := ⟨attestations⟩ }
      match finishBlock ssz preState draft with
      | none => []
      | some (block, postState) =>
        match proposerData ssz api forkChoice block postState with
        | .error _ => []
        | .ok data =>
          if node.localIndex + 1 > validatorRegistryLimit then []
          else signProposalCalls ssz node slot data

/-- The calls of a pass of the attestation task. -/
def attestCalls (signers : Signers K) (now : Option Nat) (forkChoice : Option F) (state : State)
    (pending : List Attestation) : List (Signing K) :=
  match now with
  | none => []
  | some now =>
    if intervalIndexFromUnixMillis node.genesisTimeSecs now ≠ attestationIntervalIndex then []
    else
      match loadAttestationData ssz api state forkChoice pending
        (slotIndexFromUnixMillis node.genesisTimeSecs now) with
      | none => []
      | some data =>
        if signers.lastSignedSlot = some data.slot then []
        else if ¬ inRange (node.lib.activation node.localKey.secretKey) data.slot then []
        else if ¬ inRange (node.lib.prepared node.localKey.secretKey) data.slot then []
        else [⟨node.localKey.secretKey, data.slot % 2 ^ 32, data.hashTreeRoot ssz⟩]

end Calls

end Peam
