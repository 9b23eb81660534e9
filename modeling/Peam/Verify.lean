import Peam.Decode
import Peam.Transition

/-!
# Signature checks

The two places that accept a signed block: `PqSignatureVerifier` before an import
(`src/containers/state.rs`) and `validate_gossip` before a message is passed on
(`src/networking/validate.rs`). Both read the proposer's public key by the block's proposer index
and check the signature over the root of the proposer's attestation data, at the epoch of that
attestation; both check each attestation of the body against its own aggregate proof.

`PqBackend` is the verifying side of `leansig` and `lean-multisig`.
-/

namespace Peam

open Packed (Byte)
open Calls (Outcome)

/-! ## The post-quantum library -/

structure PqBackend where
  Key : Type
  Signature : Type
  Aggregate : Type
  publicKeyFromBytes : Bytes52 → Except String Key
  signatureFromBytes : Bytes3112 → Except String Signature
  verify : Key → Nat → Bytes32 → Signature → Bool
  aggregateFromSszBytes : List Byte → Except String Aggregate
  verifyAggregatedSignatures : List Key → Bytes32 → Aggregate → Nat → Except String Unit

/-- `map_err`: the library's error behind a label of the caller. -/
def relabel {α : Type} (label : String) : Except String α → Outcome α
  | .ok a => .ok a
  | .error text => Outcome.err s!"{label}{text}"

section Pq

variable (pq : PqBackend)

/-- `verify_signature`. The epoch is a `u32`. -/
def verifySignature (publicKey : Bytes52) (epoch : Nat) (message : Bytes32)
    (signature : Bytes3112) : Outcome Unit := do
  let pk ← relabel "Failed to decode LeanSigPublicKey: " (pq.publicKeyFromBytes publicKey)
  let sig ← relabel "Failed to decode LeanSigSignature: " (pq.signatureFromBytes signature)
  Outcome.failIf (¬ pq.verify pk (epoch % 2 ^ 32) message sig)
    "Proposer signature verification failed"

/-- `verify_aggregate_signature`. -/
def verifyAggregateSignature (publicKeys : List Bytes52) (message : Bytes32)
    (aggregateSignatureBytes : List Byte) (epoch : Nat) : Outcome Unit := do
  Outcome.failIf publicKeys.isEmpty "aggregate signature participants must be non-empty"
  Outcome.failIf (aggregateSignatureBytes.length < 8)
    "failed to decode aggregate signature: proof too short"
  let aggregate ← relabel "failed to decode aggregate signature: "
    (pq.aggregateFromSszBytes aggregateSignatureBytes)
  let pubKeys ← publicKeys.mapM fun key =>
    relabel "Failed to decode LeanSigPublicKey: " (pq.publicKeyFromBytes key)
  relabel "failed to verify aggregated signatures: "
    (pq.verifyAggregatedSignatures pubKeys message aggregate (epoch % 2 ^ 32))

end Pq

/-! ## Before an import -/

section Import

/-- The set bits of one byte from the lowest up: what repeated `trailing_zeros` and
`remaining &= remaining - 1` go through. -/
def byteBits (byte : Byte) : List Nat := (List.range 8).filter byte.getLsbD

/-- The keys of one byte of participants. A bit past the declared length ends the byte, not the
scan. -/
def collectByteKeys (validators : List Validator) (bitLen base : Nat) :
    List Nat → Outcome (List Bytes52)
  | [] => .ok []
  | bit :: rest =>
    if base + bit ≥ bitLen then .ok []
    else
      match validators[base + bit]? with
      | none => Outcome.err "validator index out of range"
      | some validator => do
        let keys ← collectByteKeys validators bitLen base rest
        .ok (validator.pubkey :: keys)

/-- The keys of all participants, byte by byte. -/
def collectKeys (validators : List Validator) (bitLen : Nat) :
    Nat → List Byte → Outcome (List Bytes52)
  | _, [] => .ok []
  | byteIdx, byte :: rest => do
    let keys ← collectByteKeys validators bitLen (byteIdx * 8) (byteBits byte)
    let further ← collectKeys validators bitLen (byteIdx + 1) rest
    .ok (keys ++ further)

variable (ssz : Ssz) (pq : PqBackend)

/-- One round of the loop over attestations and proofs. -/
def verifyAttestation (validators : List Validator) (att : Attestation)
    (proof : AggregatedSignatureProof) : Outcome Unit := do
  let publicKeys ←
    collectKeys validators att.aggregationBits.len 0 att.aggregationBits.data
  Outcome.failIf publicKeys.isEmpty "attestation aggregate participants must be non-empty"
  verifyAggregateSignature pq publicKeys (att.data.hashTreeRoot ssz) proof.proofData.data
    att.data.slot

def verifyAttestations (validators : List Validator) :
    List (Attestation × AggregatedSignatureProof) → Outcome Unit
  | [] => .ok ()
  | (att, proof) :: rest => do
    verifyAttestation ssz pq validators att proof
    verifyAttestations validators rest

/-- `PqSignatureVerifier::verify_signed_block`. -/
def pqSignatureVerifier : SignatureVerifier := fun signed state => do
  let block := signed.message.block
  let attestations := block.body.attestations.items
  let proofs := signed.signature.attestationSignatures.items
  Outcome.failIf (attestations.length ≠ proofs.length)
    s!"attestation signatures count {proofs.length} does not match attestations {attestations.length}"
  let validators := state.validators.items
  verifyAttestations ssz pq validators (attestations.zip proofs)
  let proposerAttestation := signed.message.proposerAttestation
  match validators[block.proposerIndex]? with
  | none => Outcome.err "proposer index out of range"
  | some proposer =>
    verifySignature pq proposer.pubkey proposerAttestation.data.slot
      (proposerAttestation.data.hashTreeRoot ssz) signed.signature.proposerSignature

end Import

/-! ## Before a message is passed on -/

/-- The trait `GossipSignatureVerifier`. -/
structure GossipSignatureVerifier where
  verifyBlockSignature : Nat → BlockWithAttestation → Bytes3112 → Bool
  verifySignedAttestationSignature : SignedAttestation → Bool
  verifyAttestationSignature : Attestation → AggregatedSignatureProof → Bool

/-- `NoopGossipVerifier`. -/
def noopGossipVerifier : GossipSignatureVerifier where
  verifyBlockSignature _ _ _ := true
  verifySignedAttestationSignature _ := true
  verifyAttestationSignature _ _ := true

/-- `gather_pubkeys`: nothing when a participant is not in the registry. -/
def gatherPubkeys (registry : List Bytes52) (participants : BitList validatorRegistryLimit) :
    Option (List Bytes52) :=
  (setBits participants).mapM fun idx => registry[idx]?

section Gossip

variable (ssz : Ssz) (pq : PqBackend)

/-- `SimpleGossipVerifier`. -/
def simpleGossipVerifier (pubkeys : List Bytes52) : GossipSignatureVerifier where
  verifyBlockSignature proposerIndex message signature :=
    match pubkeys[proposerIndex]? with
    | none => false
    | some pubkey =>
      let data := message.proposerAttestation.data
      (verifySignature pq pubkey data.slot (data.hashTreeRoot ssz) signature).isOk
  verifySignedAttestationSignature attestation :=
    match pubkeys[attestation.validatorId]? with
    | none => false
    | some pubkey =>
      let data := attestation.message
      (verifySignature pq pubkey data.slot (data.hashTreeRoot ssz) attestation.signature).isOk
  verifyAttestationSignature attestation proof :=
    match gatherPubkeys pubkeys attestation.aggregationBits with
    | none => false
    | some participants =>
      !participants.isEmpty &&
        (verifyAggregateSignature pq participants (attestation.data.hashTreeRoot ssz)
          proof.proofData.data attestation.data.slot).isOk

/-- `verifier_from_validators`: an empty registry checks nothing. -/
def verifierFromValidators (validators : List Validator) : GossipSignatureVerifier :=
  if validators.isEmpty then noopGossipVerifier
  else simpleGossipVerifier ssz pq (validators.map (·.pubkey))

end Gossip

inductive GossipValidatorKind where
  | none
  | block
  | blockHeader
  | attestation
  | aggregatedAttestation
  | voluntaryExit
  deriving DecidableEq

/-- `VoluntaryExit::decode_ssz_checked`: the validator's index and the epoch. -/
def decodeVoluntaryExit : List Byte → Outcome (Nat × Nat) :=
  decodeFixedChecked "VoluntaryExit" 16 fun bytes => do
    let validatorIndex ← Outcome.slice bytes 0 8 >>= ValidatorIndex.decodeSsz
    let epoch ← Outcome.slice bytes 8 16 >>= Uint64.decodeSsz
    .ok (validatorIndex, epoch)

/-- The checks on a decoded block. -/
def validateGossipBlock (verifier : GossipSignatureVerifier)
    (signed : SignedBlockWithAttestation) : Bool :=
  let message := signed.message
  let proposerAttestation := message.proposerAttestation
  let attestations := message.block.body.attestations.items
  let proofs := signed.signature.attestationSignatures.items
  if proposerAttestation.data.slot ≠ message.block.slot then false
  else
    match setBits proposerAttestation.aggregationBits with
    | [proposerBit] =>
      if proposerBit ≠ message.block.proposerIndex then false
      else if !verifier.verifyBlockSignature message.block.proposerIndex message
          signed.signature.proposerSignature then false
      else if attestations.length ≠ proofs.length then false
      else (attestations.zip proofs).all fun (attestation, proof) =>
        decide (proof.participants = attestation.aggregationBits) &&
          verifier.verifyAttestationSignature attestation proof
    | _ => false

/-- The checks on a decoded aggregate. -/
def validateGossipAggregate (verifier : GossipSignatureVerifier)
    (signed : SignedAggregatedAttestation) : Bool :=
  if (setBits signed.proof.participants).isEmpty then false
  else verifier.verifyAttestationSignature
    { aggregationBits := signed.proof.participants, data := signed.data } signed.proof

/-- `let Ok(x) = decode(payload) else { return false }`: a panic of the decoder stays one. -/
def whenDecoded {α : Type} (decoded : Outcome α) (check : α → Bool) : Outcome Bool :=
  match decoded with
  | .ok a => .ok (check a)
  | .error (.err _) => .ok false
  | .error (.panicked text) => .error (.panicked text)

/-- `validate_gossip`. -/
def validateGossip (codec : SszCodec) (kind : GossipValidatorKind) (payload : List Byte)
    (verifier : GossipSignatureVerifier) : Outcome Bool :=
  match kind with
  | .none => .ok true
  | .block =>
    whenDecoded (SignedBlockWithAttestation.decodeSszChecked codec payload)
      (validateGossipBlock verifier)
  | .blockHeader => whenDecoded (BlockHeader.decodeSszChecked payload) fun _ => true
  | .attestation =>
    whenDecoded (SignedAttestation.decodeSszChecked payload)
      verifier.verifySignedAttestationSignature
  | .aggregatedAttestation =>
    whenDecoded (SignedAggregatedAttestation.decodeSszChecked codec payload)
      (validateGossipAggregate verifier)
  | .voluntaryExit => whenDecoded (decodeVoluntaryExit payload) fun _ => true

end Peam
