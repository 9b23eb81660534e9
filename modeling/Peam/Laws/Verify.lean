import Peam.Verify
import Peam.Laws.Decode

/-!
# What the proposer's signature binds

`AcceptedForImport` and an accepting `validate_gossip` come apart into the same three parts. The
*seat*: the proposer's attestation is for the block's slot and has the proposer's bit alone. The
*signature*: over the attestation data, under the key the proposer index names. The *body*: each
attestation with its own proof.

The block's parent root and state root occur in none of them, and the body only in its own part. So
whoever holds an accepted block can replace everything but slot and proposer.
-/

namespace Peam

open Packed (Byte)
open Calls.Outcome (bind_ok failIf_ok check_bind)

variable (ssz : Ssz) (pq : PqBackend)

/-- `validate_basic` and `PqSignatureVerifier` let the block through. -/
def AcceptedForImport (state : State) (signed : SignedBlockWithAttestation) : Prop :=
  signed.validateBasic = .ok () ∧ pqSignatureVerifier ssz pq signed state = .ok ()
  deriving Decidable

/-- `validate_gossip` lets the payload through, with the verifier of the registry. -/
def AcceptedForGossip (codec : SszCodec) (validators : List Validator) (payload : List Byte) :
    Prop :=
  validateGossip codec .block payload (verifierFromValidators ssz pq validators) = .ok true
  deriving Decidable

/-! ## The three parts -/

/-- The body's attestations and proofs pair up, and `check` accepts every pair. -/
def BodyProven (check : Attestation → AggregatedSignatureProof → Prop)
    (attestations : List Attestation) (proofs : List AggregatedSignatureProof) : Prop :=
  attestations.length = proofs.length ∧
    ∀ pair ∈ attestations.zip proofs,
      pair.2.participants = pair.1.aggregationBits ∧ check pair.1 pair.2

/-- The body of the block has its own proofs. -/
def SignedBlockWithAttestation.BodyProven (signed : SignedBlockWithAttestation)
    (check : Attestation → AggregatedSignatureProof → Prop) : Prop :=
  Peam.BodyProven check signed.message.block.body.attestations.items
    signed.signature.attestationSignatures.items

/-- Two blocks of one slot and one proposer. -/
def SameSeat (signed other : SignedBlockWithAttestation) : Prop :=
  other.message.block.slot = signed.message.block.slot ∧
    other.message.block.proposerIndex = signed.message.block.proposerIndex

/-- The signature is that of the indexed validator over the attestation data. -/
def ProposerSigned (validators : List Validator) (proposerIndex : Nat) (data : AttestationData)
    (signature : Bytes3112) : Prop :=
  ∃ proposer, validators[proposerIndex]? = some proposer ∧
    verifySignature pq proposer.pubkey data.slot (data.hashTreeRoot ssz) signature = .ok ()

private theorem participantsMismatch_eq_none (idx : Nat)
    (pairs : List (Attestation × AggregatedSignatureProof)) :
    participantsMismatch idx pairs = none ↔
      ∀ pair ∈ pairs, pair.2.participants = pair.1.aggregationBits := by
  induction pairs generalizing idx with
  | nil => simp [participantsMismatch]
  | cons pair rest ih =>
    obtain ⟨att, proof⟩ := pair
    rw [participantsMismatch, List.forall_mem_cons, ← ih (idx + 1)]
    split
    · next h => exact ⟨nofun, fun eq => absurd eq.1 h⟩
    · next h => exact ⟨fun eq => ⟨not_not.mp h, eq⟩, And.right⟩

private theorem verifyAttestations_ok (validators : List Validator)
    (pairs : List (Attestation × AggregatedSignatureProof)) :
    verifyAttestations ssz pq validators pairs = .ok () ↔
      ∀ pair ∈ pairs, verifyAttestation ssz pq validators pair.1 pair.2 = .ok () := by
  induction pairs with
  | nil => simp [verifyAttestations]
  | cons pair rest ih =>
    rw [verifyAttestations, bind_ok, List.forall_mem_cons, ← ih]
    exact ⟨fun ⟨_, first, others⟩ => ⟨first, others⟩, fun ⟨first, others⟩ => ⟨(), first, others⟩⟩

/-- The structural checks: the seat, and the participants of the proofs. -/
theorem validateBasic_ok (signed : SignedBlockWithAttestation) :
    signed.validateBasic = .ok () ↔
      (signed.message.proposerAttestation.data.slot = signed.message.block.slot ∧
        singleSetBit signed.message.proposerAttestation.aggregationBits =
          some signed.message.block.proposerIndex) ∧
      signed.BodyProven fun _ _ => True := by
  unfold SignedBlockWithAttestation.validateBasic SignedBlockWithAttestation.BodyProven BodyProven
  constructor
  · intro h
    obtain ⟨_, hlen, h⟩ := bind_ok.mp h
    split at h
    · cases h
    · next paired =>
      obtain ⟨_, hslot, h⟩ := bind_ok.mp h
      split at h
      · cases h
      · next bit single =>
        have hbit := not_not.mp (failIf_ok.mp h)
        have pairs := (participantsMismatch_eq_none 0 _).mp paired
        refine ⟨⟨not_not.mp (failIf_ok.mp hslot), hbit ▸ single⟩, ?_, ?_⟩
        · exact (not_not.mp (failIf_ok.mp hlen)).symm
        · exact fun pair hp => ⟨pairs pair hp, trivial⟩
  · rintro ⟨⟨hslot, single⟩, hlen, pairs⟩
    refine check_bind (not_not.mpr hlen.symm) ?_
    rw [(participantsMismatch_eq_none 0 _).mpr fun pair hp => (pairs pair hp).1]
    refine check_bind (not_not.mpr hslot) ?_
    rw [single]
    exact failIf_ok.mpr (not_not.mpr rfl)

/-- The signature checks: the body's proofs, and the proposer's signature. -/
private theorem pqSignatureVerifier_ok (state : State) (signed : SignedBlockWithAttestation) :
    pqSignatureVerifier ssz pq signed state = .ok () ↔
      signed.message.block.body.attestations.items.length =
          signed.signature.attestationSignatures.items.length ∧
        (∀ pair ∈ signed.message.block.body.attestations.items.zip
            signed.signature.attestationSignatures.items,
          verifyAttestation ssz pq state.validators.items pair.1 pair.2 = .ok ()) ∧
        ProposerSigned ssz pq state.validators.items signed.message.block.proposerIndex
          signed.message.proposerAttestation.data signed.signature.proposerSignature := by
  unfold pqSignatureVerifier ProposerSigned
  constructor
  · intro h
    obtain ⟨_, hlen, h⟩ := bind_ok.mp h
    obtain ⟨_, proven, h⟩ := bind_ok.mp h
    refine ⟨not_not.mp (failIf_ok.mp hlen), ?_, ?_⟩
    · exact (verifyAttestations_ok ssz pq _ _).mp proven
    · split at h
      · cases h
      · next proposer seated => exact ⟨proposer, seated, h⟩
  · rintro ⟨hlen, proven, proposer, seated, h⟩
    refine check_bind (not_not.mpr hlen) ?_
    refine bind_ok.mpr ⟨(), (verifyAttestations_ok ssz pq _ _).mpr proven, ?_⟩
    rw [seated]
    exact h

/-- **Acceptance for import in three parts.** -/
theorem acceptedForImport_iff (state : State) (signed : SignedBlockWithAttestation) :
    AcceptedForImport ssz pq state signed ↔
      (signed.message.proposerAttestation.data.slot = signed.message.block.slot ∧
        singleSetBit signed.message.proposerAttestation.aggregationBits =
          some signed.message.block.proposerIndex) ∧
      ProposerSigned ssz pq state.validators.items signed.message.block.proposerIndex
        signed.message.proposerAttestation.data signed.signature.proposerSignature ∧
      signed.BodyProven fun att proof =>
        verifyAttestation ssz pq state.validators.items att proof = .ok () := by
  rw [AcceptedForImport, validateBasic_ok, pqSignatureVerifier_ok]
  unfold SignedBlockWithAttestation.BodyProven BodyProven
  constructor
  · rintro ⟨⟨seat, hlen, pairs⟩, _, proven, signature⟩
    exact ⟨seat, signature, hlen, fun pair hp => ⟨(pairs pair hp).1, proven pair hp⟩⟩
  · rintro ⟨seat, signature, hlen, pairs⟩
    exact ⟨⟨seat, hlen, fun pair hp => ⟨(pairs pair hp).1, trivial⟩⟩, hlen,
      fun pair hp => (pairs pair hp).2, signature⟩

/-- The same for a gossiped block, whatever the verifier. -/
theorem validateGossipBlock_iff (verifier : GossipSignatureVerifier)
    (signed : SignedBlockWithAttestation) :
    validateGossipBlock verifier signed = true ↔
      (signed.message.proposerAttestation.data.slot = signed.message.block.slot ∧
        setBits signed.message.proposerAttestation.aggregationBits =
          [signed.message.block.proposerIndex]) ∧
      verifier.verifyBlockSignature signed.message.block.proposerIndex signed.message
        signed.signature.proposerSignature = true ∧
      signed.BodyProven fun att proof => verifier.verifyAttestationSignature att proof = true := by
  unfold validateGossipBlock SignedBlockWithAttestation.BodyProven BodyProven
  constructor
  · intro h
    dsimp only at h
    split at h
    · cases h
    · next hslot =>
      split at h
      · next bit single =>
        split at h
        · cases h
        · next hbit =>
          split at h
          · cases h
          · next hsig =>
            split at h
            · cases h
            · next hlen =>
              refine ⟨⟨not_not.mp hslot, not_not.mp hbit ▸ single⟩, ?_, not_not.mp hlen, ?_⟩
              · simpa using hsig
              · intro pair hp
                simpa using List.all_eq_true.mp h pair hp
      · cases h
  · rintro ⟨⟨hslot, single⟩, hsig, hlen, pairs⟩
    dsimp only
    rw [if_neg (not_not.mpr hslot), single]
    dsimp only
    rw [if_neg (not_not.mpr rfl), if_neg (by simp [hsig]), if_neg (not_not.mpr hlen)]
    apply List.all_eq_true.mpr
    intro pair hp
    simpa using pairs pair hp

/-- A decoded payload passes exactly when its block does. -/
theorem acceptedForGossip_iff {codec : SszCodec} {validators : List Validator}
    {payload : List Byte} {signed : SignedBlockWithAttestation}
    (decoded : SignedBlockWithAttestation.decodeSszChecked codec payload = .ok signed) :
    AcceptedForGossip ssz pq codec validators payload ↔
      validateGossipBlock (verifierFromValidators ssz pq validators) signed = true := by
  unfold AcceptedForGossip validateGossip whenDecoded
  rw [decoded]
  exact ⟨Except.ok.inj, congrArg Except.ok⟩

/-- The registry's verifier reads nothing of the message but the attestation data. -/
private theorem verifyBlockSignature_congr (validators : List Validator) (proposerIndex : Nat)
    {message other : BlockWithAttestation} (signature : Bytes3112)
    (same : other.proposerAttestation = message.proposerAttestation) :
    (verifierFromValidators ssz pq validators).verifyBlockSignature proposerIndex other signature =
      (verifierFromValidators ssz pq validators).verifyBlockSignature proposerIndex message
        signature := by
  unfold verifierFromValidators
  split
  · rfl
  · simp only [simpleGossipVerifier, same]

/-! ## Binding -/

/-- **The proposer's signature binds slot and proposer, and nothing else.** Given an accepted
block, another one with its proposer attestation and signature is accepted exactly when it is of
the same slot and proposer and its body has its own proofs: the parent root and the state root are
free, and so is the body. -/
theorem proposerSignature_binds (state : State) (signed other : SignedBlockWithAttestation)
    (sameAttestation : other.message.proposerAttestation = signed.message.proposerAttestation)
    (sameSignature : other.signature.proposerSignature = signed.signature.proposerSignature) :
    (AcceptedForImport ssz pq state signed →
      (AcceptedForImport ssz pq state other ↔
        SameSeat signed other ∧
          other.BodyProven fun att proof =>
            verifyAttestation ssz pq state.validators.items att proof = .ok ())) ∧
    ∀ codec payload otherPayload,
      SignedBlockWithAttestation.decodeSszChecked codec payload = .ok signed →
      SignedBlockWithAttestation.decodeSszChecked codec otherPayload = .ok other →
      AcceptedForGossip ssz pq codec state.validators.items payload →
      (AcceptedForGossip ssz pq codec state.validators.items otherPayload ↔
        SameSeat signed other ∧
          other.BodyProven fun att proof =>
            (verifierFromValidators ssz pq state.validators.items).verifyAttestationSignature
              att proof = true) := by
  constructor
  · intro accepted
    obtain ⟨⟨hslot, hbit⟩, signature, _⟩ := (acceptedForImport_iff ssz pq state signed).mp accepted
    rw [acceptedForImport_iff, sameAttestation, sameSignature, hslot, hbit, SameSeat]
    constructor
    · rintro ⟨⟨slot, index⟩, _, body⟩
      exact ⟨⟨slot.symm, (Option.some.inj index).symm⟩, body⟩
    · rintro ⟨⟨slot, index⟩, body⟩
      rw [slot, index]
      exact ⟨⟨rfl, rfl⟩, signature, body⟩
  · intro codec payload otherPayload decoded otherDecoded accepted
    rw [acceptedForGossip_iff ssz pq decoded, validateGossipBlock_iff] at accepted
    obtain ⟨⟨hslot, hbits⟩, signature, _⟩ := accepted
    rw [acceptedForGossip_iff ssz pq otherDecoded, validateGossipBlock_iff,
      verifyBlockSignature_congr ssz pq _ _ _ sameAttestation, sameAttestation, sameSignature, hslot,
      hbits, SameSeat]
    constructor
    · rintro ⟨⟨slot, index⟩, _, body⟩
      exact ⟨⟨slot.symm, (List.singleton_inj.mp index).symm⟩, body⟩
    · rintro ⟨⟨slot, index⟩, body⟩
      rw [slot, index]
      exact ⟨⟨rfl, rfl⟩, signature, body⟩

/-- A scheme in which the one valid signature of a message spells out key, epoch and message. -/
def idealSignature (key : Bytes52) (epoch : Nat) (message : Bytes32) : Bytes3112 :=
  (key ++ BitVec.ofNat 32 epoch ++ message).setWidth 24896

def idealPq : PqBackend where
  Key := Bytes52
  Signature := Bytes3112
  Aggregate := Unit
  publicKeyFromBytes := .ok
  signatureFromBytes := .ok
  verify key epoch message signature := signature == idealSignature key epoch message
  aggregateFromSszBytes _ := .error "not an aggregate"
  verifyAggregatedSignatures _ _ _ _ := .error "no aggregate verifies"

/-- The data validator 1 signs as the proposer of slot 1. -/
def signedData : AttestationData where
  slot := 1
  head := ⟨0#256, 0⟩
  target := ⟨0#256, 0⟩
  source := ⟨0#256, 0⟩

def signedOnce : Bytes3112 := idealSignature 2#416 1 (signedData.hashTreeRoot sampleSsz)

/-- An empty block of slot 1 with the given roots and always the same signature. -/
def graft (parentRoot stateRoot : Bytes32) : SignedBlockWithAttestation where
  message :=
    { block := { slot := 1, proposerIndex := 1, parentRoot, stateRoot, body := ⟨SszList.empty⟩ }
      proposerAttestation := { aggregationBits := singleBit 1, data := signedData } }
  signature := { attestationSignatures := SszList.empty, proposerSignature := signedOnce }

/-- Its payload, in the layout of the `ream` client. -/
def graftBytes (parentRoot stateRoot : Bytes32) : List Byte :=
  leBytes 4 8 ++ leBytes 4 236 ++ leBytes 4 140 ++ leBytes 8 1 ++
    leBytes 8 1 ++ List.replicate 120 0#8 ++
    leBytes 8 1 ++ leBytes 8 1 ++ (leBytes 32 parentRoot.toNat).reverse ++
    (leBytes 32 stateRoot.toNat).reverse ++ leBytes 4 84 ++ leBytes 4 4 ++
    leBytes 4 3116 ++ (leBytes 3112 signedOnce.toNat).reverse

/-- The law at a block with other roots grafted on. -/
theorem proposerSignature_binds_graft :
    AcceptedForImport sampleSsz idealPq (generateGenesis sampleSsz 0 threeValidators)
      (graft 7#256 8#256) :=
  ((proposerSignature_binds sampleSsz idealPq (generateGenesis sampleSsz 0 threeValidators)
    (graft 5#256 6#256) (graft 7#256 8#256) rfl rfl).1 (by decide +kernel)).mpr
    ⟨⟨rfl, rfl⟩, rfl, List.forall_mem_nil _⟩

/-- **Two blocks under one signature.** They differ in both roots, decode from their payloads, and
each of the two paths accepts both. -/
theorem graft_accepted :
    ((graft 5#256 6#256).message.block.hashTreeRoot sampleSsz ≠
        (graft 7#256 8#256).message.block.hashTreeRoot sampleSsz ∧
      (graft 7#256 8#256).message.proposerAttestation =
        (graft 5#256 6#256).message.proposerAttestation ∧
      (graft 7#256 8#256).signature.proposerSignature =
        (graft 5#256 6#256).signature.proposerSignature) ∧
    ∀ roots ∈ [(5#256, 6#256), (7#256, 8#256)],
      AcceptedForImport sampleSsz idealPq (generateGenesis sampleSsz 0 threeValidators)
          (graft roots.1 roots.2) ∧
        SignedBlockWithAttestation.decodeSszChecked oneElementCodec
          (graftBytes roots.1 roots.2) = .ok (graft roots.1 roots.2) ∧
        AcceptedForGossip sampleSsz idealPq oneElementCodec threeValidators.items
          (graftBytes roots.1 roots.2) := by
  decide +kernel

end Peam
