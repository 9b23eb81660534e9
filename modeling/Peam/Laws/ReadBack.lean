import Peam.FileStore
import Peam.Verify
import Peam.Laws.Chain

/-!
# A state read back imports the same blocks

A validator's encoding leaves its balance out, so a state read back from the store has balances of
zero. Nothing in the transition looks at a balance: roots leave it out too, and signature checks
read public keys. A block that imports on a state therefore imports on what is read back of it, and
leaves what would be read back (`processSignedBlock_readBack`).
-/

namespace Peam

open Calls (Mutation)
open Calls.Mutation (Blind)

variable {ssz : Ssz}

/-- The loop over a state read back. -/
def AttestationLoop.readBack {n : Nat} (loop : AttestationLoop n) : AttestationLoop n :=
  { loop with state := loop.state.readBack }

@[simp] theorem State.length_readBack (state : State) :
    state.readBack.validators.items.length = state.validators.items.length :=
  List.length_map _

/-- A root leaves balances out. -/
@[simp] theorem State.hashTreeRoot_readBack (ssz : Ssz) (state : State) :
    state.readBack.hashTreeRoot ssz = state.hashTreeRoot ssz := by
  have hvalidators : state.readBack.validators.items.map (·.hashTreeRoot ssz) =
      state.validators.items.map (·.hashTreeRoot ssz) := by
    show (state.validators.items.map Validator.readBack).map _ = _
    rw [List.map_map]
    rfl
  rw [State.hashTreeRoot, hvalidators]
  rfl

/-! ## Slots and header -/

private theorem processSlot_readBack (state : State) :
    processSlot ssz state.readBack = (processSlot ssz state).readBack := by
  by_cases h : state.latestBlockHeader.stateRoot = Bytes32.zero
  · have h' : state.readBack.latestBlockHeader.stateRoot = Bytes32.zero := h
    rw [processSlot, processSlot, if_pos h, if_pos h', State.hashTreeRoot_readBack]
    rfl
  · have h' : ¬ state.readBack.latestBlockHeader.stateRoot = Bytes32.zero := h
    rw [processSlot, processSlot, if_neg h, if_neg h']
    rfl

private theorem processSlotLoop_readBack (count : Nat) (state : State) :
    processSlotLoop ssz count state.readBack = (processSlotLoop ssz count state).readBack := by
  induction count generalizing state with
  | zero => rfl
  | succ count ih => rw [processSlotLoop, processSlotLoop, processSlot_readBack, ih]

private theorem processSlots_blind (target : Nat) :
    Blind State.readBack (processSlots ssz target) := by
  intro state _ next h
  unfold processSlots at h ⊢
  split at h
  · cases h
  · rename_i hpast
    cases h
    show (if state.slot ≥ target then _ else
      EStateM.Result.ok () (processSlotLoop ssz (target - state.slot) state.readBack)) = _
    rw [if_neg hpast, processSlotLoop_readBack]

private theorem appendHistory_blind (parentRoot : Bytes32) (numEmptySlots : Nat) :
    Blind State.readBack (appendHistory ssz parentRoot numEmptySlots) := by
  refine .get_bind (fun _ => rfl) fun state => .bind (.lift _ _) fun pushed =>
    .bind (.modify fun _ => rfl) fun _ => ?_
  split
  · exact .bind (.lift _ _) fun _ => .modify fun _ => rfl
  · exact fun _ _ _ h => by cases h; rfl

private theorem processBlockHeaderAssumingSlot_blind (header : BlockHeader) :
    Blind State.readBack (processBlockHeaderAssumingSlot ssz header) := by
  refine .get_bind (fun state => ?_) fun state => ?_
  · rw [State.length_readBack]
    rfl
  · refine .bind (.failIf _ _ _) fun _ => .bind (.failIf _ _ _) fun _ => .bind (.failIf _ _ _)
      fun _ => .bind (.modify fun state => ?_) fun _ => .bind (appendHistory_blind _ _)
      fun _ => .modify fun _ => rfl
    unfold seedCheckpoints
    show (if state.latestBlockHeader.slot = 0 then _ else _) = State.readBack _
    split <;> rfl

/-! ## Attestations -/

section Loop

variable {n : Nat} {latestRoot : Bytes32} {slots : RapidHashMap Nat}

private theorem justifyTarget_blind (data : AttestationData) :
    Blind (AttestationLoop.readBack (n := n)) (justifyTarget slots data) := by
  intro loop _ loop' h
  unfold justifyTarget at h ⊢
  dsimp only at h ⊢
  split at h
  · cases h
  · rename_i window hset
    have hset' : setJustifiedSlot (loop.readBack.setLatestJustified data.target).state.justifiedSlots
        (loop.readBack.setLatestJustified data.target).finalizedSlot data.target.slot =
        .ok window := hset
    rw [hset']
    dsimp only
    split at h
    · rename_i hnext
      split at h
      · cases h
      · rename_i hmissing
        cases h
        rw [if_pos (by exact hnext), if_neg (by exact hmissing)]
        rfl
    · rename_i hnext
      cases h
      rw [if_neg (by exact hnext)]
      rfl

private theorem attestationStep_blind (att : Attestation) :
    Blind (AttestationLoop.readBack (n := n)) (attestationStep latestRoot slots att) := by
  intro loop _ loop' h
  have hread : isEligible latestRoot loop.readBack.state loop.readBack.finalizedSlot att.data =
      isEligible latestRoot loop.state loop.finalizedSlot att.data := rfl
  unfold attestationStep at h ⊢
  rw [hread]
  cases heligible : isEligible latestRoot loop.state loop.finalizedSlot att.data with
  | error e =>
    rw [heligible] at h
    cases h
  | ok eligible =>
    rw [heligible] at h
    cases eligible with
    | false =>
      cases h
      rfl
    | true =>
      dsimp only at h ⊢
      split at h
      · rename_i hfew
        cases h
        exact if_pos hfew
      · rename_i hmany
        exact (if_neg hmany).trans (justifyTarget_blind att.data h)

private theorem encodeJustificationVotes_blind (votes : RapidHashMap (Tally n)) :
    Blind State.readBack (encodeJustificationVotes ssz votes) := by
  refine .bind (.failIf _ _ _) fun _ => .bind (.failIf _ _ _) fun _ => ?_
  split
  · exact fun _ _ _ h => by cases h
  · exact .modify fun _ => rfl

end Loop

private theorem processAttestations_blind (attestations : List Attestation) :
    Blind State.readBack (processAttestations ssz attestations) := by
  intro state _ next h
  refine (processAttestations_iff (State.length_readBack state)).mpr ?_
  rcases (processAttestations_iff rfl).mp h with ⟨hzero, rfl⟩ | ⟨hzero, hroots, loop, hloop, hend⟩
  · exact .inl ⟨hzero, rfl⟩
  · refine .inr ⟨hzero, hroots, loop.readBack,
      Blind.forM (fun att => attestationStep_blind att) hloop, ?_⟩
    rcases hend with ⟨hvotes, rfl⟩ | ⟨votes, hvotes, hencode⟩
    · exact .inl ⟨hvotes, rfl⟩
    · exact .inr ⟨votes, hvotes, encodeJustificationVotes_blind votes hencode⟩

/-! ## Blocks -/

private theorem processBlockBody_blind (body : BlockBody) (expectedRoot : Bytes32) :
    Blind State.readBack (processBlockBody ssz body expectedRoot) :=
  .bind (.failIf _ _ _) fun _ => processAttestations_blind _

private theorem sealBlock_blind (block : Block) : Blind State.readBack (sealBlock ssz block) := by
  intro state _ next h
  unfold sealBlock at h ⊢
  obtain ⟨_, _, hget, h⟩ := Mutation.bind_ok.mp h
  cases hget
  obtain ⟨_, checked, hcheck, hset⟩ := Mutation.bind_ok.mp h
  obtain ⟨hroot, hchecked⟩ := Mutation.failIf_ok.mp hcheck
  rw [hchecked] at hset
  cases hset
  refine Mutation.bind_ok.mpr ⟨state.readBack, state.readBack, rfl, ?_⟩
  rw [State.hashTreeRoot_readBack]
  exact Mutation.bind_ok.mpr ⟨(), state.readBack, Mutation.failIf_ok.mpr ⟨hroot, rfl⟩, rfl⟩

private theorem stateTransitionInner_blind (block : Block) :
    Blind State.readBack (stateTransitionInner ssz block) :=
  .bind (processSlots_blind _) fun _ => .bind (processBlockHeaderAssumingSlot_blind _) fun _ =>
    .bind (processBlockBody_blind _ _) fun _ => sealBlock_blind block

/-- A verifier that does not look at balances. -/
def BalanceBlind (verifier : SignatureVerifier) : Prop :=
  ∀ signed state, verifier signed state.readBack = verifier signed state

/-- A verifier that accepts everything looks at nothing. -/
theorem noopSignatureVerifier_blind : BalanceBlind noopSignatureVerifier := fun _ _ => rfl

/-- **A block that imports on a state imports on what is read back of it.** -/
theorem processSignedBlock_readBack {verifier : SignatureVerifier} (blind : BalanceBlind verifier)
    {signed : SignedBlockWithAttestation} {state post : State}
    (imported : processSignedBlock ssz verifier signed state = .ok () post) :
    processSignedBlock ssz verifier signed state.readBack = .ok () post.readBack := by
  obtain ⟨hbasic, hverified, htransition⟩ := processSignedBlock_iff.mp imported
  refine processSignedBlock_iff.mpr ⟨hbasic, ?_, stateTransitionInner_blind _ htransition⟩
  rw [blind]
  exact hverified

/-! ## Signature checks -/

private theorem collectByteKeys_readBack (validators : List Validator) (bitLen base : Nat)
    (bits : List Nat) :
    collectByteKeys (validators.map Validator.readBack) bitLen base bits =
      collectByteKeys validators bitLen base bits := by
  induction bits with
  | nil => rfl
  | cons bit rest ih =>
    rw [collectByteKeys, collectByteKeys, ih, List.getElem?_map]
    cases validators[base + bit]? with
    | none => rfl
    | some validator => rfl

private theorem collectKeys_readBack (validators : List Validator) (bitLen byteIdx : Nat)
    (bytes : List Packed.Byte) :
    collectKeys (validators.map Validator.readBack) bitLen byteIdx bytes =
      collectKeys validators bitLen byteIdx bytes := by
  induction bytes generalizing byteIdx with
  | nil => rfl
  | cons byte rest ih => rw [collectKeys, collectKeys, collectByteKeys_readBack, ih]

private theorem verifyAttestations_readBack (pq : PqBackend) (validators : List Validator)
    (pairs : List (Attestation × AggregatedSignatureProof)) :
    verifyAttestations ssz pq (validators.map Validator.readBack) pairs =
      verifyAttestations ssz pq validators pairs := by
  induction pairs with
  | nil => rfl
  | cons pair rest ih =>
    rw [verifyAttestations, verifyAttestations, ih, verifyAttestation, collectKeys_readBack]
    rfl

/-- The verifier of the node reads public keys only. -/
theorem pqSignatureVerifier_blind (ssz : Ssz) (pq : PqBackend) :
    BalanceBlind (pqSignatureVerifier ssz pq) := by
  intro signed state
  unfold pqSignatureVerifier
  dsimp only
  have hvalidators : state.readBack.validators.items =
      state.validators.items.map Validator.readBack := rfl
  rw [hvalidators, verifyAttestations_readBack, List.getElem?_map]
  cases state.validators.items[signed.message.block.proposerIndex]? with
  | none => rfl
  | some proposer => rfl

end Peam
