import Peam.Laws.Chain
import Peam.Laws.Signing
import Peam.Laws.Verify

/-!
# What block production hands to the importer

Block production runs the header and the body on its own copy of the pre-state and fills in the
root it arrives at; the importer runs `state_transition_inner` and compares. Both pipelines stage
the same header, since the state root is cleared on staging, so the importer arrives at the same
root and seals the same state (`finishBlock_transition`). The payload builder rewrites the
participants of an attestation to those of its proof, which is what `validate_basic` asks of each
pair, and the proposer's bit list has the proposer's bit alone.
-/

namespace Peam

open Packed
open Calls (Outcome Mutation)

variable {ssz : Ssz} {K F : Type} {api : ForkChoiceApi F} {preState post : State} {block : Block}
  {forkChoice : Option F}

/-! ## The proposer's bit -/

private theorem singleSetBitScan_clear {data : List Byte} {clear rest : List Nat}
    {found : Option Nat}
    (inside : ∀ i ∈ clear, i / 8 < data.length) (unset : ∀ i ∈ clear, bitAt data i = false) :
    singleSetBitScan data (clear ++ rest) found = singleSetBitScan data rest found := by
  induction clear with
  | nil => rfl
  | cons i clear ih =>
    have hin := inside i List.mem_cons_self
    have hbit : (data.getD (i / 8) 0#8).getLsbD (i % 8) = false := unset i List.mem_cons_self
    rw [List.cons_append, singleSetBitScan, if_neg (by omega), hbit, if_neg (by simp)]
    apply ih
    · exact fun j hj => inside j (List.mem_cons_of_mem i hj)
    · exact fun j hj => unset j (List.mem_cons_of_mem i hj)

/-- The proposer's bit is found again. -/
theorem singleSetBit_singleBit (i : Nat) : singleSetBit (singleBit i) = some i := by
  have hlen : (setBit (List.replicate (i / 8 + 1) 0#8) i).length = i / 8 + 1 := by simp
  have hbits := fun j => bitAt_setBit (List.replicate (i / 8 + 1) 0#8) i j
  have hset : ((setBit (List.replicate (i / 8 + 1) 0#8) i).getD (i / 8) 0#8).getLsbD (i % 8) =
      true := by
    have := hbits i
    simpa [bitAt] using this
  unfold singleSetBit singleBit
  rw [List.range_succ, singleSetBitScan_clear]
  · simp only [singleSetBitScan, hlen, hset]
    simp
  · intro j hj
    have := List.mem_range.mp hj
    rw [hlen]
    omega
  · intro j hj
    have hne : i ≠ j := (List.mem_range.mp hj).ne'
    rw [hbits]
    simp [hne]

/-! ## The payload -/

/-- The attestations and proofs of a payload come in pairs of the same participants, and fit the
lists of a block. -/
structure Paired (payload : List Attestation × List AggregatedSignatureProof) : Prop where
  proven : BodyProven (fun _ _ => True) payload.1 payload.2
  fits : payload.1.length ≤ attestationsLimit

private theorem Paired.of_pairs {pairs : List (Attestation × AggregatedSignatureProof)}
    (same : ∀ pair ∈ pairs, pair.2.participants = pair.1.aggregationBits)
    (fits : pairs.length ≤ attestationsLimit) :
    Paired (pairs.map (·.1), pairs.map (·.2)) := by
  refine ⟨⟨by simp, ?_⟩, by simpa using fits⟩
  intro pair hpair
  rw [List.zip_map', List.map_id'] at hpair
  exact ⟨same pair hpair, trivial⟩

private theorem signPending_same {lib : LeanSig K} {keys : List (Option (KeyMaterial K))}
    {slot : Nat} {attestation : Attestation} {pair : Attestation × AggregatedSignatureProof}
    (h : (signPending ssz lib keys slot attestation).1 = some pair) :
    pair.2.participants = pair.1.aggregationBits := by
  unfold signPending at h
  dsimp only at h
  split at h
  · cases h
  · split at h
    · cases h
    · split at h
      · cases h
      · split at h
        · cases h
        · cases h
          rfl

private theorem buildBlockAttestationPayload_paired (ssz : Ssz) (lib : LeanSig K)
    (keys : List (Option (KeyMaterial K))) (slot finalizedSlot : Nat)
    (drained : List PendingBlockAttestation) :
    Paired (buildBlockAttestationPayload ssz lib keys slot finalizedSlot drained).1 := by
  unfold buildBlockAttestationPayload
  dsimp only
  generalize hfresh : (drained.filter fun entry =>
    ¬ entry.attestation.data.target.slot < finalizedSlot) = fresh
  generalize hproven : (fresh.filterMap fun entry => entry.proof.map fun proof =>
    (({ entry.attestation with aggregationBits := proof.participants } : Attestation), proof)) =
      proven
  have same : ∀ pair ∈ proven, pair.2.participants = pair.1.aggregationBits := by
    intro pair hpair
    rw [← hproven] at hpair
    obtain ⟨entry, -, hentry⟩ := List.mem_filterMap.mp hpair
    obtain ⟨proof, -, rfl⟩ := Option.map_eq_some_iff.mp hentry
    rfl
  split
  · apply Paired.of_pairs
    · exact fun pair hpair => same pair (List.mem_of_mem_take hpair)
    · exact List.length_take_le _ _
  · next hroom =>
    generalize haggregates : (aggregateAttestations ssz (fresh.filterMap fun entry =>
      if entry.proof.isNone then some entry.attestation else none)).take
        (attestationsLimit - proven.length) = aggregates
    apply Paired.of_pairs
    · intro pair hpair
      rcases List.mem_append.mp hpair with hpair | hpair
      · exact same pair hpair
      · obtain ⟨result, hresult, hpair⟩ := List.mem_filterMap.mp hpair
        obtain ⟨attestation, -, rfl⟩ := List.mem_map.mp hresult
        exact signPending_same hpair
    · have htake : aggregates.length ≤ attestationsLimit - proven.length := by
        rw [← haggregates]
        exact List.length_take_le _ _
      have hsigned := List.length_filterMap_le (·.1)
        (aggregates.map (signPending ssz lib keys slot))
      rw [List.length_map] at hsigned
      rw [List.length_append]
      omega

/-! ## The block -/

/-- The importer runs the finished block to the state production returned. -/
theorem finishBlock_transition {draft : Block} (ahead : preState.slot < draft.slot)
    (h : finishBlock ssz preState draft = some (block, post)) :
    stateTransitionInner ssz block preState = .ok () post := by
  unfold finishBlock at h
  split at h
  · cases h
  · next after hrun =>
    cases h
    rw [advanceTo, if_pos ahead] at hrun
    obtain ⟨_, staged, hheader, hbody⟩ := Mutation.bind_ok.mp hrun
    obtain ⟨_, _, hget, hheader⟩ := Mutation.bind_ok.mp hheader
    cases hget
    obtain ⟨_, _, hslot, hheader⟩ := Mutation.bind_ok.mp hheader
    obtain ⟨-, rfl⟩ := Mutation.failIf_ok.mp hslot
    refine Mutation.bind_ok.mpr ⟨(), _, if_neg (by simpa using ahead), ?_⟩
    -- Both pipelines stage the header with a cleared state root.
    refine Mutation.bind_ok.mpr ⟨(), staged, hheader, ?_⟩
    refine Mutation.bind_ok.mpr ⟨(), after, hbody, ?_⟩
    refine Mutation.bind_ok.mpr ⟨after, after, rfl, ?_⟩
    exact Mutation.bind_ok.mpr ⟨(), after, Mutation.failIf_ok.mpr ⟨not_not.mpr rfl, rfl⟩, rfl⟩

private theorem proposerData_slot {data : AttestationData}
    (h : proposerData ssz api forkChoice block post = .ok data) : data.slot = block.slot := by
  unfold proposerData at h
  split at h
  · unfold previewProposerAttestationData at h
    obtain ⟨_, _, h⟩ := Outcome.bind_ok.mp h
    cases h
    rfl
  · cases h
    rfl

/-- The block production starts from, before its state root is known. -/
def draftBlock (ssz : Ssz) (node : SigningNode K) (preState : State) (slot : Nat)
    (attestations : SszList Attestation attestationsLimit) : Block :=
  { slot, proposerIndex := node.localIndex, parentRoot := headRootAt ssz slot preState,
    stateRoot := Bytes32.zero, body := ⟨attestations⟩ }

/-- **What block production returns**: the finished draft with its payload's proofs, and the
proposer's attestation with its signature. -/
theorem produceBlockWithSignatures_iff {node : SigningNode K} {slot : Nat}
    {drained : List PendingBlockAttestation} {signed : SignedBlockWithAttestation} :
    (produceBlockWithSignatures ssz api node preState slot forkChoice drained).1 =
        some (signed, post) ↔
      ∃ (attestations : SszList Attestation attestationsLimit)
        (proofs : SszList AggregatedSignatureProof attestationsLimit)
        (block : Block) (data : AttestationData) (signature : Bytes3112),
        (attestations.items, proofs.items) =
          (buildBlockAttestationPayload ssz node.lib node.keys slot preState.latestFinalized.slot
            drained).1 ∧
        finishBlock ssz preState (draftBlock ssz node preState slot attestations) =
          some (block, post) ∧
        proposerData ssz api forkChoice block post = .ok data ∧
        node.localIndex < validatorRegistryLimit ∧
        (signProposal ssz node slot data).1 = .ok signature ∧
        signed = ⟨⟨block, ⟨singleBit node.localIndex, data⟩⟩, ⟨proofs, signature⟩⟩ := by
  unfold produceBlockWithSignatures
  have paired := buildBlockAttestationPayload_paired ssz node.lib node.keys slot
    preState.latestFinalized.slot drained
  generalize buildBlockAttestationPayload ssz node.lib node.keys slot preState.latestFinalized.slot
    drained = built at paired ⊢
  obtain ⟨⟨attestations, proofs⟩, log⟩ := built
  have hatts : attestations.length ≤ attestationsLimit := paired.fits
  have hproofs : proofs.length ≤ attestationsLimit := paired.proven.1 ▸ hatts
  dsimp only
  rw [(SszList.new_eq_ok ssz).mpr ⟨hatts, rfl⟩, (SszList.new_eq_ok ssz).mpr ⟨hproofs, rfl⟩]
  dsimp only
  constructor
  · intro h
    split at h
    · cases h
    · next block post hfinish =>
      split at h
      · cases h
      · next data hdata =>
        split at h
        · cases h
        · next hindex =>
          split at h
          · cases h
          · next signature more hsign =>
            cases h
            exact ⟨⟨attestations⟩, ⟨proofs⟩, block, data, signature, rfl, hfinish, hdata,
              by omega, by rw [hsign], rfl⟩
  · intro h
    obtain ⟨⟨_⟩, ⟨_⟩, block, data, signature, hpayload, hfinish, hdata, hindex, hsign, rfl⟩ := h
    cases hpayload
    rw [draftBlock] at hfinish
    rw [hfinish]
    dsimp only
    rw [hdata]
    dsimp only
    rw [if_neg (by omega)]
    generalize signProposal ssz node slot data = proposal at hsign ⊢
    obtain ⟨_, more⟩ := proposal
    cases hsign
    rfl

/-- **Producer and importer agree.** A produced block passes the structural checks, and with its
signatures accepted the import runs the pre-state to exactly the state production returned. -/
theorem produced_imports {node : SigningNode K} {preState post : State} {slot : Nat}
    {forkChoice : Option F} {drained : List PendingBlockAttestation}
    {signed : SignedBlockWithAttestation} (ahead : preState.slot < slot)
    (produced : (produceBlockWithSignatures ssz api node preState slot forkChoice drained).1 =
      some (signed, post)) :
    signed.validateBasic = .ok () ∧
      ∀ verifier : SignatureVerifier, verifier signed preState = .ok () →
        processSignedBlock ssz verifier signed preState = .ok () post := by
  obtain ⟨attestations, proofs, block, data, signature, hpayload, hfinish, hdata, -, -, rfl⟩ :=
    produceBlockWithSignatures_iff.mp produced
  have paired := buildBlockAttestationPayload_paired ssz node.lib node.keys slot
    preState.latestFinalized.slot drained
  rw [← hpayload] at paired
  obtain ⟨stateRoot, hblock⟩ := finishBlock_spec hfinish
  have basic : (⟨⟨block, ⟨singleBit node.localIndex, data⟩⟩, ⟨proofs, signature⟩⟩ :
      SignedBlockWithAttestation).validateBasic = .ok () := by
    apply (validateBasic_ok _).mpr
    refine ⟨⟨proposerData_slot hdata, ?_⟩, ?_⟩
    · rw [singleSetBit_singleBit, hblock]
      rfl
    · rw [hblock]
      exact paired.proven
  refine ⟨basic, fun verifier accepts => ?_⟩
  exact processSignedBlock_iff.mpr ⟨basic, accepts, finishBlock_transition ahead hfinish⟩

/-- Two votes for the block of slot 1: one with its proof, and one the proposer signs itself. -/
def pendingVotes : List PendingBlockAttestation :=
  let vote : Checkpoint := (soleHeadOf firstFork).head
  let data : AttestationData := ⟨2, vote, vote, (soleHeadOf firstFork).justified⟩
  [⟨⟨singleBit 1, data⟩, some ⟨singleBit 2, ⟨[1#8]⟩⟩⟩, ⟨⟨singleBit 0, data⟩, none⟩]

/-- The law at a payload of two votes. -/
theorem produced_imports_pendingVotes :
    ∃ signed post,
      (produceBlockWithSignatures sampleSsz soleHeadApi sampleNode firstFork 3
        (some (soleHeadOf firstFork)) pendingVotes).1 = some (signed, post) ∧
      signed.message.block.body.attestations.items.length = 2 ∧
      processSignedBlock sampleSsz noopSignatureVerifier signed firstFork = .ok () post := by
  have produced : ((produceBlockWithSignatures sampleSsz soleHeadApi sampleNode firstFork 3
      (some (soleHeadOf firstFork)) pendingVotes).1.map
        fun (signed, _) => signed.message.block.body.attestations.items.length) = some 2 := by
    decide +kernel
  obtain ⟨⟨signed, post⟩, hsome, hlength⟩ := Option.map_eq_some_iff.mp produced
  have ahead : firstFork.slot < 3 := by decide +kernel
  exact ⟨signed, post, hsome, hlength, (produced_imports ahead hsome).2 _ rfl⟩

end Peam
