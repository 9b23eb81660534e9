import Peam.Laws.Proposal

/-!
# What becomes of the pending pool

Block production takes the whole pool before it knows whether a block will come of it. An entry with
a proof that is not stale goes into the block with that proof, up to the limit of a block. If no
block is produced the entries are gone, and if the store refuses the block they come back without
their proofs, so nothing of a failed proposal is left as it was (`attempts_unproven`).

So a pass that tries to propose keeps every such entry exactly if there is none, or if the block
goes in at the first attempt and has room for each of them (`pass_keepsProven_iff`).
-/

namespace Peam

variable {ssz : Ssz} {K : Type} {pair : Attestation × AggregatedSignatureProof}

/-! ## The payload -/

/-- The entries that go into a block with the proof they came with. -/
def provenPairs (finalizedSlot : Nat) (drained : List PendingBlockAttestation) :
    List (Attestation × AggregatedSignatureProof) :=
  (drained.filter fun entry => ¬ entry.attestation.data.target.slot < finalizedSlot).filterMap
    fun entry => entry.proof.map fun proof =>
      ({ entry.attestation with aggregationBits := proof.participants }, proof)

private theorem mem_provenPairs {finalizedSlot : Nat} {drained : List PendingBlockAttestation} :
    pair ∈ provenPairs finalizedSlot drained ↔
      ∃ entry ∈ drained, finalizedSlot ≤ entry.attestation.data.target.slot ∧
        entry.proof = some pair.2 ∧
        pair.1 = { entry.attestation with aggregationBits := pair.2.participants } := by
  unfold provenPairs
  constructor
  · intro h
    obtain ⟨entry, hentry, hpair⟩ := List.mem_filterMap.mp h
    obtain ⟨hdrained, hfresh⟩ := List.mem_filter.mp hentry
    obtain ⟨proof, hproof, rfl⟩ := Option.map_eq_some_iff.mp hpair
    exact ⟨entry, hdrained, by simpa using hfresh, hproof, rfl⟩
  · intro h
    obtain ⟨entry, hdrained, hfresh, hproof, hpair⟩ := h
    refine List.mem_filterMap.mpr ⟨entry, List.mem_filter.mpr ⟨hdrained, by simpa using hfresh⟩, ?_⟩
    rw [hproof, Option.map_some, ← hpair]

/-- An entry with a proof is in the payload exactly if it is among the first that fit a block, where
the proven ones fill it. -/
theorem mem_payload_iff {lib : LeanSig K} {keys : List (Option (KeyMaterial K))}
    {slot finalizedSlot : Nat} {drained : List PendingBlockAttestation}
    {pair : Attestation × AggregatedSignatureProof}
    (proven : pair ∈ provenPairs finalizedSlot drained) :
    pair ∈ (buildBlockAttestationPayload ssz lib keys slot finalizedSlot drained).1.1.zip
        (buildBlockAttestationPayload ssz lib keys slot finalizedSlot drained).1.2 ↔
      pair ∈ (provenPairs finalizedSlot drained).take attestationsLimit := by
  unfold buildBlockAttestationPayload
  dsimp only
  rw [← provenPairs]
  split
  · rw [List.zip_map', List.map_id']
  · next hroom =>
    have hall : (provenPairs finalizedSlot drained).take attestationsLimit =
        provenPairs finalizedSlot drained := List.take_of_length_le (by omega)
    rw [List.zip_map', List.map_id', hall]
    exact ⟨fun _ => proven, fun h => List.mem_append_left _ h⟩

/-! ## The block -/

/-- The proposer's key can sign, the pre-state takes a block and the attestations pass. -/
structure Produces (ssz : Ssz) (node : SigningNode K) (preState : State) (slot : Nat)
    (drained : List PendingBlockAttestation) : Prop where
  active : inRange (node.lib.activation node.localKey.secretKey) slot = true
  prepared : inRange (node.lib.prepared node.localKey.secretKey) slot = true
  takes : TakesBlock preState slot node.localIndex
  votes : VotesPass ssz node preState slot drained

private theorem signProposal_usable {node : SigningNode K} {slot : Nat} {data : AttestationData}
    {signature : Bytes3112} (h : (signProposal ssz node slot data).1 = .ok signature) :
    inRange (node.lib.activation node.localKey.secretKey) slot = true ∧
      inRange (node.lib.prepared node.localKey.secretKey) slot = true := by
  unfold signProposal at h
  split at h
  · cases h
  · next hactive =>
    split at h
    · cases h
    · next hprepared => exact ⟨not_not.mp hactive, not_not.mp hprepared⟩

namespace ProducerCells

variable {order : List Attestation → List Attestation} {node : SigningNode K}
  {cells : ProducerCells} {slot : Nat} {now : Option Nat}

/-- **When an attempt comes to a block.** -/
theorem produced_iff (signs : node.lib.Signs) (index : node.localIndex < validatorRegistryLimit) :
    (∃ signed post, cells.produced ssz order node slot = some (signed, post)) ↔
      Produces ssz node cells.preState slot cells.pending := by
  constructor
  · intro h
    obtain ⟨signed, post, hproduced⟩ := h
    have hvotes : VotesPass ssz node cells.preState slot cells.pending :=
      votesPass_of_produced (Option.isSome_iff_exists.mpr ⟨_, hproduced⟩)
    obtain ⟨_, _, _, _, _, -, -, -, -, hsign, -⟩ := produceBlockWithSignatures_iff.mp hproduced
    obtain ⟨hactive, hprepared⟩ := signProposal_usable hsign
    exact ⟨hactive, hprepared,
      (produceBlockWithSignatures_returns_iff signs hactive hprepared index hvotes).mp
        ⟨signed, post, hproduced⟩, hvotes⟩
  · intro produces
    exact (produceBlockWithSignatures_returns_iff signs produces.active produces.prepared index
      produces.votes).mpr produces.takes

variable {signed : SignedBlockWithAttestation} {post : State}

/-- The block of an attempt carries its payload, each attestation beside its proof. -/
theorem produced_pairs (h : cells.produced ssz order node slot = some (signed, post)) :
    (signed.message.block.body.attestations.items, signed.signature.attestationSignatures.items) =
      (buildBlockAttestationPayload ssz node.lib node.keys slot
        cells.preState.latestFinalized.slot cells.pending).1 := by
  obtain ⟨attestations, proofs, block, data, signature, hpayload, hfinish, -, -, -, rfl⟩ :=
    produceBlockWithSignatures_iff.mp h
  obtain ⟨stateRoot, rfl⟩ := finishBlock_spec hfinish
  exact hpayload

/-! ## The attempts -/

/-- An attempt empties the pool, and a refused block's attestations go back into it. -/
theorem attempts_pending_cases (left : Nat) :
    (cells.attempts ssz order node slot (left + 1)).2.pending = [] ∨
    ∃ attestations, (cells.attempts ssz order node slot (left + 1)).2.pending =
      (({ cells with pending := [] } : ProducerCells).requeueBlockAttestations attestations
        |>.attempts ssz order node slot left).2.pending := by
  rcases attempt_cases ssz order node cells slot with
    ⟨-, hrun⟩ | ⟨signed, post, -, -, hrun⟩ | ⟨signed, post, -, -, hrun, -⟩
  · exact .inl ((attempts_pending left).2 (by simp [hrun]))
  · exact .inr ⟨_, (attempts_pending left).1 signed (by rw [hrun])⟩
  · exact .inl ((attempts_pending left).2 (by simp [hrun]))

/-- **No proof is left in the pool** once a proposal was tried. -/
theorem attempts_unproven (left : Nat) :
    ∀ entry ∈ (cells.attempts ssz order node slot (left + 1)).2.pending, entry.proof = none := by
  induction left generalizing cells with
  | zero =>
    rcases @attempts_pending_cases ssz K order node cells slot 0 with hnil | ⟨attestations, hback⟩
    · rw [hnil]
      simp
    · rw [hback]
      intro entry hentry
      obtain ⟨attestation, -, rfl⟩ := List.mem_map.mp hentry
      rfl
  | succ left ih =>
    rcases @attempts_pending_cases ssz K order node cells slot (left + 1) with
      hnil | ⟨attestations, hback⟩
    · rw [hnil]
      simp
    · rw [hback]
      exact ih

/-- A block on the parent that the live state asks for goes in at the first attempt. -/
theorem attempts_of_produced (hsome : cells.produced ssz order node slot = some (signed, post))
    (parent : cells.OneParent ssz slot) :
    (cells.attempts ssz order node slot 2).1 = some signed ∧
      (cells.attempts ssz order node slot 2).2.store.signedRow
        (signed.message.block.hashTreeRoot ssz) = some signed := by
  have himported : (cells.attempt ssz order node slot).1 = .imported signed :=
    attempt_imported_iff.mpr ⟨⟨post, hsome⟩, parent⟩
  refine ⟨attempts_publishes_iff.mpr himported, ?_⟩
  rw [attempts_of_imported 1 himported]
  rcases attempt_cases ssz order node cells slot with
    ⟨hnone, -⟩ | ⟨_, _, -, hne, -⟩ | ⟨_, _, -, -, hrun, hstored⟩
  · cases hnone.symm.trans hsome
  · exact absurd parent hne
  · cases hrun.symm.trans himported
    exact hstored

/-! ## The pass -/

/-- The slot a pass tries to propose in, if it gets that far. -/
def proposalSlot (node : SigningNode K) (cells : ProducerCells) (now : Option Nat) : Option Nat :=
  now.bind fun now =>
    let slot := slotIndexFromUnixMillis node.genesisTimeSecs now
    let validatorCount := cells.live.validators.items.length
    if validatorCount ≠ 0 ∧ slot = cells.live.slot + 1 ∧ slot % validatorCount = node.localIndex
    then some slot else none

/-- A pass that is due makes two attempts at most. -/
theorem pass_eq (ssz : Ssz) (order : List Attestation → List Attestation) (node : SigningNode K)
    (cells : ProducerCells) (now : Option Nat) :
    cells.pass ssz order node now =
      match cells.proposalSlot node now with
      | none => (none, cells)
      | some slot => cells.attempts ssz order node slot 2 := by
  cases now with
  | none => rfl
  | some now =>
    simp only [pass, proposalSlot, Option.bind_some]
    generalize slotIndexFromUnixMillis node.genesisTimeSecs now = slot
    by_cases hcount : cells.live.validators.items.length = 0
    · simp [hcount]
    · by_cases hnext : slot = cells.live.slot + 1
      · have hlater : ¬ slot ≤ cells.live.slot := by omega
        by_cases hturn : slot % cells.live.validators.items.length = node.localIndex
        · simp only [hcount, hlater, hnext.symm, hturn, if_false, ne_eq, not_true_eq_false,
            not_false_eq_true, and_self, if_true]
        · simp [hcount, hlater, hnext.symm, hturn]
      · by_cases hlater : slot ≤ cells.live.slot
        · simp [hcount, hlater, hnext]
        · simp [hcount, hlater, hnext]

private theorem localIndex_lt (h : cells.proposalSlot node now = some slot) :
    node.localIndex < validatorRegistryLimit := by
  obtain ⟨time, -, h⟩ := Option.bind_eq_some_iff.mp h
  dsimp only at h
  split at h
  · next hguard =>
    obtain ⟨hcount, -, hturn⟩ := hguard
    rw [← hturn]
    exact (Nat.mod_lt _ (Nat.pos_of_ne_zero hcount)).trans_le cells.live.validators.bounded
  · cases h

/-- The pass loses no entry that came with a proof and is not stale: it is in the block that was
imported, beside its proof, or in the pool as it was. In a block an attestation has the participants
of its proof. -/
def KeepsProven (ssz : Ssz) (order : List Attestation → List Attestation) (node : SigningNode K)
    (cells : ProducerCells) (now : Option Nat) : Prop :=
  ∀ entry ∈ cells.pending, ∀ proof, entry.proof = some proof →
    cells.preState.latestFinalized.slot ≤ entry.attestation.data.target.slot →
    (∃ signed, (cells.pass ssz order node now).1 = some signed ∧
      (cells.pass ssz order node now).2.store.signedRow
        (signed.message.block.hashTreeRoot ssz) = some signed ∧
      ({ entry.attestation with aggregationBits := proof.participants }, proof) ∈
        signed.message.block.body.attestations.items.zip
          signed.signature.attestationSignatures.items) ∨
    entry ∈ (cells.pass ssz order node now).2.pending

/-- The entries a pass would take into its block as they are. -/
def proven (cells : ProducerCells) : List (Attestation × AggregatedSignatureProof) :=
  provenPairs cells.preState.latestFinalized.slot cells.pending

private theorem mem_produced_iff (hsome : cells.produced ssz order node slot = some (signed, post))
    (hpair : pair ∈ cells.proven) : pair ∈ signed.message.block.body.attestations.items.zip
        signed.signature.attestationSignatures.items ↔
      pair ∈ cells.proven.take attestationsLimit := by
  have hpayload := @mem_payload_iff ssz K node.lib node.keys slot _ _ pair hpair
  rw [← produced_pairs hsome] at hpayload
  exact hpayload

private theorem not_mem_pending_of_proof (trying : cells.proposalSlot node now = some slot)
    {entry : PendingBlockAttestation} {proof : AggregatedSignatureProof}
    (hproof : entry.proof = some proof) :
    entry ∉ (cells.pass ssz order node now).2.pending := by
  rw [pass_eq, trying]
  intro hentry
  have hnone := attempts_unproven 1 entry hentry
  rw [hproof] at hnone
  cases hnone

/-- A pass that tries to propose keeps exactly what is in a block it imports. -/
theorem keepsProven_iff_of_trying (trying : cells.proposalSlot node now = some slot) :
    KeepsProven ssz order node cells now ↔
      ∀ pair ∈ cells.proven, ∃ signed, (cells.attempts ssz order node slot 2).1 = some signed ∧
        (cells.attempts ssz order node slot 2).2.store.signedRow
          (signed.message.block.hashTreeRoot ssz) = some signed ∧
        pair ∈ signed.message.block.body.attestations.items.zip
          signed.signature.attestationSignatures.items := by
  have hpass : cells.pass ssz order node now = cells.attempts ssz order node slot 2 := by
    rw [pass_eq, trying]
  unfold KeepsProven
  constructor
  · intro keeps pair hpair
    obtain ⟨entry, hentry, hfresh, hproof, hbits⟩ := mem_provenPairs.mp hpair
    rcases keeps entry hentry pair.2 hproof hfresh with hblock | hpending
    · rw [hpass, ← hbits] at hblock
      exact hblock
    · exact absurd hpending (not_mem_pending_of_proof trying hproof)
  · intro keeps entry hentry proof hproof hfresh
    rw [hpass]
    exact .inl (keeps _ (mem_provenPairs.mpr ⟨entry, hentry, hfresh, hproof, rfl⟩))

/-- **When a pass loses nothing.** -/
theorem pass_keepsProven_iff (signs : node.lib.Signs) :
    KeepsProven ssz order node cells now ↔
      ∀ slot, cells.proposalSlot node now = some slot →
        cells.proven = [] ∨
        (Produces ssz node cells.preState slot cells.pending ∧ cells.OneParent ssz slot ∧
          ∀ pair ∈ cells.proven, pair ∈ cells.proven.take attestationsLimit) := by
  cases htrying : cells.proposalSlot node now with
  | none =>
    have hpass : cells.pass ssz order node now = (none, cells) := by rw [pass_eq, htrying]
    constructor
    · intro _ slot hslot
      cases hslot
    · intro _ entry hentry proof _ _
      rw [hpass]
      exact .inr hentry
  | some slot =>
    have hproduced := @produced_iff ssz K order node cells slot signs (localIndex_lt htrying)
    rw [keepsProven_iff_of_trying htrying]
    constructor
    · intro keeps slot' hslot
      cases hslot
      by_cases hnil : cells.proven = []
      · exact .inl hnil
      obtain ⟨first, hfirst⟩ := List.exists_mem_of_ne_nil _ hnil
      obtain ⟨signed, himported, -⟩ := keeps first hfirst
      obtain ⟨⟨post, hsome⟩, hparent⟩ :=
        attempt_imported_iff.mp (attempts_publishes_iff.mp himported)
      refine .inr ⟨hproduced.mp ⟨signed, post, hsome⟩, hparent, ?_⟩
      intro pair hpair
      obtain ⟨signed', himported', -, hmem⟩ := keeps pair hpair
      cases himported.symm.trans himported'
      exact (mem_produced_iff hsome hpair).mp hmem
    · intro h pair hpair
      rcases h slot rfl with hnil | ⟨produces, hparent, hroom⟩
      · rw [hnil] at hpair
        cases hpair
      · obtain ⟨signed, post, hsome⟩ := hproduced.mpr produces
        obtain ⟨himported, hstored⟩ := attempts_of_produced hsome hparent
        exact ⟨signed, himported, hstored, (mem_produced_iff hsome hpair).mpr (hroom pair hpair)⟩

/-! ## One vote in the pool -/

/-- A vote of two validators for a node's head, with a proof. -/
def provenVote (cells : ProducerCells) : PendingBlockAttestation where
  attestation := headVote 1 cells.shownForkChoice.head (voters 3 3#8)
  proof := some ⟨voters 3 3#8, ⟨[1#8]⟩⟩

/-- A node whose pool holds the vote. -/
def holdingVote (cells : ProducerCells) : ProducerCells :=
  { cells with pending := [cells.provenVote] }

/-- The pass of `oneBlock` in slot 3 puts the vote into its block. -/
theorem pass_keepsProven_oneBlock :
    oneBlock.holdingVote.proposalSlot sampleNode (some 12000) = some 3 ∧
      oneBlock.holdingVote.proven.length = 1 ∧
      KeepsProven anchorSsz id sampleNode oneBlock.holdingVote (some 12000) := by
  have htrying : oneBlock.holdingVote.proposalSlot sampleNode (some 12000) = some 3 := by
    decide +kernel
  have hlength : oneBlock.holdingVote.proven.length = 1 := by decide +kernel
  refine ⟨htrying, hlength, (pass_keepsProven_iff sampleLeanSig_signs).mpr ?_⟩
  intro slot hslot
  cases htrying.symm.trans hslot
  have hparent : headRootAt anchorSsz 3 oneBlock.holdingVote.preState =
      headRootAt anchorSsz 3 oneBlock.holdingVote.live := by decide +kernel
  refine .inr ⟨?_, hparent, ?_⟩
  · have hsome : (oneBlock.holdingVote.produced anchorSsz id sampleNode 3).isSome = true := by
      decide +kernel
    obtain ⟨⟨signed, post⟩, hproduced⟩ := Option.isSome_iff_exists.mp hsome
    exact (produced_iff sampleLeanSig_signs (localIndex_lt htrying)).mp ⟨signed, post, hproduced⟩
  · intro pair hpair
    rw [List.take_of_length_le (by rw [hlength]; decide)]
    exact hpair

/-- The block of slot 8 came in, and the key of the proposer of slot 9 ends there. -/
def lastEpoch : ProducerCells := started.childReceived 8

private theorem not_keepsProven_of_isNone (trying : cells.proposalSlot node now = some slot)
    (failed : (cells.attempts ssz order node slot 2).1.isNone = true)
    (some_proven : cells.proven.length = 1) : ¬ KeepsProven ssz order node cells now := by
  intro keeps
  obtain ⟨pair, hpair⟩ := List.exists_mem_of_length_pos (some_proven ▸ Nat.one_pos)
  obtain ⟨signed, hsigned, -⟩ := (keepsProven_iff_of_trying trying).mp keeps pair hpair
  rw [hsigned] at failed
  cases failed

/-- **Votes that are lost**: both attempts are refused, since the live state is not on the head, and
the vote comes back without its proof; and no block is produced, since the key is not active, and
nothing comes back. -/
theorem provenVote_lost :
    (¬ KeepsProven anchorSsz id sampleNode besideHead.holdingVote (some 12000) ∧
      (besideHead.holdingVote.pass anchorSsz id sampleNode (some 12000)).2.pending.map (·.proof) =
        [none]) ∧
    (¬ KeepsProven anchorSsz id sampleNode lastEpoch.holdingVote (some 36000) ∧
      (lastEpoch.holdingVote.pass anchorSsz id sampleNode (some 36000)).2.pending.length = 0) := by
  refine ⟨⟨?_, ?_⟩, ?_, ?_⟩
  · exact @not_keepsProven_of_isNone _ _ _ _ _ 3 _ (by decide +kernel) (by decide +kernel)
      (by decide +kernel)
  · decide +kernel
  · exact @not_keepsProven_of_isNone _ _ _ _ _ 9 _ (by decide +kernel) (by decide +kernel)
      (by decide +kernel)
  · decide +kernel

end ProducerCells

end Peam
