import Peam.Laws.Production
import Peam.Production

/-!
# When a proposal goes out

Block production builds on the state stored for the fork choice's head and imports against the live
state. A block comes out exactly if the stored state can take one of this slot (`TakesBlock`), and
it goes in exactly if both states name one parent (`attempt_imported_iff`). So of the proposals that
are due only those are published that find the live state one slot behind and on the fork choice's
head (`pass_publishes_iff`). The others end the turn without a block (`dueProposals_dropped`).

The signing model sees a pass as two proposal steps; `pass_pending` ties the two together.
-/

namespace Peam

open Calls (Outcome Mutation)
open Calls.Mutation (bind_ok failIf_ok)

variable {ssz : Ssz} {K : Type} {preState post : State} {block : Block}
  {drained : List PendingBlockAttestation}

/-! ## The block -/

/-- A state on which a block of this slot and proposer passes the header checks. -/
@[mk_iff]
structure TakesBlock (state : State) (slot proposer : Nat) : Prop where
  slot_le : state.slot ≤ slot
  later : state.latestBlockHeader.slot < slot
  turn : isProposerFor proposer slot state.validators.items.length = true
  room : state.historicalBlockHashes.items.length + (slot - state.latestBlockHeader.slot) ≤
    historicalRootsLimit

instance (state : State) (slot proposer : Nat) : Decidable (TakesBlock state slot proposer) :=
  decidable_of_iff' _ (takesBlock_iff state slot proposer)

variable {slot : Nat}

private theorem advanceTo_eq (ssz : Ssz) {state : State} (h : state.slot ≤ slot) :
    ∃ stateRoot, advanceTo ssz slot state =
      { state with
        slot, latestBlockHeader := { state.latestBlockHeader with stateRoot } } := by
  unfold advanceTo
  by_cases behind : state.slot < slot
  · obtain ⟨stateRoot, hloop⟩ := processSlotLoop_eq ssz (slot - state.slot) state
    rw [if_pos behind, hloop, Nat.add_sub_cancel' h]
    exact ⟨stateRoot, rfl⟩
  · obtain rfl : state.slot = slot := by omega
    rw [if_neg behind]
    exact ⟨_, rfl⟩

/-- A header on the state's own head is staged exactly if the state takes a block there. -/
theorem processBlockHeader_returns_iff {header : BlockHeader} {state : State}
    (parent : header.parentRoot = headRootAt ssz header.slot state) :
    (∃ staged, processBlockHeader ssz header (advanceTo ssz header.slot state) = .ok () staged) ↔
      TakesBlock state header.slot header.proposerIndex := by
  by_cases hslot : state.slot ≤ header.slot
  · rw [headRootAt] at parent
    obtain ⟨stateRoot, hadvanced⟩ := advanceTo_eq ssz hslot
    rw [hadvanced] at parent ⊢
    constructor
    · intro h
      obtain ⟨staged, h⟩ := h
      obtain ⟨_, _, hget, h⟩ := bind_ok.mp h
      cases hget
      obtain ⟨_, _, hcheck, h⟩ := bind_ok.mp h
      obtain ⟨-, rfl⟩ := failIf_ok.mp hcheck
      obtain ⟨hlater, hturn, -, list, hlist, -⟩ := processBlockHeaderAssumingSlot_ok h
      refine ⟨hslot, hlater, hturn, ?_⟩
      have hbound := list.bounded
      rw [hlist, List.length_append, List.length_cons, List.length_replicate] at hbound
      dsimp only at hbound hlater
      omega
    · intro takes
      obtain ⟨staged, hstaged⟩ := @processBlockHeaderAssumingSlot_returns ssz header
        { state with
          slot := header.slot
          latestBlockHeader := { state.latestBlockHeader with stateRoot } }
        takes.later takes.turn parent takes.room
      refine ⟨staged, bind_ok.mpr ⟨_, _, rfl, ?_⟩⟩
      exact bind_ok.mpr
        ⟨(), _, failIf_ok.mpr ⟨not_not.mpr rfl, rfl⟩, hstaged⟩
  · constructor
    · intro h
      obtain ⟨staged, h⟩ := h
      rw [advanceTo, if_neg (by omega)] at h
      obtain ⟨_, _, hget, h⟩ := bind_ok.mp h
      cases hget
      obtain ⟨_, _, hcheck, -⟩ := bind_ok.mp h
      have := (failIf_ok.mp hcheck).1
      omega
    · exact fun takes => absurd takes.slot_le hslot

/-- No pending attestation makes the transition of the drafted block fail. -/
def VotesPass (ssz : Ssz) (node : SigningNode K) (preState : State) (slot : Nat)
    (drained : List PendingBlockAttestation) : Prop :=
  ∀ (attestations : SszList Attestation attestationsLimit) (staged : State),
    attestations.items = (buildBlockAttestationPayload ssz node.lib node.keys slot
      preState.latestFinalized.slot drained).1.1 →
    processBlockHeader ssz ((draftBlock ssz node preState slot attestations).header ssz)
      (advanceTo ssz slot preState) = .ok () staged →
    ∃ after, processAttestations ssz attestations.items staged = .ok () after

variable {node : SigningNode K}

/-- With attestations that pass, the draft is finished exactly if the state takes a block. -/
theorem finishBlock_returns_iff
    {attestations : SszList Attestation attestationsLimit} (passes : ∀ staged,
      processBlockHeader ssz ((draftBlock ssz node preState slot attestations).header ssz)
      (advanceTo ssz slot preState) = .ok () staged →
      ∃ after, processAttestations ssz attestations.items staged = .ok () after) :
    (∃ block post, finishBlock ssz preState (draftBlock ssz node preState slot attestations) =
      some (block, post)) ↔ TakesBlock preState slot node.localIndex := by
  have header := @processBlockHeader_returns_iff ssz
    ((draftBlock ssz node preState slot attestations).header ssz) preState rfl
  refine Iff.trans ?_ header
  constructor
  · intro h
    obtain ⟨block, post, h⟩ := h
    unfold finishBlock at h
    split at h
    · cases h
    · next after hrun =>
      obtain ⟨_, staged, hheader, -⟩ := bind_ok.mp hrun
      exact ⟨staged, hheader⟩
  · intro h
    obtain ⟨staged, hheader⟩ := h
    obtain ⟨after, hafter⟩ := passes staged hheader
    have hbody : processBlockBody ssz (draftBlock ssz node preState slot attestations).body
        ((draftBlock ssz node preState slot attestations).header ssz).bodyRoot staged =
          .ok () after :=
      bind_ok.mpr ⟨(), staged, failIf_ok.mpr ⟨not_not.mpr rfl, rfl⟩, hafter⟩
    have hrun : (do
        processBlockHeader ssz ((draftBlock ssz node preState slot attestations).header ssz)
        processBlockBody ssz (draftBlock ssz node preState slot attestations).body
          ((draftBlock ssz node preState slot attestations).header ssz).bodyRoot :
        Mutation State Unit) (advanceTo ssz slot preState) = .ok () after :=
      bind_ok.mpr ⟨(), staged, hheader, hbody⟩
    unfold finishBlock
    split
    · next hfail => cases hrun.symm.trans hfail
    · exact ⟨_, _, rfl⟩

private theorem proposerData_returns {order : List Attestation → List Attestation}
    {forkChoice : Option ForkChoiceStore} (index : block.proposerIndex < validatorRegistryLimit)
    (sealing : post.latestBlockHeader.stateRoot = block.stateRoot) :
    ∃ data, proposerData ssz (forkChoiceApi ssz order) forkChoice block post = .ok data := by
  cases forkChoice with
  | none => exact ⟨_, rfl⟩
  | some fc =>
    have hplaceholder : placeholderSignedBlock ssz block = .ok (selfVoting ssz block) :=
      Outcome.bind_ok.mpr ⟨(), Outcome.failIf_ok.mpr (by omega), rfl⟩
    have hmatch : ForkChoiceStore.stateMatchesBlockRoot ssz post block.stateRoot = true := by
      simp [ForkChoiceStore.stateMatchesBlockRoot, sealing]
    have hpreview : ∃ preview,
        (forkChoiceApi ssz order).importPreview fc block post = .ok preview := by
      have himport : fc.importBlockInternal ssz (selfVoting ssz block) post false =
          (fc.importMatching ssz (selfVoting ssz block) post false).map .ok := if_pos hmatch
      cases hmatching : fc.importMatching ssz (selfVoting ssz block) post false with
      | none =>
        refine ⟨fc, Outcome.bind_ok.mpr ⟨_, hplaceholder, ?_⟩⟩
        rw [himport, hmatching]
        rfl
      | some preview =>
        refine ⟨preview, Outcome.bind_ok.mpr ⟨_, hplaceholder, ?_⟩⟩
        rw [himport, hmatching]
        rfl
    obtain ⟨preview, hpreview⟩ := hpreview
    exact ⟨_, Outcome.bind_ok.mpr ⟨preview, hpreview, rfl⟩⟩

private theorem finishBlock_sealed {draft : Block}
    (h : finishBlock ssz preState draft = some (block, post)) :
    post.latestBlockHeader.stateRoot = block.stateRoot := by
  unfold finishBlock at h
  split at h
  · cases h
  · cases h
    rfl

private theorem signProposal_returns (signs : node.lib.Signs)
    (active : inRange (node.lib.activation node.localKey.secretKey) slot = true)
    (prepared : inRange (node.lib.prepared node.localKey.secretKey) slot = true)
    (data : AttestationData) :
    ∃ signature, (signProposal ssz node slot data).1 = .ok signature := by
  rw [signProposal, if_neg (not_not.mpr active), if_neg (not_not.mpr prepared)]
  have hepoch := epoch_eq signs.toLawful active
  exact signMessage_inside signs (hepoch.symm ▸ active) (hepoch.symm ▸ prepared)
    (data.hashTreeRoot ssz)

/-- A proposer with a usable key and passing attestations produces a block exactly if the pre-state
takes one. -/
theorem produceBlockWithSignatures_returns_iff {order : List Attestation → List Attestation}
    {node : SigningNode K} {preState : State} {slot : Nat} {forkChoice : Option ForkChoiceStore}
    {drained : List PendingBlockAttestation} (signs : node.lib.Signs)
    (active : inRange (node.lib.activation node.localKey.secretKey) slot = true)
    (prepared : inRange (node.lib.prepared node.localKey.secretKey) slot = true)
    (index : node.localIndex < validatorRegistryLimit)
    (votes : VotesPass ssz node preState slot drained) :
    (∃ signed post, (produceBlockWithSignatures ssz (forkChoiceApi ssz order) node preState slot
      forkChoice drained).1 = some (signed, post)) ↔ TakesBlock preState slot node.localIndex := by
  constructor
  · intro h
    obtain ⟨signed, post, h⟩ := h
    obtain ⟨attestations, proofs, block, data, signature, hpayload, hfinish, -⟩ :=
      produceBlockWithSignatures_iff.mp h
    exact (finishBlock_returns_iff fun staged =>
      votes attestations staged (congrArg Prod.fst hpayload)).mp ⟨block, post, hfinish⟩
  · intro takes
    obtain ⟨block, post, hfinish⟩ := (finishBlock_returns_iff fun staged =>
      votes ⟨_⟩ staged rfl).mpr takes
    obtain ⟨stateRoot, hblock⟩ := finishBlock_spec hfinish
    have hindex : block.proposerIndex < validatorRegistryLimit := by
      rw [hblock]
      exact index
    obtain ⟨data, hdata⟩ := proposerData_returns hindex (finishBlock_sealed hfinish)
    obtain ⟨signature, hsign⟩ := signProposal_returns signs active prepared data
    exact ⟨_, post, produceBlockWithSignatures_iff.mpr
      ⟨_, ⟨_⟩, block, data, signature, rfl, hfinish, hdata, index, hsign, rfl⟩⟩

/-! ## The attempts -/

/-- The produced block names the head of the pre-state, and its post-state carries its root. -/
theorem produced_spec {F : Type} {api : ForkChoiceApi F}
    {forkChoice : Option F} {signed : SignedBlockWithAttestation}
    (h : (produceBlockWithSignatures ssz api node preState slot forkChoice drained).1 =
      some (signed, post)) : signed.message.block.slot = slot ∧
      signed.message.block.parentRoot = headRootAt ssz slot preState ∧
      post.latestBlockHeader.stateRoot = signed.message.block.stateRoot := by
  obtain ⟨attestations, proofs, block, data, signature, -, hfinish, -, -, -, rfl⟩ :=
    produceBlockWithSignatures_iff.mp h
  have hsealed := finishBlock_sealed hfinish
  obtain ⟨stateRoot, rfl⟩ := finishBlock_spec hfinish
  exact ⟨rfl, rfl, hsealed⟩

/-- The one check of the import that a produced block can fail is that of its parent. -/
theorem putPrevalidatedSignedBlock_cases {store : FileStore} {root : Bytes32}
    {signed : SignedBlockWithAttestation} {state post : State}
    (sealing : post.latestBlockHeader.stateRoot = signed.message.block.stateRoot) :
    (signed.message.block.parentRoot ≠ headRootAt ssz signed.message.block.slot state ∧
      store.putPrevalidatedSignedBlock ssz root signed state post = .error parentMismatch) ∨
    (signed.message.block.parentRoot = headRootAt ssz signed.message.block.slot state ∧
      ∃ store' state', store.putPrevalidatedSignedBlock ssz root signed state post =
        .ok (store', state') ∧ store'.signedRow root = some signed) := by
  by_cases hparent : signed.message.block.parentRoot ≠
      headRootAt ssz signed.message.block.slot state
  · refine .inl ⟨hparent, Outcome.bind_error.mpr (.inl ?_)⟩
    exact if_pos hparent
  · exact .inr ⟨not_not.mp hparent, _, _,
      Outcome.bind_ok.mpr ⟨(), Outcome.failIf_ok.mpr hparent,
        Outcome.bind_ok.mpr ⟨(), Outcome.failIf_ok.mpr fun h => h.1 sealing, rfl⟩⟩,
      AList.lookup_insert _⟩

namespace ProducerCells

variable {order : List Attestation → List Attestation} {node : SigningNode K}
  {cells : ProducerCells} {slot : Nat} {signed : SignedBlockWithAttestation}

/-- The block an attempt produces, with its post-state. -/
def produced (ssz : Ssz) (order : List Attestation → List Attestation) (node : SigningNode K)
    (cells : ProducerCells) (slot : Nat) : Option (SignedBlockWithAttestation × State) :=
  (produceBlockWithSignatures ssz (forkChoiceApi ssz order) node cells.preState slot
    cells.forkChoice cells.pending).1

/-- The stored state of the head and the live state ask for one parent. -/
def OneParent (ssz : Ssz) (cells : ProducerCells) (slot : Nat) : Prop :=
  headRootAt ssz slot cells.preState = headRootAt ssz slot cells.live

/-- **How an attempt ends.** -/
theorem attempt_cases (ssz : Ssz) (order : List Attestation → List Attestation)
    (node : SigningNode K) (cells : ProducerCells) (slot : Nat) :
    (cells.produced ssz order node slot = none ∧
      cells.attempt ssz order node slot = (.skipped, { cells with pending := [] })) ∨
    (∃ signed post, cells.produced ssz order node slot = some (signed, post) ∧
      ¬ cells.OneParent ssz slot ∧
      cells.attempt ssz order node slot =
        (.refused parentMismatch signed, { cells with pending := [] })) ∨
    (∃ signed post, cells.produced ssz order node slot = some (signed, post) ∧
      cells.OneParent ssz slot ∧
      (cells.attempt ssz order node slot).1 = .imported signed ∧
      (cells.attempt ssz order node slot).2.store.signedRow
        (signed.message.block.hashTreeRoot ssz) = some signed) := by
  cases hproduced : cells.produced ssz order node slot with
  | none =>
    refine .inl ⟨rfl, ?_⟩
    unfold produced at hproduced
    simp only [attempt, hproduced]
  | some block =>
    obtain ⟨signed, post⟩ := block
    obtain ⟨hslot, hparent, hsealed⟩ := produced_spec hproduced
    unfold produced at hproduced
    have hput := @putPrevalidatedSignedBlock_cases ssz cells.store
      (signed.message.block.hashTreeRoot ssz) signed cells.live post hsealed
    rw [hslot, hparent] at hput
    rcases hput with ⟨hne, hput⟩ | ⟨heq, store', live', hput, hstored⟩
    · refine .inr (.inl ⟨signed, post, rfl, hne, ?_⟩)
      simp only [attempt, hproduced, hput]
    · refine .inr (.inr ⟨signed, post, rfl, heq, ?_, ?_⟩)
      · simp only [attempt, hproduced, hput]
      · simp only [attempt, hproduced, hput]
        exact hstored

/-- **An attempt goes in exactly if both states name one parent.** -/
theorem attempt_imported_iff :
    (cells.attempt ssz order node slot).1 = .imported signed ↔
      (∃ post, cells.produced ssz order node slot = some (signed, post)) ∧
        cells.OneParent ssz slot := by
  rcases attempt_cases ssz order node cells slot with
    ⟨hnone, hrun⟩ | ⟨signed', post, hsome, hne, hrun⟩ | ⟨signed', post, hsome, heq, hrun, -⟩
  · simp [hnone, hrun]
  · simp [hrun, hne]
  · simp [hrun, hsome, heq, eq_comm]

/-- A first attempt that goes in is the last. -/
theorem attempts_of_imported (left : Nat)
    (h : (cells.attempt ssz order node slot).1 = .imported signed) :
    cells.attempts ssz order node slot (left + 1) =
      (some signed, (cells.attempt ssz order node slot).2) := by
  rw [attempts]
  generalize cells.attempt ssz order node slot = result at h ⊢
  obtain ⟨result, after⟩ := result
  cases h
  rfl

/-- The second attempt reads the states of the first, so it changes nothing about the outcome. -/
theorem attempts_publishes_iff :
    (cells.attempts ssz order node slot 2).1 = some signed ↔
      (cells.attempt ssz order node slot).1 = .imported signed := by
  rcases attempt_cases ssz order node cells slot with
    ⟨-, hrun⟩ | ⟨first, post, -, hne, hrun⟩ | ⟨first, post, -, -, hrun, -⟩
  · simp [attempts, hrun]
  · have hagain : ∀ again, ((({ cells with pending := [] } :
        ProducerCells).requeueBlockAttestations
          first.message.block.body.attestations.items).attempt ssz order node slot).1 ≠
            .imported again := by
      intro again h
      exact hne (attempt_imported_iff.mp h).2
    simp only [attempts, hrun, if_true]
    split
    · simp
    · next again _ h => exact absurd (congrArg Prod.fst h) (hagain again)
    · split <;> simp
  · rw [attempts_of_imported 1 hrun, hrun]
    simp

/-! ## The signing sites of a pass -/

/-- What an attempt reads. -/
def reads (cells : ProducerCells) : ProposalAttempt ForkChoiceStore :=
  ⟨cells.forkChoice, cells.preState, cells.live⟩

/-- An attempt leaves the pool to the signing sites as it leaves it to the task. -/
theorem attemptProposal_pending {signers : Signers K} (same : signers.pending = cells.pending)
    (first : Bool) :
    (∃ refused, (cells.attempt ssz order node slot).1 = .refused parentMismatch refused ∧
      (signers.attemptProposal ssz (forkChoiceApi ssz order) node slot first cells.reads).pending =
        refused.message.block.body.attestations.items.map (⟨·, none⟩) ∧
      (signers.attemptProposal ssz (forkChoiceApi ssz order) node slot first cells.reads).retrying =
        if first then some slot else none) ∨
    ((∀ e refused, (cells.attempt ssz order node slot).1 ≠ .refused e refused) ∧
      (signers.attemptProposal ssz (forkChoiceApi ssz order) node slot first cells.reads).pending =
        [] ∧
      (signers.attemptProposal ssz (forkChoiceApi ssz order) node slot first cells.reads).retrying =
        none) := by
  have hproduced : (produceBlockWithSignatures ssz (forkChoiceApi ssz order) node
      cells.reads.preState slot cells.reads.forkChoice signers.pending).1 =
        cells.produced ssz order node slot := by
    rw [same]
    rfl
  unfold Signers.attemptProposal
  dsimp only
  rw [hproduced]
  rcases attempt_cases ssz order node cells slot with
    ⟨hnone, hrun⟩ | ⟨signed, post, hsome, hne, hrun⟩ | ⟨signed, post, hsome, heq, hrun, -⟩
  · rw [hnone, hrun]
    refine .inr ⟨?_, rfl, rfl⟩
    intro e refused h
    cases h
  · obtain ⟨hslot, hparent, -⟩ := produced_spec hsome
    rw [hsome, hrun]
    dsimp only
    rw [if_pos (by rw [hslot, hparent]; exact hne)]
    exact .inl ⟨signed, rfl, rfl, rfl⟩
  · obtain ⟨hslot, hparent, -⟩ := produced_spec hsome
    rw [hsome, hrun]
    dsimp only
    rw [if_neg (by rw [hslot, hparent]; exact not_not.mpr heq)]
    refine .inr ⟨?_, rfl, rfl⟩
    intro e refused h
    cases h

private theorem attempt_pending (ssz : Ssz) (order : List Attestation → List Attestation)
    (node : SigningNode K) (cells : ProducerCells) (slot : Nat) :
    (cells.attempt ssz order node slot).2.pending = [] := by
  unfold attempt
  dsimp only
  split
  · rfl
  · split <;> rfl

/-- The pool after the loop, by the outcome of the attempt at hand. -/
theorem attempts_pending (left : Nat) :
    (∀ refused, (cells.attempt ssz order node slot).1 = .refused parentMismatch refused →
      (cells.attempts ssz order node slot (left + 1)).2.pending =
        (({ cells with pending := [] } : ProducerCells).requeueBlockAttestations
          refused.message.block.body.attestations.items |>.attempts ssz order node slot
            left).2.pending) ∧
    ((∀ e refused, (cells.attempt ssz order node slot).1 ≠ .refused e refused) →
      (cells.attempts ssz order node slot (left + 1)).2.pending = []) := by
  have hpending := attempt_pending ssz order node cells slot
  rw [attempts]
  constructor
  · intro refused h
    rcases attempt_cases ssz order node cells slot with
      ⟨-, hrun⟩ | ⟨signed, post, -, -, hrun⟩ | ⟨signed, post, -, -, hrun, -⟩
    · simp [hrun] at h
    · rw [hrun] at h ⊢
      cases h
      simp
    · simp [hrun] at h
  · intro h
    generalize cells.attempt ssz order node slot = result at h hpending ⊢
    obtain ⟨result, after⟩ := result
    cases result with
    | skipped => exact hpending
    | imported signed => exact hpending
    | refused e signed => exact absurd rfl (h e signed)

/-- **A pass is the two proposal steps of the signing sites** with the same reads: both leave the
same pool behind. -/
theorem pass_pending {signers : Signers K} (idle : signers.retrying = none)
    (same : signers.pending = cells.pending) (now : Option Nat) :
    (signers.run ssz (forkChoiceApi ssz order) node
      [.propose now cells.live cells.reads, .retry cells.reads]).pending =
      (cells.pass ssz order node now).2.pending := by
  have hidle : (signers.step ssz (forkChoiceApi ssz order) node (.retry cells.reads)).pending =
      cells.pending := by
    simp only [Signers.step, idle, same]
  simp only [Signers.run, List.foldl_cons, List.foldl_nil]
  rw [show signers.step ssz (forkChoiceApi ssz order) node (.propose now cells.live cells.reads) =
    signers.propose ssz (forkChoiceApi ssz order) node now cells.live cells.reads by
      simp [Signers.step, idle]]
  unfold Signers.propose pass
  cases now with
  | none => exact hidle
  | some now =>
    dsimp only
    split
    · exact hidle
    split
    · exact hidle
    split
    · exact hidle
    split
    · exact hidle
    rcases @attemptProposal_pending ssz K order node cells
        (slotIndexFromUnixMillis node.genesisTimeSecs now) signers same true with
      ⟨first, hfirst, hpending, hretry⟩ | ⟨hfirst, hpending, hretry⟩
    · rw [(attempts_pending 1).1 first hfirst]
      -- The second attempt: what it reads has not changed, and the pool is the requeued one.
      let again := ({ cells with pending := [] } : ProducerCells).requeueBlockAttestations
        first.message.block.body.attestations.items
      simp only [Signers.step, hretry, if_true]
      have hagain := @attemptProposal_pending ssz K order node again
        (slotIndexFromUnixMillis node.genesisTimeSecs now) _ hpending false
      rcases hagain with ⟨second, hsecond, hpending', -⟩ | ⟨hsecond, hpending', -⟩
      · rw [(attempts_pending 0).1 second hsecond]
        exact hpending'
      · rw [(attempts_pending 0).2 hsecond]
        exact hpending'
    · rw [(attempts_pending 1).2 hfirst]
      simp only [Signers.step, hretry, hpending]

/-! ## The pass -/

/-- A proposal is due: the clock's slot lies ahead of the live state and is this validator's, its
key can sign, and the pending attestations pass. -/
structure Due (ssz : Ssz) (node : SigningNode K) (cells : ProducerCells) (fc : ForkChoiceStore)
    (slot : Nat) : Prop where
  forkChoice : cells.forkChoice = some fc
  behind : cells.live.slot < slot
  turn : isProposerFor node.localIndex slot cells.live.validators.items.length = true
  active : inRange (node.lib.activation node.localKey.secretKey) slot = true
  prepared : inRange (node.lib.prepared node.localKey.secretKey) slot = true
  votes : VotesPass ssz node cells.preState slot cells.pending

/-- The pass publishes a block of the slot on the fork choice's head, and the store has it. -/
def Publishes (ssz : Ssz) (order : List Attestation → List Attestation) (node : SigningNode K)
    (cells : ProducerCells) (now : Nat) (fc : ForkChoiceStore) (slot : Nat) : Prop :=
  ∃ signed, (cells.pass ssz order node (some now)).1 = some signed ∧
    signed.message.block.slot = slot ∧ signed.message.block.parentRoot = fc.head ∧
    (cells.pass ssz order node (some now)).2.store.signedRow
      (signed.message.block.hashTreeRoot ssz) = some signed

/-- The live state is one slot behind, it and the stored state are on the fork choice's head, and
the stored state takes the block. -/
structure Aligned (ssz : Ssz) (node : SigningNode K) (cells : ProducerCells) (fc : ForkChoiceStore)
    (slot : Nat) : Prop where
  next : slot = cells.live.slot + 1
  live : headRootAt ssz slot cells.live = fc.head
  stored : headRootAt ssz slot cells.preState = fc.head
  takes : TakesBlock cells.preState slot node.localIndex

variable {fc : ForkChoiceStore} {now : Nat}

/-- A pass whose proposal is due ends early unless the live state is one slot behind. -/
theorem pass_of_due (due : Due ssz node cells fc slot)
    (clock : slotIndexFromUnixMillis node.genesisTimeSecs now = slot) :
    cells.pass ssz order node (some now) =
      if slot = cells.live.slot + 1 then cells.attempts ssz order node slot 2
      else (none, cells) := by
  have hturn := due.turn
  rw [isProposerFor] at hturn
  split at hturn
  · cases hturn
  · next hcount =>
    have hbehind := due.behind
    have hmod : slot % cells.live.validators.items.length = node.localIndex :=
      beq_iff_eq.mp hturn
    simp only [pass, clock, if_neg hcount, if_neg (by omega : ¬ slot ≤ cells.live.slot), hmod,
      ne_eq, not_true_eq_false, if_false, ite_not]

/-- **When a due proposal goes out.** -/
theorem pass_publishes_iff (signs : node.lib.Signs) (due : Due ssz node cells fc slot)
    (clock : slotIndexFromUnixMillis node.genesisTimeSecs now = slot) :
    Publishes ssz order node cells now fc slot ↔ Aligned ssz node cells fc slot := by
  have hindex : node.localIndex < validatorRegistryLimit := by
    have hturn := due.turn
    rw [isProposerFor] at hturn
    split at hturn
    · cases hturn
    · next hcount =>
      rw [← beq_iff_eq.mp hturn]
      exact (Nat.mod_lt slot (Nat.pos_of_ne_zero hcount)).trans_le cells.live.validators.bounded
  have hproduces := @produceBlockWithSignatures_returns_iff ssz K order node cells.preState slot
    cells.forkChoice cells.pending signs due.active due.prepared hindex due.votes
  rw [Publishes, pass_of_due due clock]
  by_cases hnext : slot = cells.live.slot + 1
  · rw [if_pos hnext]
    constructor
    · intro h
      obtain ⟨signed, hpublished, -, hparent, -⟩ := h
      obtain ⟨⟨post, hproduced⟩, hone⟩ :=
        attempt_imported_iff.mp (attempts_publishes_iff.mp hpublished)
      have hstored : headRootAt ssz slot cells.preState = fc.head :=
        (produced_spec hproduced).2.1.symm.trans hparent
      exact ⟨hnext, hone.symm.trans hstored, hstored, hproduces.mp ⟨signed, post, hproduced⟩⟩
    · intro aligned
      obtain ⟨signed, post, hproduced⟩ := hproduces.mpr aligned.takes
      have himported : (cells.attempt ssz order node slot).1 = .imported signed :=
        attempt_imported_iff.mpr ⟨⟨post, hproduced⟩, aligned.stored.trans aligned.live.symm⟩
      obtain ⟨hslot, hparent, -⟩ := produced_spec hproduced
      rw [attempts_of_imported 1 himported]
      refine ⟨signed, rfl, hslot, hparent.trans aligned.stored, ?_⟩
      rcases attempt_cases ssz order node cells slot with
        ⟨-, hrun⟩ | ⟨_, _, -, -, hrun⟩ | ⟨_, _, -, -, hrun, hblob⟩
      · simp [hrun] at himported
      · simp [hrun] at himported
      · cases hrun.symm.trans himported
        exact hblob
  · rw [if_neg hnext]
    constructor
    · intro h
      obtain ⟨signed, hpublished, -⟩ := h
      cases hpublished
    · exact fun aligned => absurd aligned.next hnext

/-! ## Three nodes in slot 3 -/

/-- Attestations that a produced block carries pass. -/
theorem votesPass_of_produced {F : Type} {api : ForkChoiceApi F} {forkChoice : Option F}
    (h : (produceBlockWithSignatures ssz api node preState slot forkChoice drained).1.isSome =
      true) : VotesPass ssz node preState slot drained := by
  intro attestations staged hitems hheader
  obtain ⟨⟨signed, post⟩, h⟩ := Option.isSome_iff_exists.mp h
  obtain ⟨attestations', _, block, _, _, hpayload, hfinish, -⟩ :=
    produceBlockWithSignatures_iff.mp h
  obtain rfl : attestations = attestations' :=
    congrArg SszList.mk (hitems.trans (congrArg Prod.fst hpayload).symm)
  unfold finishBlock at hfinish
  split at hfinish
  · cases hfinish
  · next after hrun =>
    obtain ⟨_, staged', hheader', hbody⟩ := bind_ok.mp hrun
    cases hheader.symm.trans hheader'
    obtain ⟨_, _, hcheck, hafter⟩ := bind_ok.mp hbody
    obtain ⟨-, rfl⟩ := failIf_ok.mp hcheck
    exact ⟨after, hafter⟩

/-- A node that started from the anchored genesis. -/
def started : ProducerCells :=
  match seedAnchorStoreAndForkChoice anchorSsz FileStore.fresh anchorGenesis with
  | .error _ => ⟨anchorGenesis, FileStore.fresh, none, []⟩
  | .ok (store, live, fc) => ⟨live, store, some fc, []⟩

/-- The node receives the block of a slot on top of its anchor. -/
def childReceived (cells : ProducerCells) (slot : Nat) : ProducerCells :=
  cells.handleGossipBlock anchorSsz noopSignatureVerifier
    (PlannedBlock.build anchorSsz ⟨slot, []⟩ started.live)

/-- Two of three validators vote for the fork choice's head. -/
def headVoted (cells : ProducerCells) : ProducerCells :=
  { cells with
    forkChoice := cells.forkChoice.bind fun fc =>
      (fc.onAttestation (headVote 1 fc.head (voters 3 3#8))).bind ForkChoiceStore.acceptNewVotes }

/-- One block, in slot 2. -/
def oneBlock : ProducerCells := started.childReceived 2

/-- The head is the block of slot 1, and the block of slot 2 on its side was imported last. -/
def besideHead : ProducerCells := (started.childReceived 1).headVoted.childReceived 2

/-- The fork choice of a node. -/
def shownForkChoice (cells : ProducerCells) : ForkChoiceStore :=
  cells.forkChoice.getD (anchoredStore anchorGenesis)

/-- The same, with a vote in the pool. -/
def voteWaiting : ProducerCells :=
  { besideHead with
    pending := [⟨headVote 1 besideHead.shownForkChoice.head (voters 3 3#8), none⟩] }

/-- Both attempts are refused for their parent, and the vote is in the pool again. -/
theorem pass_pending_voteWaiting :
    (({ Signers.initial with pending := voteWaiting.pending } : Signers Nat).run anchorSsz
      (forkChoiceApi anchorSsz id) sampleNode
      [.propose (some 12000) voteWaiting.live voteWaiting.reads, .retry voteWaiting.reads]).pending =
        (voteWaiting.pass anchorSsz id sampleNode (some 12000)).2.pending ∧
      (voteWaiting.pass anchorSsz id sampleNode (some 12000)).2.pending.map
        (setBits ·.attestation.aggregationBits) = [[0, 1]] :=
  ⟨pass_pending rfl rfl _, by decide +kernel⟩

private theorem due_of_checks {cells : ProducerCells}
    (forkChoice : cells.forkChoice.isSome = true) (behind : cells.live.slot < slot)
    (turn : isProposerFor node.localIndex slot cells.live.validators.items.length = true)
    (usable : (inRange (node.lib.activation node.localKey.secretKey) slot &&
      inRange (node.lib.prepared node.localKey.secretKey) slot) = true)
    (produces : (cells.produced anchorSsz id node slot).isSome = true) :
    Due anchorSsz node cells cells.shownForkChoice slot where
  forkChoice := by
    obtain ⟨fc, hfc⟩ := Option.isSome_iff_exists.mp forkChoice
    rw [shownForkChoice, hfc]
    rfl
  behind := behind
  turn := turn
  active := (Bool.and_eq_true_iff.mp usable).1
  prepared := (Bool.and_eq_true_iff.mp usable).2
  votes := votesPass_of_produced produces

/-- The law at `oneBlock`, in slot 3. -/
theorem pass_publishes_oneBlock :
    Publishes anchorSsz id sampleNode oneBlock 12000 oneBlock.shownForkChoice 3 := by
  have due : Due anchorSsz sampleNode oneBlock oneBlock.shownForkChoice 3 :=
    due_of_checks (by decide +kernel) (by decide +kernel) (by decide +kernel) (by decide +kernel)
      (by decide +kernel)
  apply (pass_publishes_iff sampleLeanSig_signs due (by decide +kernel)).mpr
  exact ⟨by decide +kernel, by decide +kernel, by decide +kernel, by decide +kernel⟩

private theorem not_publishes_of_isNone {cells : ProducerCells}
    (h : (cells.pass ssz order node (some now)).1.isNone = true) :
    ¬ Publishes ssz order node cells now fc slot := by
  intro publishes
  obtain ⟨signed, hsome, -⟩ := publishes
  rw [hsome] at h
  cases h

/-- **Due proposals that do not go out**: slots 1 and 2 were empty; and the block imported last is
not the head. -/
theorem dueProposals_dropped :
    (Due anchorSsz sampleNode started started.shownForkChoice 3 ∧
      ¬ Publishes anchorSsz id sampleNode started 12000 started.shownForkChoice 3) ∧
    (Due anchorSsz sampleNode besideHead besideHead.shownForkChoice 3 ∧
      besideHead.live.slot = 2 ∧ besideHead.shownForkChoice.headSlot = 1 ∧
      ¬ Publishes anchorSsz id sampleNode besideHead 12000 besideHead.shownForkChoice 3) := by
  refine ⟨⟨?_, ?_⟩, ?_, ?_, ?_, ?_⟩
  · apply due_of_checks <;> decide +kernel
  · apply not_publishes_of_isNone
    decide +kernel
  · apply due_of_checks <;> decide +kernel
  · decide +kernel
  · decide +kernel
  · apply not_publishes_of_isNone
    decide +kernel

end ProducerCells

end Peam
