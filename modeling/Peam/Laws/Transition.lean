import Peam.Chain

/-!
# What each step of the transition does

One inversion lemma per function of the transition, with its guards: the slot loop
(`processSlotLoop_eq`), the staged header (`stageBlock_ok`), the checks of an attestation
(`isEligible_true_iff`, `isEligible_error_iff`), one pass of the loop (`attestationStep_cases`) and
the import (`processSignedBlock_ok`). Every invariant of a chain is proved from these and unfolds
nothing.
-/

namespace Peam

open Calls (Failure Outcome)
open Calls.Mutation (bind_ok lift_ok failIf_ok)

variable {ssz : Ssz} {state' staged : State} {header : BlockHeader} {failure : Failure}

/-! ## Slots and header -/

/-- Slot processing advances the slot and may fill in the header's state root. -/
theorem processSlotLoop_eq (ssz : Ssz) (count : Nat) (state : State) :
    ∃ stateRoot, processSlotLoop ssz count state =
      { state with
        slot := state.slot + count
        latestBlockHeader := { state.latestBlockHeader with stateRoot } } := by
  induction count generalizing state with
  | zero => exact ⟨state.latestBlockHeader.stateRoot, rfl⟩
  | succ count ih =>
    obtain ⟨stateRoot, hloop⟩ := ih (processSlot ssz state)
    rw [processSlotLoop, hloop]
    refine ⟨stateRoot, ?_⟩
    have hslot : state.slot + 1 + count = state.slot + (count + 1) := by omega
    unfold processSlot
    split <;> simp [hslot]

variable {state : State}

private theorem appendHistory_ok {parentRoot : Bytes32} {numEmptySlots : Nat}
    (h : appendHistory ssz parentRoot numEmptySlots state = .ok () state') :
    ∃ list : LimitedList Bytes32 historicalRootsLimit,
      list.items = state.historicalBlockHashes.items ++ parentRoot ::
        List.replicate numEmptySlots Bytes32.zero ∧
      state' = { state with historicalBlockHashes := list } := by
  unfold appendHistory at h
  rw [bind_ok] at h
  obtain ⟨s, t, hget, h⟩ := h
  cases hget
  rw [bind_ok] at h
  obtain ⟨pushed, t, hpush, h⟩ := h
  obtain ⟨hpush, rfl⟩ := lift_ok.mp hpush
  have hpushed := LimitedList.new_ok ssz hpush
  rw [bind_ok] at h
  obtain ⟨_, t, hset, h⟩ := h
  cases hset
  split at h
  · obtain ⟨extended, t, hextend, h⟩ := bind_ok.mp h
    obtain ⟨hnew, rfl⟩ := lift_ok.mp hextend
    have hextended := LimitedList.new_ok ssz hnew
    cases h
    refine ⟨extended, ?_, rfl⟩
    rw [hextended, hpushed, List.append_assoc, List.singleton_append]
  · rename_i hnone
    cases h
    refine ⟨pushed, ?_, rfl⟩
    rw [hpushed, Nat.eq_zero_of_not_pos hnone, List.replicate_zero]

private theorem appendHistory_returns {parentRoot : Bytes32} {numEmptySlots : Nat} {state : State}
    (room : state.historicalBlockHashes.items.length + 1 + numEmptySlots ≤ historicalRootsLimit) :
    ∃ state', appendHistory ssz parentRoot numEmptySlots state = .ok () state' := by
  have hpush : (state.historicalBlockHashes.items ++ [parentRoot]).length ≤
      historicalRootsLimit := by
    simp only [List.length_append, List.length_singleton]
    omega
  have hextend : (state.historicalBlockHashes.items ++ [parentRoot] ++
      List.replicate numEmptySlots Bytes32.zero).length ≤ historicalRootsLimit := by
    simp only [List.length_append, List.length_singleton, List.length_replicate]
    omega
  by_cases empty : numEmptySlots > 0
  · refine ⟨{ state with historicalBlockHashes := ⟨_, hextend⟩ },
      bind_ok.mpr ⟨state, state, rfl, ?_⟩⟩
    refine bind_ok.mpr
      ⟨_, state, lift_ok.mpr ⟨LimitedList.new_of_le ssz hpush, rfl⟩, ?_⟩
    refine bind_ok.mpr ⟨(), _, rfl, ?_⟩
    rw [if_pos empty]
    exact bind_ok.mpr
      ⟨_, _, lift_ok.mpr ⟨LimitedList.new_of_le ssz hextend, rfl⟩, rfl⟩
  · refine ⟨{ state with historicalBlockHashes := ⟨_, hpush⟩ },
      bind_ok.mpr ⟨state, state, rfl, ?_⟩⟩
    refine bind_ok.mpr
      ⟨_, state, lift_ok.mpr ⟨LimitedList.new_of_le ssz hpush, rfl⟩, ?_⟩
    refine bind_ok.mpr ⟨(), _, rfl, ?_⟩
    rw [if_neg empty]
    rfl

/-- The header checks and what a header that passes them does. -/
theorem processBlockHeaderAssumingSlot_ok
    (h : processBlockHeaderAssumingSlot ssz header state = .ok () state') :
    state.latestBlockHeader.slot < header.slot ∧
      isProposerFor header.proposerIndex state.slot state.validators.items.length = true ∧
      header.parentRoot = state.latestBlockHeader.hashTreeRoot ssz ∧
      ∃ list : LimitedList Bytes32 historicalRootsLimit,
        list.items = state.historicalBlockHashes.items ++ header.parentRoot ::
          List.replicate (header.slot - state.latestBlockHeader.slot - 1) Bytes32.zero ∧
        state' = stageHeader header
          { seedCheckpoints header.parentRoot state with historicalBlockHashes := list } := by
  unfold processBlockHeaderAssumingSlot at h
  rw [bind_ok] at h
  obtain ⟨s, t, hget, h⟩ := h
  cases hget
  rw [bind_ok] at h
  obtain ⟨_, t, hslot, h⟩ := h
  obtain ⟨hslot, rfl⟩ := failIf_ok.mp hslot
  rw [bind_ok] at h
  obtain ⟨_, t, hproposer, h⟩ := h
  obtain ⟨hproposer, rfl⟩ := failIf_ok.mp hproposer
  rw [bind_ok] at h
  obtain ⟨_, t, hparent, h⟩ := h
  obtain ⟨hparent, rfl⟩ := failIf_ok.mp hparent
  rw [bind_ok] at h
  obtain ⟨_, t', hseed, h⟩ := h
  cases hseed
  rw [bind_ok] at h
  obtain ⟨_, t', happend, h⟩ := h
  obtain ⟨list, hlist, rfl⟩ := appendHistory_ok happend
  cases h
  have hhist : (seedCheckpoints header.parentRoot t).historicalBlockHashes =
      t.historicalBlockHashes := by
    unfold seedCheckpoints
    split <;> rfl
  rw [hhist] at hlist
  exact ⟨Nat.lt_of_not_le hslot, not_not.mp hproposer, not_not.mp hparent, list, hlist, rfl⟩

/-- A header that passes the checks is staged when the history has room. -/
theorem processBlockHeaderAssumingSlot_returns {header : BlockHeader} {state : State}
    (later : state.latestBlockHeader.slot < header.slot)
    (proposer : isProposerFor header.proposerIndex state.slot state.validators.items.length = true)
    (parent : header.parentRoot = state.latestBlockHeader.hashTreeRoot ssz)
    (room : state.historicalBlockHashes.items.length +
      (header.slot - state.latestBlockHeader.slot) ≤ historicalRootsLimit) :
    ∃ staged, processBlockHeaderAssumingSlot ssz header state = .ok () staged := by
  have hhist : (seedCheckpoints header.parentRoot state).historicalBlockHashes =
      state.historicalBlockHashes := by
    unfold seedCheckpoints
    split <;> rfl
  have hroom : (seedCheckpoints header.parentRoot state).historicalBlockHashes.items.length + 1 +
      (header.slot - state.latestBlockHeader.slot - 1) ≤ historicalRootsLimit := by
    rw [hhist]
    omega
  obtain ⟨appended, happend⟩ :=
    @appendHistory_returns ssz header.parentRoot _ _ hroom
  refine ⟨stageHeader header appended, bind_ok.mpr ⟨state, state, rfl, ?_⟩⟩
  refine bind_ok.mpr ⟨(), state, failIf_ok.mpr ⟨by omega, rfl⟩, ?_⟩
  refine bind_ok.mpr ⟨(), state, failIf_ok.mpr ⟨not_not.mpr proposer, rfl⟩, ?_⟩
  refine bind_ok.mpr ⟨(), state, failIf_ok.mpr ⟨not_not.mpr parent, rfl⟩, ?_⟩
  refine bind_ok.mpr ⟨(), _, rfl, ?_⟩
  exact bind_ok.mpr ⟨(), appended, happend, rfl⟩

/-- What the chain looks like right after a header was staged on `state`. -/
structure StagedOn (ssz : Ssz) (state : State) (header : BlockHeader) (staged : State) : Prop where
  validators_ne : state.validators.items.length ≠ 0
  slot_lt : state.slot < header.slot
  header_lt : state.latestBlockHeader.slot < header.slot
  parentRoot_eq : header.parentRoot =
    (processSlotLoop ssz (header.slot - state.slot) state).latestBlockHeader.hashTreeRoot ssz
  slot_eq : staged.slot = header.slot
  header_eq : staged.latestBlockHeader = header.staged
  history_eq : staged.historicalBlockHashes.items =
    state.historicalBlockHashes.items ++ header.parentRoot ::
      List.replicate (header.slot - state.latestBlockHeader.slot - 1) Bytes32.zero
  validators_eq : staged.validators = state.validators
  roots_eq : staged.justificationsRoots = state.justificationsRoots
  votes_eq : staged.justificationsValidators = state.justificationsValidators
  justified_eq : staged.latestJustified =
    if state.latestBlockHeader.slot = 0 then ⟨header.parentRoot, state.latestJustified.slot⟩
    else state.latestJustified
  finalized_eq : staged.latestFinalized =
    if state.latestBlockHeader.slot = 0 then ⟨header.parentRoot, state.latestFinalized.slot⟩
    else state.latestFinalized
  window_eq : staged.justifiedSlots =
    extendJustifiedSlots state.justifiedSlots state.latestFinalized.slot header.slot

/-- Staging finalizes nothing. -/
theorem StagedOn.finalizedSlot_eq {ssz : Ssz} (h : StagedOn ssz state header staged) :
    staged.latestFinalized.slot = state.latestFinalized.slot := by
  rw [h.finalized_eq]
  split <;> rfl

/-- What staging a block leaves. -/
theorem stageBlock_ok (h : stageBlock ssz header state = .ok () staged) :
    StagedOn ssz state header staged := by
  unfold stageBlock at h
  rw [bind_ok] at h
  obtain ⟨_, advanced, hslots, h⟩ := h
  unfold processSlots at hslots
  split at hslots
  · cases hslots
  · rename_i hfuture
    cases hslots
    obtain ⟨hlt, hproposer, hparent, list, hlist, rfl⟩ := processBlockHeaderAssumingSlot_ok h
    obtain ⟨stateRoot, hloop⟩ := processSlotLoop_eq ssz (header.slot - state.slot) state
    have hslot : state.slot + (header.slot - state.slot) = header.slot := by omega
    have hslotLt : state.slot < header.slot := Nat.lt_of_not_ge hfuture
    rw [hloop] at hlt hlist hproposer
    have hvalidators : state.validators.items.length ≠ 0 := by
      intro hzero
      simp [isProposerFor, hzero] at hproposer
    refine ⟨hvalidators, hslotLt, hlt, hparent, ?_, rfl, hlist, ?_, ?_, ?_, ?_, ?_, ?_⟩
    all_goals
      simp only [hloop, stageHeader, seedCheckpoints]
      split <;> simp [hslot]

/-- The history only grows at its end. -/
theorem StagedOn.history_grows (hstaged : StagedOn ssz state header staged)
    {slot : Nat} {root : Bytes32} (hget : state.historicalBlockHashes.items[slot]? = some root) :
    staged.historicalBlockHashes.items[slot]? = some root := by
  rw [hstaged.history_eq, List.getElem?_append_left (List.getElem?_eq_some_iff.mp hget).1]
  exact hget

/-! ## Eligibility -/

/-- The first four checks, which do not look at the votes or the finalized slot. -/
structure Matches (latestRoot : Bytes32) (state : State) (data : AttestationData) : Prop where
  source_lt_target : data.source.slot < data.target.slot
  source_root_ne : data.source.root ≠ Bytes32.zero
  target_root_ne : data.target.root ≠ Bytes32.zero
  source_matches : state.historicalBlockHashes.items[data.source.slot]? = some data.source.root
  target_matches :
    state.historicalBlockHashes.items[data.target.slot]? = some data.target.root ∨
      data.target.slot = state.historicalBlockHashes.items.length ∧
        data.target.slot = state.latestBlockHeader.slot ∧ data.target.root = latestRoot

/-- All checks of the loop body. -/
structure Eligible (latestRoot : Bytes32) (state : State) (finalizedSlot : Nat)
    (data : AttestationData) : Prop extends Matches latestRoot state data where
  justifiable : isJustifiableAfter data.target.slot finalizedSlot = .ok true
  target_open : isSlotJustified state.justifiedSlots finalizedSlot data.target.slot = false
  source_justified : isSlotJustified state.justifiedSlots finalizedSlot data.source.slot = true

section Eligible

variable (latestRoot : Bytes32) (state : State) (finalizedSlot : Nat) (data : AttestationData)

/-- Either the first four checks fail and the attestation is skipped, or they hold and the rest
decides. -/
private theorem isEligible_cases :
    (¬ Matches latestRoot state data ∧
      isEligible latestRoot state finalizedSlot data = .ok false) ∨
    (Matches latestRoot state data ∧
      isEligible latestRoot state finalizedSlot data =
        (isJustifiableAfter data.target.slot finalizedSlot).bind fun justifiable =>
          .ok (justifiable &&
            (!isSlotJustified state.justifiedSlots finalizedSlot data.target.slot &&
              isSlotJustified state.justifiedSlots finalizedSlot data.source.slot))) := by
  unfold isEligible
  split
  · rename_i hslots
    exact .inl ⟨fun m => Nat.not_lt.mpr hslots m.source_lt_target, rfl⟩
  · rename_i hslots
    split
    · rename_i hzero
      exact .inl ⟨fun m => hzero.elim m.source_root_ne m.target_root_ne, rfl⟩
    · rename_i hzero
      split
      · rename_i hsource
        exact .inl ⟨fun m => hsource (decide_eq_true m.source_matches), rfl⟩
      · rename_i hsource
        split
        · rename_i htarget
          exact .inl ⟨fun m => htarget (decide_eq_true m.target_matches), rfl⟩
        · rename_i htarget
          rw [not_or] at hzero
          rw [not_not] at hsource htarget
          refine .inr ⟨⟨Nat.lt_of_not_le hslots, hzero.1, hzero.2, of_decide_eq_true hsource,
            of_decide_eq_true htarget⟩, ?_⟩
          simp only [bind, Except.bind, pure, Except.pure]
          cases isJustifiableAfter data.target.slot finalizedSlot with
          | error e => rfl
          | ok justifiable =>
            cases justifiable <;>
              cases isSlotJustified state.justifiedSlots finalizedSlot data.target.slot <;>
              cases isSlotJustified state.justifiedSlots finalizedSlot data.source.slot <;> rfl

variable {latestRoot state finalizedSlot data}

/-- **An attestation is counted exactly when all checks hold.** -/
theorem isEligible_true_iff :
    isEligible latestRoot state finalizedSlot data = .ok true ↔
      Eligible latestRoot state finalizedSlot data := by
  rcases isEligible_cases latestRoot state finalizedSlot data with ⟨hno, heq⟩ | ⟨hyes, heq⟩
  · rw [heq]
    constructor
    · intro h
      cases h
    · intro e
      exact absurd e.toMatches hno
  · rw [heq]
    constructor
    · intro h
      obtain ⟨b, hb, hrest⟩ := Outcome.bind_ok.mp h
      simp only [Except.ok.injEq, Bool.and_eq_true, Bool.not_eq_true'] at hrest
      obtain ⟨rfl, hopen, hsource⟩ := hrest
      exact ⟨hyes, hb, hopen, hsource⟩
    · intro e
      rw [e.justifiable]
      simp [Except.bind, e.target_open, e.source_justified]

/-- **The loop body fails in its checks exactly on a matching attestation whose target lies below
the finalized slot.** -/
theorem isEligible_error_iff : isEligible latestRoot state finalizedSlot data = .error failure ↔
      Matches latestRoot state data ∧ data.target.slot < finalizedSlot ∧
        failure = .err "candidate slot must be >= finalized slot" := by
  rcases isEligible_cases latestRoot state finalizedSlot data with ⟨hno, heq⟩ | ⟨hyes, heq⟩
  · simp [heq, hno]
  · rw [heq, ← isJustifiableAfter_error_iff]
    simp only [hyes, true_and]
    cases isJustifiableAfter data.target.slot finalizedSlot with
    | error e => simp [Except.bind]
    | ok b => simp [Except.bind]

end Eligible

/-! ## One pass of the loop -/

section Step

variable {n : Nat} {latestRoot : Bytes32} {slots : RapidHashMap Nat} {att : Attestation}
  {loop loop' : AttestationLoop n}

/-- The loop after a target was justified and before its source is finalized. -/
def AttestationLoop.justify (loop : AttestationLoop n) (att : Attestation)
    (window : JustifiedSlots) : AttestationLoop n :=
  ((loop.recordVote att).setLatestJustified att.data.target).closeTarget att.data.target window

/-- The four ways a pass of the loop succeeds, with the history each one adds. -/
inductive AttestationStep (latestRoot : Bytes32) (slots : RapidHashMap Nat) (att : Attestation)
    (loop : AttestationLoop n) : AttestationLoop n → History → Prop
  | skipped : ¬ Eligible latestRoot loop.state loop.finalizedSlot att.data →
      AttestationStep latestRoot slots att loop loop History.empty
  | counted : Eligible latestRoot loop.state loop.finalizedSlot att.data →
      3 * (loop.mergedTally att).count < 2 * n →
      AttestationStep latestRoot slots att loop (loop.recordVote att) ⟨[], [att], [], []⟩
  | justified {window} : Eligible latestRoot loop.state loop.finalizedSlot att.data →
      2 * n ≤ 3 * (loop.mergedTally att).count →
      setJustifiedSlot loop.state.justifiedSlots loop.finalizedSlot att.data.target.slot =
        .ok window →
      isNextValidJustifiableSlot att.data.source.slot att.data.target.slot loop.finalizedSlot =
        false →
      AttestationStep latestRoot slots att loop (loop.justify att window)
        ⟨[], [att], [att.data.target], []⟩
  | finalized {window} : Eligible latestRoot loop.state loop.finalizedSlot att.data →
      2 * n ≤ 3 * (loop.mergedTally att).count →
      setJustifiedSlot loop.state.justifiedSlots loop.finalizedSlot att.data.target.slot =
        .ok window →
      isNextValidJustifiableSlot att.data.source.slot att.data.target.slot loop.finalizedSlot =
        true →
      (loop.justify att window).missingRoot slots = false →
      AttestationStep latestRoot slots att loop
        ((loop.justify att window).finalizeSource slots att.data.source)
        ⟨[], [att], [att.data.target], [(att.data.source, att.data.target)]⟩

/-- **Inversion of one pass of the loop.** -/
theorem attestationStep_cases (h : attestationStep latestRoot slots att loop = .ok () loop') :
    AttestationStep latestRoot slots att loop loop' (stepHistory latestRoot loop att) := by
  unfold attestationStep at h
  unfold stepHistory
  cases helig : isEligible latestRoot loop.state loop.finalizedSlot att.data with
  | error e =>
    rw [helig] at h
    cases h
  | ok eligible =>
    rw [helig] at h
    cases eligible with
    | false =>
      cases h
      refine .skipped fun e => ?_
      rw [isEligible_true_iff.mpr e] at helig
      cases helig
    | true =>
      have hall := isEligible_true_iff.mp helig
      simp only at h ⊢
      split
      · rename_i hquorum
        rw [if_pos hquorum] at h
        cases h
        exact .counted hall hquorum
      · rename_i hquorum
        have hquorum' := Nat.le_of_not_lt hquorum
        rw [if_neg hquorum] at h
        simp only [justifyTarget] at h
        split at h
        · cases h
        · rename_i window hset
          split at h
          · rename_i hnext
            split at h
            · cases h
            · rename_i hmissing
              cases h
              have hnext' : isNextValidJustifiableSlot att.data.source.slot att.data.target.slot
                  loop.finalizedSlot = true := hnext
              rw [if_pos hnext']
              exact .finalized hall hquorum' hset hnext' (Bool.eq_false_iff.mpr hmissing)
          · rename_i hnext
            cases h
            have hnext' : ¬ isNextValidJustifiableSlot att.data.source.slot att.data.target.slot
                loop.finalizedSlot = true := hnext
            rw [if_neg hnext']
            exact .justified hall hquorum' hset (Bool.eq_false_iff.mpr hnext')

/-- **The three ways a pass of the loop fails**: a stale target, a bit past the window's limit, a
pending root the history does not know. -/
theorem attestationStep_error
    (h : attestationStep latestRoot slots att loop = .error failure loop') :
    (Matches latestRoot loop.state att.data ∧ att.data.target.slot < loop.finalizedSlot) ∨
      Eligible latestRoot loop.state loop.finalizedSlot att.data ∧
        ((∃ e, setJustifiedSlot loop.state.justifiedSlots loop.finalizedSlot
            att.data.target.slot = .error e) ∨
          ∃ window, (loop.justify att window).missingRoot slots = true) := by
  unfold attestationStep at h
  cases helig : isEligible latestRoot loop.state loop.finalizedSlot att.data with
  | error e =>
    obtain ⟨hmatches, hstale, -⟩ := isEligible_error_iff.mp helig
    exact .inl ⟨hmatches, hstale⟩
  | ok eligible =>
    rw [helig] at h
    cases eligible with
    | false => cases h
    | true =>
      refine .inr ⟨isEligible_true_iff.mp helig, ?_⟩
      simp only at h
      split at h
      · cases h
      · simp only [justifyTarget] at h
        split at h
        · rename_i e hset
          exact .inl ⟨e, hset⟩
        · rename_i window hset
          split at h
          · split at h
            · rename_i hmissing
              exact .inr ⟨window, hmissing⟩
            · cases h
          · cases h

end Step

end Peam
