import Peam.Sample
import Peam.Laws.Timeline

/-!
# How the two checkpoints move

Finality only moves forward, and the two checkpoints stay anchored in the state's own history as
long as no block votes for itself: a body cannot hold the root of a header that commits to it, short
of a fixed point of the hash. Justification has no such order. A target becomes the latest justified
checkpoint when it reaches its supermajority, whatever was justified before it, so the latest
justified checkpoint is the last one and not the highest one (`latestJustified_last`).
-/

namespace Peam

variable {ssz : Ssz} {latestRoot : Bytes32} {n : Nat} {slots : RapidHashMap Nat} {att : Attestation}
  {hs : History}

/-- The body of a block votes for no header that commits to it: the header staged while the body is
processed is such a header. -/
def NotSelf (ssz : Ssz) (header : BlockHeader) (att : Attestation) : Prop :=
  att.data.target.root ≠ header.hashTreeRoot ssz
  deriving Decidable

/-- No block of the list votes for itself. -/
abbrev NoSelfReference (ssz : Ssz) (blocks : List SignedBlockWithAttestation) : Prop :=
  AllGood ssz (NotSelf ssz) blocks

instance (blocks : List SignedBlockWithAttestation) : Decidable (NoSelfReference ssz blocks) :=
  inferInstanceAs (Decidable (∀ signed ∈ _, ∀ att ∈ _, NotSelf _ _ _))

/-- Without a vote for the staged header, a matching target is in the history. -/
theorem Matches.target_in_history {state : State} {data : AttestationData}
    (m : Matches latestRoot state data) (hne : data.target.root ≠ latestRoot) :
    state.historicalBlockHashes.items[data.target.slot]? = some data.target.root := by
  rcases m.target_matches with h | h
  · exact h
  · exact absurd h.2.2 hne

/-! ## The order of finality -/

/-- Past finalizations lie at or below the finalized slot. -/
def Ordered (history : History) (n : Nat) (loop : AttestationLoop n) : Prop :=
  ∀ link ∈ history.links, link.1.slot ≤ loop.state.latestFinalized.slot

/-- **One pass of the loop never moves the finalized slot back.** -/
theorem AttestationStep.finalized_le {loop loop' : AttestationLoop n}
    (sync : loop.finalizedSlot = loop.state.latestFinalized.slot)
    (step : AttestationStep latestRoot slots att loop loop' hs) :
    loop.state.latestFinalized.slot ≤ loop'.state.latestFinalized.slot := by
  cases step with
  | skipped => exact Nat.le_refl _
  | counted => exact Nat.le_refl _
  | justified => exact Nat.le_refl _
  | finalized e hquorum hset hnext hmissing =>
    rw [← sync]
    exact finalized_le_source hnext e.finalized_lt_target

private theorem ordered_invariant (ssz : Ssz) (genesisTime : Nat)
    (validators : Validators)
    (Good : BlockHeader → Attestation → Prop) :
    Invariant ssz (generateGenesis ssz genesisTime validators) Good
      (fun h n loop => Shape h n loop ∧ Ordered h n loop) := by
  refine (shape_invariant ssz genesisTime validators Good).along ?_ ?_ ?_ ?_
  · intro link hmem
    cases hmem
  · intro h state header staged shape ordered hstaged link hmem
    simp only [stageHistory, History.links_append, History.empty, List.append_nil] at hmem
    have := ordered link hmem
    simp only [AttestationLoop.start, hstaged.finalized_eq] at this ⊢
    split <;> exact this
  · intro n h att hs loop loop' shape ordered hn hroot hgood hstep link hmem
    have hle := hstep.finalized_le shape.sync
    rcases List.mem_append.mp hmem with hold | hnew
    · exact Nat.le_trans (ordered link hold) hle
    · -- a new link finalizes its own source
      cases hstep with
      | skipped => cases hnew
      | counted => cases hnew
      | justified => cases hnew
      | finalized =>
        rw [List.mem_singleton.mp hnew]
        exact Nat.le_refl _
  · intro n h state' loop shape ordered hn hfinished link hmem
    simp only [AttestationLoop.start, hfinished.sameCheckpoints.finalized_eq]
    exact ordered link hmem

private theorem finalized_le_of_extends {history more : History} {n' : Nat}
    {loop : AttestationLoop n} {loop' : AttestationLoop n'} (shape : Shape history n loop)
    (ordered : Ordered (history ++ more) n' loop') :
    loop.state.latestFinalized.slot ≤ loop'.state.latestFinalized.slot := by
  rcases shape.latest_finalized with ⟨-, hzero⟩ | hlast
  · rw [hzero]
    exact Nat.zero_le _
  · obtain ⟨link, hlink, hsource⟩ := Option.map_eq_some_iff.mp hlast
    rw [← hsource]
    exact ordered link (List.mem_append_left _ (List.mem_of_getLast? hlink))

/-! ## Anchoring -/

/-- Past genesis, both checkpoints are entries of the state's history. -/
structure Anchored (n : Nat) (loop : AttestationLoop n) : Prop where
  finalized : loop.state.latestBlockHeader.slot ≠ 0 →
    loop.state.historicalBlockHashes.items[loop.state.latestFinalized.slot]? =
      some loop.state.latestFinalized.root
  justified : loop.state.latestBlockHeader.slot ≠ 0 →
    loop.state.historicalBlockHashes.items[loop.state.latestJustified.slot]? =
      some loop.state.latestJustified.root

namespace Anchored

private theorem step {loop loop' : AttestationLoop n} (anchored : Anchored n loop)
    (hself : NotSelf ssz loop.state.latestBlockHeader att)
    (step : AttestationStep (loop.state.latestBlockHeader.hashTreeRoot ssz) slots att loop loop' hs) :
    Anchored n loop' := by
  cases step with
  | skipped => exact anchored
  | counted => exact ⟨anchored.finalized, anchored.justified⟩
  | justified e => exact ⟨anchored.finalized, fun _ => e.target_in_history hself⟩
  | finalized e => exact ⟨fun _ => e.source_matches, fun _ => e.target_in_history hself⟩

/-- The history only grows at its end, so an anchored checkpoint stays anchored; the first header
after genesis anchors both checkpoints at slot zero. -/
theorem stage {history : History} {state staged : State} {header : BlockHeader}
    (shape : Shape history _ (AttestationLoop.start state))
    (anchored : Anchored _ (AttestationLoop.start state))
    (hstaged : StagedOn ssz state header staged) : Anchored _ (AttestationLoop.start staged) := by
  have hlength : state.historicalBlockHashes.items.length = state.latestBlockHeader.slot :=
    shape.length_history
  by_cases hzero : state.latestBlockHeader.slot = 0
  · obtain ⟨-, hjust, -, hfin⟩ := shape.of_header_zero hzero
    simp only [AttestationLoop.start] at hjust hfin
    have hfirst : staged.historicalBlockHashes.items[0]? = some header.parentRoot := by
      rw [hstaged.history_eq, List.eq_nil_of_length_eq_zero (hlength.trans hzero)]
      rfl
    constructor <;> intro _ <;>
      simp only [AttestationLoop.start, hstaged.finalized_eq, hstaged.justified_eq, if_pos hzero,
        hjust, hfin]
    · exact hfirst
    · exact hfirst
  · constructor <;> intro _ <;>
      simp only [AttestationLoop.start, hstaged.finalized_eq, hstaged.justified_eq, if_neg hzero]
    · exact hstaged.history_grows (anchored.finalized hzero)
    · exact hstaged.history_grows (anchored.justified hzero)

end Anchored

private theorem anchored_invariant (ssz : Ssz) (genesisTime : Nat)
    (validators : Validators) :
    Invariant ssz (generateGenesis ssz genesisTime validators) (NotSelf ssz)
      (fun h n loop => Shape h n loop ∧ Anchored n loop) := by
  refine (shape_invariant ssz genesisTime validators (NotSelf ssz)).along ?_ ?_ ?_ ?_
  · exact ⟨fun h => absurd rfl h, fun h => absurd rfl h⟩
  · intro h state header staged shape anchored hstaged
    exact anchored.stage shape hstaged
  · intro n h att hs loop loop' shape anchored hn hroot hself hstep
    exact anchored.step hself hstep
  · intro n h state' loop shape anchored hn hfinished
    have same := hfinished.sameCheckpoints
    constructor <;>
      simp only [AttestationLoop.start, same.header_slot_eq, same.history_eq, same.justified_eq,
        same.finalized_eq]
    · exact anchored.finalized
    · exact anchored.justified

/-! ## The laws -/

section Laws

variable {verifier : SignatureVerifier} {genesisTime : Nat}
  {validators : Validators} {history : History} {state : State}
  {blocks : List SignedBlockWithAttestation}

private theorem Chain.header_ne_zero {genesis : State}
    (reached : Chain ssz verifier genesis blocks history state)
    (hne : blocks ≠ []) : state.latestBlockHeader.slot ≠ 0 := by
  cases reached with
  | genesis => exact absurd rfl hne
  | imported before himport =>
    obtain ⟨staged, loop, hstage, hrun, hfinish⟩ := processSignedBlock_ok himport
    have hstaged := stageBlock_ok hstage
    have hbase : SameBase staged loop.state := attestationLoop_sameBase hrun
    have := hstaged.header_lt
    rw [hfinish.sameCheckpoints.header_slot_eq, hbase.header_eq, hstaged.header_eq,
      BlockHeader.staged_slot]
    omega

/-- **Finality is monotone and anchored.** Past the first block both checkpoints are entries of the
state's history, in order and below the header. No import and no attestation of the next block moves
the finalized slot back, so the distance the window is shifted by is the true difference. -/
theorem finality_anchored (reached : Chain ssz verifier (generateGenesis ssz genesisTime validators)
      blocks history state) (noSelf : NoSelfReference ssz blocks) :
    (blocks ≠ [] →
      state.latestFinalized.slot ≤ state.latestJustified.slot ∧
      state.latestJustified.slot < state.latestBlockHeader.slot ∧
      state.historicalBlockHashes.items[state.latestFinalized.slot]? =
        some state.latestFinalized.root ∧
      state.historicalBlockHashes.items[state.latestJustified.slot]? =
        some state.latestJustified.root) ∧
    (∀ more history' state',
      importBlocks ssz verifier more (history, state) = some (history', state') →
      state.latestFinalized.slot ≤ state'.latestFinalized.slot) ∧
    ∀ header staged done att, ∀ loop loop' : AttestationLoop staged.validators.items.length,
      stageBlock ssz header state = .ok () staged →
      attestationLoop (staged.latestBlockHeader.hashTreeRoot ssz) (rootToSlot ssz staged) done
        (AttestationLoop.start staged) = .ok () loop →
      attestationStep (staged.latestBlockHeader.hashTreeRoot ssz) (rootToSlot ssz staged) att loop =
        .ok () loop' →
      loop.state.latestFinalized.slot ≤ loop'.state.latestFinalized.slot ∧
      subU64 loop'.state.latestFinalized.slot loop.state.latestFinalized.slot =
        loop'.state.latestFinalized.slot - loop.state.latestFinalized.slot := by
  have hshape := shape_invariant ssz genesisTime validators fun _ _ => True
  have shape := hshape.chain reached fun _ _ _ _ => trivial
  refine ⟨fun hne => ?_, fun more history' state' himport => ?_, ?_⟩
  · obtain ⟨-, anchored⟩ :=
      (anchored_invariant ssz genesisTime validators).chain reached noSelf
    have hzero := reached.header_ne_zero hne
    have hjust := anchored.justified hzero
    refine ⟨shape.finalized_le, ?_, anchored.finalized hzero, hjust⟩
    -- an entry of the history lies below the header's slot, which is the history's length
    have hlt := (List.getElem?_eq_some_iff.mp hjust).1
    rwa [shape.length_history] at hlt
  · obtain ⟨added, rfl⟩ := importBlocks_history himport
    obtain ⟨-, ordered⟩ := (ordered_invariant ssz genesisTime validators fun _ _ => True).chain
      (reached.of_importBlocks himport) fun _ _ _ _ => trivial
    exact finalized_le_of_extends shape ordered
  · intro header staged done att loop loop' hstage hrun hstep
    have hstaged := stageBlock_ok hstage
    obtain ⟨hloop, -⟩ := hshape.loop hstaged.header_eq (fun _ _ => trivial)
      (hshape.stage shape hstaged) hrun
    have hle := (attestationStep_cases hstep).finalized_le hloop.sync
    exact ⟨hle, subU64_eq hle⟩

/-- Two of three validators finalize slot 1, then slot 2. -/
def twoFinalized : List PlannedBlock :=
  [⟨1, []⟩, ⟨2, [⟨0, 1, voters 3 3#8⟩]⟩, ⟨3, [⟨1, 2, voters 3 6#8⟩]⟩,
    ⟨4, [⟨2, 3, voters 3 5#8⟩]⟩]

/-- The law at a chain that finalized slot 2. -/
theorem finality_anchored_twoFinalized :
    (sampleEnd threeValidators twoFinalized).2.latestFinalized.slot = 2 ∧
      (sampleEnd threeValidators twoFinalized).2.historicalBlockHashes.items[
          (sampleEnd threeValidators twoFinalized).2.latestFinalized.slot]? =
        some (sampleEnd threeValidators twoFinalized).2.latestFinalized.root := by
  have hchain := sampleEnd_chain threeValidators twoFinalized (by decide +kernel)
  have hself : NoSelfReference sampleSsz (sampleBlocks threeValidators twoFinalized) := by
    decide +kernel
  have hne : sampleBlocks threeValidators twoFinalized ≠ [] := by decide +kernel
  exact ⟨by decide +kernel, ((finality_anchored hchain hself).1 hne).2.2.1⟩

/-- **Latest justified is the last justified.** At every moment the latest justified checkpoint is
the one that reached its supermajority last. It is the highest one if the slots were justified in
order, it never falls below the finalized slot, and it goes down between two moments exactly when
the last justification in between is for a lower slot. -/
theorem latestJustified_last (reached : Moment ssz verifier
      (generateGenesis ssz genesisTime validators) history state) :
    (history.justified = [] ∧ state.latestJustified.slot = 0 ∨
      history.justified.getLast? = some state.latestJustified) ∧
    (history.justified.Pairwise (·.slot < ·.slot) →
      ∀ checkpoint ∈ history.justified, checkpoint.slot ≤ state.latestJustified.slot) ∧
    state.latestFinalized.slot ≤ state.latestJustified.slot ∧
    ∀ more state', Moment ssz verifier (generateGenesis ssz genesisTime validators)
        (history ++ more) state' →
      (state'.latestJustified.slot < state.latestJustified.slot ↔
        ∃ checkpoint, more.justified.getLast? = some checkpoint ∧
          checkpoint.slot < state.latestJustified.slot) := by
  have inv := shape_invariant ssz genesisTime validators fun _ _ => True
  obtain ⟨loop, rfl, shape⟩ := inv.moment reached
  refine ⟨shape.latest_justified, fun hsorted checkpoint hmem => ?_, shape.finalized_le, ?_⟩
  · rcases shape.latest_justified with ⟨hnone, -⟩ | hlast
    · rw [hnone] at hmem
      cases hmem
    · obtain ⟨earlier, hsplit⟩ := List.getLast?_eq_some_iff.mp hlast
      rw [hsplit] at hsorted hmem
      rcases List.mem_append.mp hmem with h | h
      · exact Nat.le_of_lt ((List.pairwise_append.mp hsorted).2.2 _ h _ (List.mem_singleton_self _))
      · rw [List.mem_singleton.mp h]
  · intro more state' later
    obtain ⟨loop', rfl, shape'⟩ := inv.moment later
    have hlatest := shape'.latest_justified
    rw [History.justified_append] at hlatest
    cases hmore : more.justified.getLast? with
    | none =>
      -- nothing was justified in between, so the slot is the same
      rw [List.getLast?_eq_none_iff.mp hmore, List.append_nil] at hlatest
      have hsame : loop'.state.latestJustified.slot = loop.state.latestJustified.slot := by
        rcases shape.latest_justified with ⟨hnone, hzero⟩ | hlast
        · rcases hlatest with ⟨-, hzero'⟩ | hlast'
          · rw [hzero, hzero']
          · rw [hnone] at hlast'
            cases hlast'
        · rcases hlatest with ⟨hnone, -⟩ | hlast'
          · rw [hnone] at hlast
            cases hlast
          · rw [hlast] at hlast'
            rw [Option.some.inj hlast']
      simp [hsame]
    | some checkpoint =>
      rcases hlatest with ⟨hnone, -⟩ | hlast
      · rw [(List.append_eq_nil_iff.mp hnone).2] at hmore
        cases hmore
      · rw [List.getLast?_append, hmore, Option.some_or] at hlast
        cases hlast
        simp

/-- Slot 5 is justified first, slot 4 afterwards. -/
def lowerAfterHigher : List PlannedBlock :=
  [⟨4, []⟩, ⟨5, []⟩, ⟨6, [⟨0, 5, voters 3 3#8⟩]⟩, ⟨7, [⟨0, 4, voters 3 3#8⟩]⟩]

/-- The law at a chain that justified a lower slot last. -/
theorem latestJustified_last_lowerAfterHigher :
    (sampleEnd threeValidators lowerAfterHigher).1.justified.getLast? =
      some (sampleEnd threeValidators lowerAfterHigher).2.latestJustified := by
  have hchain := sampleEnd_chain threeValidators lowerAfterHigher (by decide +kernel)
  exact (latestJustified_last (.idle hchain)).1.resolve_left (by decide +kernel)

/-- The latest justified slot goes down from one block to the next, and is then not the maximum. -/
theorem latestJustified_not_highest :
    ∃ blocks signed history state history' state',
      Chain sampleSsz noopSignatureVerifier (generateGenesis sampleSsz 0 threeValidators) blocks
        history state ∧
      Chain sampleSsz noopSignatureVerifier (generateGenesis sampleSsz 0 threeValidators)
        (blocks ++ [signed]) history' state' ∧
      state.latestJustified.slot = 5 ∧ state'.latestJustified.slot = 4 ∧
      ∃ checkpoint ∈ history'.justified, checkpoint.slot = 5 := by
  obtain ⟨signed, hlast⟩ : ∃ signed, sampleBlocks threeValidators lowerAfterHigher =
      sampleBlocks threeValidators (lowerAfterHigher.take 3) ++ [signed] :=
    ⟨(sampleBlocks threeValidators lowerAfterHigher).getLast (by decide +kernel),
      by decide +kernel⟩
  have before := sampleEnd_chain threeValidators (lowerAfterHigher.take 3) (by decide +kernel)
  have after := sampleEnd_chain threeValidators lowerAfterHigher (by decide +kernel)
  rw [hlast] at after
  exact ⟨_, signed, _, _, _, _, before, after, by decide +kernel, by decide +kernel,
    by decide +kernel⟩

end Laws

end Peam
