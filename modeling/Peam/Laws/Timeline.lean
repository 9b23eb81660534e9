import Peam.Laws.Chain

/-!
# The state is a digest of its history

Two invariants of every chain, with no assumption on the hash.

`Shape` ties the checkpoints and the window to the history: the window's bits are exactly the slots
justified past the finalized one, the latest justified checkpoint is the one justified last, the
latest finalized one is the source of the last finalizing link, and finality never passes
justification. Its step lemma is where the window arithmetic happens.

`Recorded` ties roots to headers: every root in the state's history, and every checkpoint of a
counted attestation, is the root of a header of the chain at that slot.
-/

namespace Peam

variable {ssz : Ssz} {hs : History} {genesis : State}
  {Inv : History → (n : Nat) → AttestationLoop n → Prop}

/-! ## Fields of the loop after a step -/

section Fields

variable {n : Nat} (loop : AttestationLoop n) (att : Attestation) (window : JustifiedSlots)
  (slots : RapidHashMap Nat)

@[simp] theorem recordVote_state : (loop.recordVote att).state = loop.state := rfl

@[simp] theorem recordVote_finalizedSlot :
    (loop.recordVote att).finalizedSlot = loop.finalizedSlot := rfl

@[simp] theorem justify_state :
    (loop.justify att window).state =
      { loop.state with latestJustified := att.data.target, justifiedSlots := window } := rfl

@[simp] theorem justify_finalizedSlot :
    (loop.justify att window).finalizedSlot = loop.finalizedSlot := rfl

theorem justify_votesMap :
    (loop.justify att window).votesMap =
      (loop.votesMap.insert att.data.target.root (loop.mergedTally att)).erase
        att.data.target.root := rfl

@[simp] theorem finalizeSource_state (source : Checkpoint) :
    (loop.finalizeSource slots source).state =
      { loop.state with
        latestFinalized := source
        justifiedSlots := shiftJustifiedWindow loop.state.justifiedSlots
          (subU64 source.slot loop.state.latestFinalized.slot) } := rfl

@[simp] theorem finalizeSource_finalizedSlot (source : Checkpoint) :
    (loop.finalizeSource slots source).finalizedSlot = source.slot := rfl

end Fields

namespace Eligible

variable {latestRoot : Bytes32} {state : State} {finalizedSlot : Nat} {data : AttestationData}

section

variable (e : Eligible latestRoot state finalizedSlot data)

include e

/-- A counted target lies past the finalized slot. -/
theorem finalized_lt_target :
    finalizedSlot < data.target.slot := by
  by_contra hle
  have : isSlotJustified state.justifiedSlots finalizedSlot data.target.slot = true :=
    isSlotJustified_iff.mpr (.inl (Nat.le_of_not_lt hle))
  rw [e.target_open] at this
  cases this

/-- A counted target lies within the timeline. -/
theorem target_le :
    data.target.slot ≤ state.historicalBlockHashes.items.length := by
  rcases e.target_matches with h | h
  · exact Nat.le_of_lt (List.getElem?_eq_some_iff.mp h).1
  · exact Nat.le_of_eq h.1

end

end Eligible

/-! ## Shape -/

/-- The checkpoints and the window of the state, told by the history. -/
structure Shape (history : History) (n : Nat) (loop : AttestationLoop n) : Prop where
  sync : loop.finalizedSlot = loop.state.latestFinalized.slot
  clean : loop.state.justifiedSlots.Clean
  length_history :
    loop.state.historicalBlockHashes.items.length = loop.state.latestBlockHeader.slot
  finalized_le : loop.state.latestFinalized.slot ≤ loop.state.latestJustified.slot
  justified_bounds : ∀ checkpoint ∈ history.justified,
    0 < checkpoint.slot ∧ checkpoint.slot ≤ loop.state.latestBlockHeader.slot
  window : ∀ slot, loop.state.latestFinalized.slot < slot →
    (loop.state.justifiedSlots.get (slot - loop.state.latestFinalized.slot - 1) = true ↔
      ∃ checkpoint ∈ history.justified, checkpoint.slot = slot)
  latest_justified :
    history.justified = [] ∧ loop.state.latestJustified.slot = 0 ∨
      history.justified.getLast? = some loop.state.latestJustified
  latest_finalized :
    history.links = [] ∧ loop.state.latestFinalized.slot = 0 ∨
      history.links.getLast?.map Prod.fst = some loop.state.latestFinalized
  links_justified : ∀ link ∈ history.links, link.2 ∈ history.justified

namespace Shape

variable {history : History} {n : Nat} {loop loop' : AttestationLoop n}

section

variable (shape : Shape history n loop)

include shape

/-- At the genesis header nothing has been justified yet. -/
theorem of_header_zero
    (hzero : loop.state.latestBlockHeader.slot = 0) :
    history.justified = [] ∧ loop.state.latestJustified.slot = 0 ∧
      history.links = [] ∧ loop.state.latestFinalized.slot = 0 := by
  have hnone : history.justified = [] := by
    refine List.eq_nil_iff_forall_not_mem.mpr fun checkpoint hmem => ?_
    have := shape.justified_bounds checkpoint hmem
    omega
  have hjustified : loop.state.latestJustified.slot = 0 := by
    rcases shape.latest_justified with h | h
    · exact h.2
    · simp [hnone] at h
  refine ⟨hnone, hjustified, ?_, ?_⟩
  · refine List.eq_nil_iff_forall_not_mem.mpr fun link hmem => ?_
    have := shape.links_justified link hmem
    simp [hnone] at this
  · have := shape.finalized_le
    omega

/-- A slot counts as justified when it is finalized or was justified on this chain. -/
theorem isSlotJustified_iff_mem {slot : Nat} :
    isSlotJustified loop.state.justifiedSlots loop.finalizedSlot slot = true ↔
      slot ≤ loop.state.latestFinalized.slot ∨
        ∃ checkpoint ∈ history.justified, checkpoint.slot = slot := by
  rw [isSlotJustified_iff, shape.sync]
  by_cases hle : slot ≤ loop.state.latestFinalized.slot
  · simp [hle]
  · simp only [hle, false_or]
    exact shape.window slot (Nat.lt_of_not_le hle)

/-- The justification half of a step: the target is recorded and its bit is set. -/
theorem justify {latestRoot : Bytes32} {att : Attestation}
    {window : JustifiedSlots} (e : Eligible latestRoot loop.state loop.finalizedSlot att.data)
    (hset : setJustifiedSlot loop.state.justifiedSlots loop.finalizedSlot att.data.target.slot =
      .ok window) :
    Shape (history ++ ⟨[], [att], [att.data.target], []⟩) n (loop.justify att window) := by
  have hlt := e.finalized_lt_target
  have hle := e.target_le
  rw [shape.length_history] at hle
  refine ⟨shape.sync, clean_setJustifiedSlot shape.clean hlt hset, shape.length_history, ?_, ?_,
    ?_, ?_, ?_, ?_⟩
  · rw [shape.sync] at hlt
    exact Nat.le_of_lt hlt
  · intro checkpoint hmem
    rcases List.mem_append.mp hmem with h | h
    · exact shape.justified_bounds checkpoint h
    · rw [List.mem_singleton.mp h]
      exact ⟨by omega, hle⟩
  · intro slot hslot
    have hget := get_setJustifiedSlot shape.clean hlt hset (slot - loop.finalizedSlot - 1)
    simp only [justify_state] at hslot ⊢
    rw [← shape.sync] at hslot ⊢
    have hidx : att.data.target.slot - loop.finalizedSlot - 1 = slot - loop.finalizedSlot - 1 ↔
        att.data.target.slot = slot := by omega
    rw [hget, Bool.or_eq_true, decide_eq_true_iff, hidx]
    have hold := shape.window slot (shape.sync ▸ hslot)
    rw [← shape.sync] at hold
    rw [hold]
    simp only [History.justified_append, List.mem_append, List.mem_singleton]
    constructor
    · rintro (⟨checkpoint, hmem, hs⟩ | hs)
      · exact ⟨checkpoint, .inl hmem, hs⟩
      · exact ⟨_, .inr rfl, hs⟩
    · rintro ⟨checkpoint, hmem | rfl, hs⟩
      · exact .inl ⟨checkpoint, hmem, hs⟩
      · exact .inr hs
  · exact .inr (by simp)
  · simpa using shape.latest_finalized
  · intro link hmem
    simp only [History.links_append, List.append_nil] at hmem
    exact List.mem_append_left _ (shape.links_justified link hmem)

/-- The finalization half of a step: the window moves to the new finalized slot. -/
theorem finalizeSource {slots : RapidHashMap Nat}
    {source target : Checkpoint} (hle : loop.state.latestFinalized.slot ≤ source.slot)
    (hlt : source.slot ≤ loop.state.latestJustified.slot) (htarget : target ∈ history.justified) :
    Shape (history ++ ⟨[], [], [], [(source, target)]⟩) n (loop.finalizeSource slots source) := by
  have hdelta := subU64_eq hle
  refine ⟨rfl, clean_shiftJustifiedWindow _ _, shape.length_history, hlt, ?_, ?_, ?_, ?_, ?_⟩
  · simpa using shape.justified_bounds
  · intro slot hslot
    simp only [finalizeSource_state] at hslot ⊢
    have hidx : slot - source.slot - 1 + (source.slot - loop.state.latestFinalized.slot) =
        slot - loop.state.latestFinalized.slot - 1 := by omega
    rw [hdelta, get_shiftJustifiedWindow shape.clean, hidx, shape.window slot (by omega)]
    simp
  · simpa using shape.latest_justified
  · exact .inr (by simp)
  · intro link hmem
    simp only [History.links_append, List.mem_append, List.mem_singleton,
      History.justified_append, List.append_nil] at hmem ⊢
    rcases hmem with h | rfl
    · exact shape.links_justified link h
    · exact htarget

/-- **A step of the loop keeps the shape.** -/
theorem step {latestRoot : Bytes32} {slots : RapidHashMap Nat} {att : Attestation}
    (step : AttestationStep latestRoot slots att loop loop' hs) :
    Shape (history ++ hs) n loop' := by
  cases step with
  | skipped hno =>
    rw [History.append_empty]
    exact shape
  | counted e hfew =>
    exact ⟨shape.sync, shape.clean, shape.length_history, shape.finalized_le,
      by simpa using shape.justified_bounds, by simpa using shape.window,
      by simpa using shape.latest_justified, by simpa using shape.latest_finalized,
      by simpa using shape.links_justified⟩
  | justified e hquorum hset hnext => exact shape.justify e hset
  | finalized e hquorum hset hnext hmissing =>
    have hsource := finalized_le_source hnext e.finalized_lt_target
    rw [shape.sync] at hsource
    have hsplit : history ++
        (⟨[], [att], [att.data.target], [(att.data.source, att.data.target)]⟩ : History) =
        history ++ ⟨[], [att], [att.data.target], []⟩ ++
          ⟨[], [], [], [(att.data.source, att.data.target)]⟩ := by
      rw [History.append_assoc]
      rfl
    rw [hsplit]
    exact (shape.justify e hset).finalizeSource hsource (Nat.le_of_lt e.source_lt_target) (by simp)

end

end Shape

/-- What a finished block keeps of the loop. -/
structure SameCheckpoints (before after : State) : Prop where
  header_slot_eq : after.latestBlockHeader.slot = before.latestBlockHeader.slot
  header_eq : after.latestBlockHeader.staged = before.latestBlockHeader.staged
  history_eq : after.historicalBlockHashes = before.historicalBlockHashes
  validators_eq : after.validators = before.validators
  justified_eq : after.latestJustified = before.latestJustified
  finalized_eq : after.latestFinalized = before.latestFinalized
  window_eq : after.justifiedSlots = before.justifiedSlots

/-- The end of a block leaves the checkpoints. -/
theorem Finished.sameCheckpoints {n : Nat} {loop : AttestationLoop n} {state' : State}
    (finished : Finished ssz loop state') : SameCheckpoints loop.state state' := by
  cases finished with
  | untouched hvotes => exact ⟨rfl, rfl, rfl, rfl, rfl, rfl, rfl⟩
  | packed hvotes hencode =>
    obtain ⟨list, -, rfl⟩ := encodeJustificationVotes_ok hencode
    exact ⟨rfl, rfl, rfl, rfl, rfl, rfl, rfl⟩

section Registry

variable {verifier : SignatureVerifier} {history : History} {state : State}

/-- The registry never changes. -/
theorem validators_invariant (ssz : Ssz) (genesis : State)
    (Good : BlockHeader → Attestation → Prop) :
    Invariant ssz genesis Good (fun _ _ loop => loop.state.validators = genesis.validators) where
  start := rfl
  stage h hstaged := hstaged.validators_eq.trans h
  step h _ _ _ hstep := hstep.sameBase.validators_eq.trans h
  finish h _ hfinished := hfinished.sameCheckpoints.validators_eq.trans h

/-- The chain rule, over the registry of the genesis state. -/
theorem Invariant.chain_registry {Good : BlockHeader → Attestation → Prop}
    (inv : Invariant ssz genesis Good Inv) {blocks : List SignedBlockWithAttestation}
    (reached : Chain ssz verifier genesis blocks history state) (good : AllGood ssz Good blocks) :
    ∃ loop : AttestationLoop genesis.validators.items.length,
      loop.state = state ∧ Inv history _ loop := by
  have hloop : ∃ loop : AttestationLoop state.validators.items.length,
      loop.state = state ∧ Inv history _ loop :=
    ⟨AttestationLoop.start state, rfl, inv.chain reached good⟩
  have heq : state.validators = genesis.validators :=
    (validators_invariant ssz genesis Good).chain reached good
  rwa [heq] at hloop

/-- An invariant without conditions on attestations holds at every moment. -/
theorem Invariant.moment (inv : Invariant ssz genesis (fun _ _ => True) Inv)
    (reached : Moment ssz verifier genesis history state) :
    ∃ loop : AttestationLoop genesis.validators.items.length,
      loop.state = state ∧ Inv history _ loop := by
  cases reached with
  | idle hchain => exact inv.chain_registry hchain fun _ _ _ _ => trivial
  | inBlock hin =>
    obtain ⟨n, loop, hn, rfl, hinv, heq⟩ :=
      (inv.and (validators_invariant ssz genesis fun _ _ => True)).inBlock hin
        (fun _ _ _ _ => trivial) fun _ _ => trivial
    rw [heq] at hn
    subst hn
    exact ⟨loop, rfl, hinv⟩

end Registry

/-- **Every chain has the shape of its history.** -/
theorem shape_invariant (ssz : Ssz) (genesisTime : Nat)
    (validators : Validators)
    (Good : BlockHeader → Attestation → Prop) :
    Invariant ssz (generateGenesis ssz genesisTime validators) Good Shape where
  start :=
    { sync := rfl
      clean := BitList.clean_default
      length_history := rfl
      finalized_le := Nat.le_refl 0
      justified_bounds := by simp [History.empty]
      window := by
        intro slot hslot
        simp [History.empty, AttestationLoop.start, generateGenesis, genesisDraft,
          BitList.default, BitList.get]
      latest_justified := .inl ⟨rfl, rfl⟩
      latest_finalized := .inl ⟨rfl, rfl⟩
      links_justified := by simp [History.empty] }
  stage {h state header staged} shape hstaged := by
    have hfin := hstaged.finalizedSlot_eq
    have hjust : staged.latestJustified.slot = state.latestJustified.slot := by
      rw [hstaged.justified_eq]
      split <;> rfl
    have hheader : staged.latestBlockHeader.slot = header.slot := by
      rw [hstaged.header_eq, BlockHeader.staged_slot]
    have hlt := hstaged.header_lt
    have hlength := shape.length_history
    simp only [AttestationLoop.start] at hlength
    refine ⟨rfl, ?_, ?_, ?_, ?_, ?_, ?_, ?_, ?_⟩
    · simp only [AttestationLoop.start, hstaged.window_eq]
      exact clean_extendJustifiedSlots shape.clean _ _
    · simp only [AttestationLoop.start, hstaged.history_eq, hheader, List.length_append,
        List.length_cons, List.length_replicate]
      omega
    · simp only [AttestationLoop.start, hfin, hjust]
      exact shape.finalized_le
    · intro checkpoint hmem
      simp only [stageHistory, History.justified_append, History.empty, List.append_nil] at hmem
      have := shape.justified_bounds checkpoint hmem
      simp only [AttestationLoop.start, hheader] at this ⊢
      omega
    · intro slot hslot
      simp only [AttestationLoop.start, hfin, hstaged.window_eq] at hslot ⊢
      have hclean : state.justifiedSlots.Clean := shape.clean
      rw [get_extendJustifiedSlots hclean]
      simpa [stageHistory, History.empty, AttestationLoop.start] using shape.window slot hslot
    · simp only [stageHistory, History.justified_append, History.empty, List.append_nil,
        AttestationLoop.start, hstaged.justified_eq]
      split
      · rename_i hzero
        obtain ⟨hnone, hslot, -, -⟩ := shape.of_header_zero hzero
        exact .inl ⟨hnone, hslot⟩
      · exact shape.latest_justified
    · simp only [stageHistory, History.links_append, History.empty, List.append_nil,
        AttestationLoop.start, hstaged.finalized_eq]
      split
      · rename_i hzero
        obtain ⟨-, -, hnone, hslot⟩ := shape.of_header_zero hzero
        exact .inl ⟨hnone, hslot⟩
      · exact shape.latest_finalized
    · simpa [stageHistory, History.empty] using shape.links_justified
  step shape _ _ _ hstep := shape.step hstep
  finish {n h state' loop} shape _ hfinished := by
    have same := hfinished.sameCheckpoints
    refine ⟨rfl, ?_, ?_, ?_, ?_, ?_, ?_, ?_, shape.links_justified⟩ <;>
      simp only [AttestationLoop.start, same.header_slot_eq, same.history_eq, same.justified_eq,
        same.finalized_eq, same.window_eq]
    · exact shape.clean
    · exact shape.length_history
    · exact shape.finalized_le
    · exact shape.justified_bounds
    · exact shape.window
    · exact shape.latest_justified
    · exact shape.latest_finalized

/-! ## Recorded roots -/

/-- A checkpoint names a header of the chain: its root is the root of a header at its slot. -/
def History.HasRoot (ssz : Ssz) (history : History) (checkpoint : Checkpoint) : Prop :=
  ∃ header ∈ history.headers, header.slot = checkpoint.slot ∧
    header.hashTreeRoot ssz = checkpoint.root

private theorem History.HasRoot.append {history : History} {checkpoint : Checkpoint}
    (h : history.HasRoot ssz checkpoint) (more : History) :
    (history ++ more).HasRoot ssz checkpoint := by
  obtain ⟨header, hmem, hrest⟩ := h
  exact ⟨header, List.mem_append_left _ hmem, hrest⟩

/-- Every root the chain relies on is the root of one of its headers. -/
structure Recorded (ssz : Ssz) (history : History) (n : Nat) (loop : AttestationLoop n) : Prop where
  header_mem : loop.state.latestBlockHeader.slot = 0 ∨
    loop.state.latestBlockHeader.staged ∈ history.headers
  history_recorded : ∀ slot root, loop.state.historicalBlockHashes.items[slot]? = some root →
    root ≠ Bytes32.zero → history.HasRoot ssz ⟨root, slot⟩
  target_recorded : ∀ att ∈ history.counted, history.HasRoot ssz att.data.target
  source_recorded : ∀ att ∈ history.counted, history.HasRoot ssz att.data.source
  justified_recorded : ∀ checkpoint ∈ history.justified, history.HasRoot ssz checkpoint

namespace Recorded

variable {history : History} {n : Nat} {loop loop' : AttestationLoop n}

private theorem count (recorded : Recorded ssz history n loop) {att : Attestation}
    {links : List (Checkpoint × Checkpoint)} {justified : List Checkpoint}
    (same : SameBase loop.state loop'.state)
    (hcheckpoints : history.HasRoot ssz att.data.target ∧ history.HasRoot ssz att.data.source)
    (hjustified : justified ⊆ [att.data.target]) :
    Recorded ssz (history ++ ⟨[], [att], justified, links⟩) n loop' := by
  obtain ⟨htarget, hsource⟩ := hcheckpoints
  refine ⟨?_, ?_, ?_, ?_, ?_⟩
  · rw [same.header_eq]
    exact recorded.header_mem.imp_right (List.mem_append_left _)
  · rw [same.history_eq]
    exact fun slot root hget hne => (recorded.history_recorded slot root hget hne).append _
  · intro other hmem
    rcases List.mem_append.mp hmem with h | h
    · exact (recorded.target_recorded other h).append _
    · rw [List.mem_singleton.mp h]
      exact htarget.append _
  · intro other hmem
    rcases List.mem_append.mp hmem with h | h
    · exact (recorded.source_recorded other h).append _
    · rw [List.mem_singleton.mp h]
      exact hsource.append _
  · intro checkpoint hmem
    rcases List.mem_append.mp hmem with h | h
    · exact (recorded.justified_recorded checkpoint h).append _
    · rw [List.mem_singleton.mp (hjustified h)]
      exact htarget.append _

/-- The checkpoints of an eligible attestation are recorded. -/
theorem of_eligible (recorded : Recorded ssz history n loop) {data : AttestationData}
    (hroot : loop.state.latestBlockHeader.stateRoot = Bytes32.zero)
    (e : Eligible (loop.state.latestBlockHeader.hashTreeRoot ssz) loop.state loop.finalizedSlot
      data) :
    history.HasRoot ssz data.target ∧ history.HasRoot ssz data.source := by
  refine ⟨?_, recorded.history_recorded _ _ e.source_matches e.source_root_ne⟩
  rcases e.target_matches with hget | ⟨-, hslot, hlatest⟩
  · exact recorded.history_recorded _ _ hget e.target_root_ne
  · -- the target is the staged header itself, which the history records
    rcases recorded.header_mem with hzero | hmem
    · have := e.source_lt_target
      omega
    · rw [BlockHeader.staged_eq hroot] at hmem
      exact ⟨_, hmem, hslot.symm, hlatest.symm⟩

/-- **A step of the loop keeps the roots recorded.** -/
theorem step {slots : RapidHashMap Nat} {att : Attestation} (recorded : Recorded ssz history n loop)
    (hroot : loop.state.latestBlockHeader.stateRoot = Bytes32.zero)
    (step : AttestationStep (loop.state.latestBlockHeader.hashTreeRoot ssz) slots att loop loop' hs) :
    Recorded ssz (history ++ hs) n loop' := by
  have same := step.sameBase
  cases step with
  | skipped hno =>
    rw [History.append_empty]
    exact recorded
  | counted e hfew =>
    exact recorded.count same (recorded.of_eligible hroot e) (List.nil_subset _)
  | justified e hquorum hset hnext =>
    exact recorded.count same (recorded.of_eligible hroot e) (List.Subset.refl _)
  | finalized e hquorum hset hnext hmissing =>
    exact recorded.count same (recorded.of_eligible hroot e) (List.Subset.refl _)

/-- A staged header adds its parent's root to the state's history, and both headers to the record. -/
theorem stage {state staged : State} {header : BlockHeader}
    (shape : Shape history _ (AttestationLoop.start state))
    (recorded : Recorded ssz history _ (AttestationLoop.start state))
    (hstaged : StagedOn ssz state header staged) :
    Recorded ssz (history ++ stageHistory ssz state header) _ (AttestationLoop.start staged) := by
  have hlength : state.historicalBlockHashes.items.length = state.latestBlockHeader.slot :=
    shape.length_history
  obtain ⟨stateRoot, hadvanced⟩ := processSlotLoop_eq ssz (header.slot - state.slot) state
  refine ⟨.inr ?_, ?_, ?_, ?_, ?_⟩
  · simp only [AttestationLoop.start, hstaged.header_eq, stageHistory, History.headers_append]
    simp
  · intro slot root hget hne
    simp only [AttestationLoop.start, hstaged.history_eq] at hget
    rw [List.getElem?_append] at hget
    split at hget
    · exact (recorded.history_recorded slot root hget hne).append _
    · rename_i hge
      cases hidx : slot - state.historicalBlockHashes.items.length with
      | zero =>
        rw [hidx, List.getElem?_cons_zero] at hget
        cases hget
        refine ⟨(processSlotLoop ssz (header.slot - state.slot) state).latestBlockHeader,
          List.mem_append_right _ (by simp [stageHistory]), ?_, hstaged.parentRoot_eq.symm⟩
        rw [hadvanced]
        simp only
        omega
      | succ k =>
        rw [hidx, List.getElem?_cons_succ, List.getElem?_replicate] at hget
        split at hget
        · cases hget
          exact absurd rfl hne
        · cases hget
  · intro att hmem
    simp only [stageHistory, History.counted_append, History.empty, List.append_nil] at hmem
    exact (recorded.target_recorded att hmem).append _
  · intro att hmem
    simp only [stageHistory, History.counted_append, History.empty, List.append_nil] at hmem
    exact (recorded.source_recorded att hmem).append _
  · intro checkpoint hmem
    simp only [stageHistory, History.justified_append, History.empty, List.append_nil] at hmem
    exact (recorded.justified_recorded checkpoint hmem).append _

end Recorded

/-- **Every chain has the shape of its history and records its roots.** -/
theorem timeline_invariant (ssz : Ssz) (genesisTime : Nat)
    (validators : Validators)
    (Good : BlockHeader → Attestation → Prop) :
    Invariant ssz (generateGenesis ssz genesisTime validators) Good
      (fun h n loop => Shape h n loop ∧ Recorded ssz h n loop) := by
  refine (shape_invariant ssz genesisTime validators Good).along ?_ ?_ ?_ ?_
  · exact ⟨.inl rfl, by simp [AttestationLoop.start, generateGenesis, genesisDraft, LimitedList.empty],
      by simp [History.empty], by simp [History.empty], by simp [History.empty]⟩
  · intro h state header staged shape recorded hstaged
    exact recorded.stage shape hstaged
  · intro n h att hs loop loop' shape recorded hn hroot hgood hstep
    exact recorded.step hroot hstep
  · intro n h state' loop shape recorded hn hfinished
    have same := hfinished.sameCheckpoints
    refine ⟨?_, ?_, recorded.target_recorded, recorded.source_recorded,
      recorded.justified_recorded⟩
    · simp only [AttestationLoop.start, same.header_slot_eq, same.header_eq]
      exact recorded.header_mem
    · simp only [AttestationLoop.start, same.history_eq]
      exact recorded.history_recorded

end Peam
