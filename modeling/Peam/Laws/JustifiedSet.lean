import Peam.Laws.Finality

/-!
# The window is a set of slots

The window of justified slots is rebased on every finalization, and between two blocks it only grows.
What it stands for does not move: together with the finalized slot it represents the set of slots
justified on the chain (`Represents`). Each of the three operations keeps that, whatever the set, and
so every moment of every chain does (`justifiedWindow_represents`).
-/

namespace Peam

/-- A window over a finalized slot stands for a set of justified slots. -/
structure Represents (window : JustifiedSlots) (finalized : Nat) (slots : Set Nat) : Prop where
  covered : window.Covered
  clean : window.Clean
  holds : ∀ slot, isSlotJustified window finalized slot = true ↔ slot ≤ finalized ∨ slot ∈ slots

namespace Represents

variable {window : JustifiedSlots} {finalized : Nat} {slots : Set Nat}

private theorem get_iff (rep : Represents window finalized slots) {slot : Nat}
    (hlt : finalized < slot) : window.get (slot - finalized - 1) = true ↔ slot ∈ slots := by
  have hread := rep.holds slot
  rw [isSlotJustified_iff] at hread
  have hpast : ¬ slot ≤ finalized := Nat.not_le.mpr hlt
  simpa only [hpast, false_or] using hread

private theorem of_get (covered : window.Covered) (clean : window.Clean)
    (hbits : ∀ slot, finalized < slot →
      (window.get (slot - finalized - 1) = true ↔ slot ∈ slots)) :
    Represents window finalized slots := by
  refine ⟨covered, clean, ?_⟩
  intro slot
  rw [isSlotJustified_iff]
  by_cases hle : slot ≤ finalized
  · exact iff_of_true (.inl hle) (.inl hle)
  · simp only [hle, false_or]
    exact hbits slot (Nat.lt_of_not_le hle)

private theorem genesis : Represents BitList.default 0 ∅ := by
  apply of_get
  · exact Nat.le_refl 0
  · exact BitList.clean_default
  · intro slot _
    simp [BitList.default, BitList.get]

/-- **A header extends the window and not the set.** -/
theorem extend (rep : Represents window finalized slots) (blockSlot : Nat) :
    Represents (extendJustifiedSlots window finalized blockSlot) finalized slots := by
  apply of_get
  · exact covered_extendJustifiedSlots rep.covered _ _
  · exact clean_extendJustifiedSlots rep.clean _ _
  · intro slot hlt
    rw [get_extendJustifiedSlots rep.clean]
    exact rep.get_iff hlt

/-- **A justification adds its slot.** -/
theorem set (rep : Represents window finalized slots) {slot : Nat} (hlt : finalized < slot)
    {next : JustifiedSlots} (h : setJustifiedSlot window finalized slot = .ok next) :
    Represents next finalized (insert slot slots) := by
  apply of_get
  · exact covered_setJustifiedSlot h
  · exact clean_setJustifiedSlot rep.clean hlt h
  · intro other hother
    have hidx : slot - finalized - 1 = other - finalized - 1 ↔ other = slot := by omega
    rw [get_setJustifiedSlot rep.clean hlt h, Bool.or_eq_true, decide_eq_true_iff, hidx,
      rep.get_iff hother, Set.mem_insert_iff, or_comm]

/-- **A finalization rebases the window and keeps the set**, a shift by zero included. -/
theorem shift (rep : Represents window finalized slots) {next : Nat} (hle : finalized ≤ next) :
    Represents (shiftJustifiedWindow window (subU64 next finalized)) next slots := by
  rw [subU64_eq hle]
  apply of_get
  · exact covered_shiftJustifiedWindow _ _
  · exact clean_shiftJustifiedWindow _ _
  · intro slot hlt
    have hidx : slot - next - 1 + (next - finalized) = slot - finalized - 1 := by omega
    rw [get_shiftJustifiedWindow rep.clean, hidx]
    exact rep.get_iff (Nat.lt_of_le_of_lt hle hlt)

end Represents

/-! ## Chains -/

/-- The slots justified on a chain. -/
def History.justifiedSlots (history : History) : Set Nat :=
  {slot | ∃ checkpoint ∈ history.justified, checkpoint.slot = slot}

private theorem History.justifiedSlots_append (history : History) {att : Attestation}
    {target : Checkpoint} {links : List (Checkpoint × Checkpoint)} :
    (history ++ ⟨[], [att], [target], links⟩).justifiedSlots =
      insert target.slot history.justifiedSlots := by
  ext slot
  simp only [justifiedSlots, History.justified_append, List.mem_append, List.mem_singleton,
    Set.mem_ofPred_eq, Set.mem_insert_iff]
  constructor
  · intro h
    obtain ⟨checkpoint, hmem | rfl, hslot⟩ := h
    · exact .inr ⟨checkpoint, hmem, hslot⟩
    · exact .inl hslot.symm
  · intro h
    rcases h with rfl | ⟨checkpoint, hmem, hslot⟩
    · exact ⟨target, .inr rfl, rfl⟩
    · exact ⟨checkpoint, .inl hmem, hslot⟩

/-- What a loop's window stands for. -/
def Standing (history : History) (n : Nat) (loop : AttestationLoop n) : Prop :=
  Represents loop.state.justifiedSlots loop.state.latestFinalized.slot history.justifiedSlots

/-- **One pass of the loop keeps what the window stands for.** -/
theorem Standing.step {history hs : History} {n : Nat} {loop loop' : AttestationLoop n}
    {latestRoot : Bytes32} {slots : RapidHashMap Nat} {att : Attestation}
    (shape : Shape history n loop) (standing : Standing history n loop)
    (step : AttestationStep latestRoot slots att loop loop' hs) : Standing (history ++ hs) n loop' := by
  unfold Standing at standing ⊢
  cases step with
  | skipped =>
    rw [History.append_empty]
    exact standing
  | counted =>
    have hsame : (history ++ (⟨[], [att], [], []⟩ : History)).justifiedSlots =
        history.justifiedSlots := by
      simp only [History.justifiedSlots, History.justified_append, List.append_nil]
    rw [hsame]
    exact standing
  | justified e hquorum hset hnext =>
    rw [History.justifiedSlots_append]
    rw [← shape.sync] at standing
    have hadded := standing.set e.finalized_lt_target hset
    rw [shape.sync] at hadded
    exact hadded
  | finalized e hquorum hset hnext hmissing =>
    rw [History.justifiedSlots_append]
    have hsource := finalized_le_source hnext e.finalized_lt_target
    rw [shape.sync] at hsource
    rw [← shape.sync] at standing
    have hadded := standing.set e.finalized_lt_target hset
    rw [shape.sync] at hadded
    exact hadded.shift hsource

private theorem standing_invariant (ssz : Ssz) (genesisTime : Nat)
    (validators : Validators)
    (Good : BlockHeader → Attestation → Prop) :
    Invariant ssz (generateGenesis ssz genesisTime validators) Good
      (fun h n loop => Shape h n loop ∧ Standing h n loop) := by
  refine (shape_invariant ssz genesisTime validators Good).along ?_ ?_ ?_ ?_
  · have hempty : History.empty.justifiedSlots = ∅ := by
      simp [History.justifiedSlots, History.empty]
    unfold Standing
    rw [hempty]
    exact Represents.genesis
  · intro h state header staged shape standing hstaged
    have hfin := hstaged.finalizedSlot_eq
    have hsame : (h ++ stageHistory ssz state header).justifiedSlots = h.justifiedSlots := by
      simp only [History.justifiedSlots, History.justified_append, stageHistory, History.empty,
        List.append_nil]
    unfold Standing at standing ⊢
    rw [hsame]
    simp only [AttestationLoop.start, hfin, hstaged.window_eq]
    exact Represents.extend standing header.slot
  · intro n h att hs loop loop' shape standing hn hroot hgood hstep
    exact standing.step shape hstep
  · intro n h state' loop shape standing hn hfinished
    have same := hfinished.sameCheckpoints
    unfold Standing at standing ⊢
    simp only [AttestationLoop.start, same.window_eq, same.finalized_eq]
    exact standing

section Law

variable {ssz : Ssz} {verifier : SignatureVerifier} {genesisTime : Nat}
  {validators : Validators} {history : History} {state : State}

/-- **The window refines the set of justified slots**: at every moment of every chain it stands for
the slots justified so far, and each of its operations is the expected one on any set it stands
for. -/
theorem justifiedWindow_represents
    (reached : Moment ssz verifier (generateGenesis ssz genesisTime validators) history state) :
    Represents state.justifiedSlots state.latestFinalized.slot
      {slot | ∃ checkpoint ∈ history.justified, checkpoint.slot = slot} ∧
    ∀ window finalized slots, Represents window finalized slots →
      (∀ blockSlot, Represents (extendJustifiedSlots window finalized blockSlot) finalized slots) ∧
      (∀ slot next, finalized < slot → setJustifiedSlot window finalized slot = .ok next →
        Represents next finalized (insert slot slots)) ∧
      ∀ next, finalized ≤ next →
        Represents (shiftJustifiedWindow window (subU64 next finalized)) next slots := by
  obtain ⟨loop, rfl, -, standing⟩ :=
    (standing_invariant ssz genesisTime validators fun _ _ => True).moment reached
  refine ⟨standing, ?_⟩
  intro window finalized slots rep
  exact ⟨rep.extend, fun slot next hlt h => rep.set hlt h, fun next hle => rep.shift hle⟩

/-- Slots 1 and 2 are finalized and slot 3 is justified; slot 4 is not. -/
theorem justifiedWindow_represents_twoFinalized :
    isSlotJustified (sampleEnd threeValidators twoFinalized).2.justifiedSlots 2 3 = true ∧
      isSlotJustified (sampleEnd threeValidators twoFinalized).2.justifiedSlots 2 4 = false := by
  have hchain := sampleEnd_chain threeValidators twoFinalized (by decide +kernel)
  have hfin : (sampleEnd threeValidators twoFinalized).2.latestFinalized.slot = 2 ∧
      (sampleEnd threeValidators twoFinalized).1.justified.map Checkpoint.slot = [1, 2, 3] := by
    decide +kernel
  have hholds := (justifiedWindow_represents (.idle hchain)).1.holds
  rw [hfin.1] at hholds
  have hmem : ∀ slot, slot ∈ {slot | ∃ checkpoint ∈
      (sampleEnd threeValidators twoFinalized).1.justified, checkpoint.slot = slot} ↔
      slot ∈ [1, 2, 3] := by
    intro slot
    rw [← hfin.2, List.mem_map]
    exact Iff.rfl
  constructor
  · exact (hholds 3).mpr (.inr ((hmem 3).mpr (by decide)))
  · rw [Bool.eq_false_iff]
    intro hyes
    rcases (hholds 4).mp hyes with hle | hin
    · omega
    · exact absurd ((hmem 4).mp hin) (by decide)

end Law

end Peam
