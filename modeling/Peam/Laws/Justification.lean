import Peam.Sample
import Peam.Laws.Timeline

/-!
# A justified checkpoint has its supermajority

The tally that decides a justification is a map keyed by target root, packed into the state between
blocks and unpacked again. `Tallied` says that nothing is gained on the way: whoever has a bit in a
pending tally, packed or unpacked, has a bit in a counted attestation for that root. If no two
headers of the chain at different slots share a root, a tally for a root is a tally for a
checkpoint, and every checkpoint the state records as justified is backed by two thirds of the
registry (`justified_backed`).
-/

namespace Peam

variable {ssz : Ssz}

/-- No two headers of the chain at different slots share a root. -/
def History.RootsFixSlots (ssz : Ssz) (history : History) : Prop :=
  ∀ a ∈ history.headers, ∀ b ∈ history.headers,
    a.hashTreeRoot ssz = b.hashTreeRoot ssz → a.slot = b.slot
  deriving Decidable

private theorem History.RootsFixSlots.of_append {history more : History}
    (h : (history ++ more).RootsFixSlots ssz) : history.RootsFixSlots ssz :=
  fun a ha b hb => h a (List.mem_append_left _ ha) b (List.mem_append_left _ hb)

private theorem History.RootsFixSlots.eq_of_root {history : History}
    (fix : history.RootsFixSlots ssz)
    {a b : Checkpoint} (ha : history.HasRoot ssz a) (hb : history.HasRoot ssz b)
    (hroot : a.root = b.root) : a = b := by
  obtain ⟨headerA, hmemA, hslotA, hrootA⟩ := ha
  obtain ⟨headerB, hmemB, hslotB, hrootB⟩ := hb
  have hslot := fix headerA hmemA headerB hmemB (by rw [hrootA, hrootB, hroot])
  cases a
  cases b
  simp_all

/-- Validator `i` has a bit in a counted attestation for this target root. -/
def History.VotedFor (history : History) (root : Bytes32) (i : Nat) : Prop :=
  ∃ att ∈ history.counted, att.data.target.root = root ∧ att.aggregationBits.get i = true

private theorem History.VotedFor.append {history : History} {root : Bytes32} {i : Nat}
    (h : history.VotedFor root i) (more : History) : (history ++ more).VotedFor root i := by
  obtain ⟨att, hmem, hrest⟩ := h
  exact ⟨att, List.mem_append_left _ hmem, hrest⟩

/-- Every pending vote was counted, and every justified checkpoint is backed. -/
structure Tallied (ssz : Ssz) (history : History) (n : Nat) (loop : AttestationLoop n) :
    Prop where
  pending : ∀ root i, PendingVote loop.state n root i → history.VotedFor root i
  unpacked : ∀ votes, loop.votes = some votes → ∀ root tally i, votes.lookup root = some tally →
    i ∈ tally.voters → history.VotedFor root i
  backed : history.RootsFixSlots ssz → ∀ checkpoint ∈ history.justified,
    Backed history.counted n checkpoint

namespace Tallied

variable {history : History} {n : Nat} {loop loop' : AttestationLoop n}

variable {root : Bytes32} {tally : Tally n} {i : Nat} {att : Attestation} {more : History}

section

variable (tallied : Tallied ssz history n loop)

include tallied

private theorem votesMap
    (hlookup : loop.votesMap.lookup root = some tally) (hi : i ∈ tally.voters) :
    history.VotedFor root i := by
  unfold AttestationLoop.votesMap at hlookup
  cases hvotes : loop.votes with
  | none =>
    rw [hvotes, Option.getD_none] at hlookup
    exact tallied.pending root i (pendingVote_of_decode hlookup hi)
  | some votes =>
    rw [hvotes, Option.getD_some] at hlookup
    exact tallied.unpacked votes hvotes root tally i hlookup hi

private theorem mergedTally (hmore : more.counted = [att])
    (hi : i ∈ (loop.mergedTally att).voters) :
    (history ++ more).VotedFor att.data.target.root i := by
  rcases Tally.mem_voters_merge.mp hi with hold | ⟨-, hbit⟩
  · cases hlookup : loop.votesMap.lookup att.data.target.root with
    | none =>
      rw [hlookup, Option.getD_none, Tally.voters_new] at hold
      simp at hold
    | some tally =>
      rw [hlookup, Option.getD_some] at hold
      exact (tallied.votesMap hlookup hold).append _
  · exact ⟨att, by simp [hmore], rfl, hbit⟩

private theorem inserted (hmore : more.counted = [att])
    (hlookup : (loop.votesMap.insert att.data.target.root (loop.mergedTally att)).lookup root =
      some tally) (hi : i ∈ tally.voters) : (history ++ more).VotedFor root i := by
  rcases lookup_insert_some.mp hlookup with ⟨rfl, rfl⟩ | ⟨-, hlookup⟩
  · exact tallied.mergedTally hmore hi
  · exact (tallied.votesMap hlookup hi).append _

private theorem closed (hmore : more.counted = [att])
    (hlookup : ((loop.votesMap.insert att.data.target.root (loop.mergedTally att)).erase
      att.data.target.root).lookup root = some tally) (hi : i ∈ tally.voters) :
    (history ++ more).VotedFor root i := by
  by_cases heq : root = att.data.target.root
  · rw [heq, AList.lookup_erase] at hlookup
    cases hlookup
  · rw [AList.lookup_erase_ne heq] at hlookup
    exact tallied.inserted hmore hlookup hi

/-- **A supermajority in the tally is a supermajority of distinct voters for the checkpoint.** -/
private theorem quorum (hmore : more.counted = [att])
    (recorded : ∀ other ∈ (history ++ more).counted,
      (history ++ more).HasRoot ssz other.data.target) (fix : (history ++ more).RootsFixSlots ssz)
    (hquorum : 2 * n ≤ 3 * (loop.mergedTally att).count) :
    Backed (history ++ more).counted n att.data.target := by
  have hsub : (loop.mergedTally att).voters ⊆
      supporters (history ++ more).counted n att.data.target := by
    intro i hi
    obtain ⟨other, hmem, hroot, hbit⟩ := tallied.mergedTally hmore hi
    have hatt : att ∈ (history ++ more).counted := by simp [hmore]
    have hsame := fix.eq_of_root (recorded other hmem) (recorded att hatt) hroot
    simp only [supporters, Finset.mem_filter, Finset.mem_range]
    exact ⟨Tally.lt_of_mem_voters hi, other, hmem, hsame, hbit⟩
  have hcard := Finset.card_le_card hsub
  rw [Tally.count_eq_card] at hquorum
  unfold Backed
  omega

/-- Backing survives more history, and a step that justifies its target adds that one. -/
private theorem backed_append
    (hnew : (history ++ more).RootsFixSlots ssz → ∀ checkpoint ∈ more.justified,
      Backed (history ++ more).counted n checkpoint) (fix : (history ++ more).RootsFixSlots ssz) :
    ∀ checkpoint ∈ (history ++ more).justified, Backed (history ++ more).counted n checkpoint := by
  intro checkpoint hmem
  rcases List.mem_append.mp hmem with h | h
  · exact (tallied.backed fix.of_append checkpoint h).mono (List.subset_append_left _ _)
  · exact hnew fix checkpoint h

end

/-- **A step of the loop keeps the tallies honest.** -/
theorem step {slots : RapidHashMap Nat} {att : Attestation} {hs : History}
    (recorded : Recorded ssz history n loop) (tallied : Tallied ssz history n loop)
    (hroot : loop.state.latestBlockHeader.stateRoot = Bytes32.zero)
    (step : AttestationStep (loop.state.latestBlockHeader.hashTreeRoot ssz) slots att loop loop' hs) :
    Tallied ssz (history ++ hs) n loop' := by
  have recorded' := recorded.step hroot step
  cases step with
  | skipped hno =>
    rw [History.append_empty]
    exact tallied
  | counted e hfew =>
    refine ⟨fun root i h => (tallied.pending root i h).append _, ?_,
      tallied.backed_append fun _ checkpoint hmem => by cases hmem⟩
    intro votes hvotes root tally i hlookup hi
    cases hvotes
    exact tallied.inserted rfl hlookup hi
  | justified e hquorum hset hnext =>
    refine ⟨fun root i h => (tallied.pending root i h).append _, ?_,
      tallied.backed_append fun fix checkpoint hmem => ?_⟩
    · intro votes hvotes root tally i hlookup hi
      cases hvotes
      exact tallied.closed rfl hlookup hi
    · rw [List.mem_singleton.mp hmem]
      exact tallied.quorum rfl recorded'.target_recorded fix hquorum
  | finalized e hquorum hset hnext hmissing =>
    refine ⟨fun root i h => (tallied.pending root i h).append _, ?_,
      tallied.backed_append fun fix checkpoint hmem => ?_⟩
    · intro votes hvotes root tally i hlookup hi
      cases hvotes
      exact tallied.closed rfl (RapidHashMap.of_lookup_retain hlookup).2 hi
    · rw [List.mem_singleton.mp hmem]
      exact tallied.quorum rfl recorded'.target_recorded fix hquorum

end Tallied

/-- The invariant behind justification. -/
abbrev Justified (ssz : Ssz) (history : History) (n : Nat) (loop : AttestationLoop n) : Prop :=
  (Shape history n loop ∧ Recorded ssz history n loop) ∧ Tallied ssz history n loop

/-- **On every chain what is justified is backed.** -/
theorem justified_invariant (ssz : Ssz) (genesisTime : Nat)
    (validators : Validators)
    (Good : BlockHeader → Attestation → Prop) :
    Invariant ssz (generateGenesis ssz genesisTime validators) Good (Justified ssz) := by
  refine (timeline_invariant ssz genesisTime validators Good).along ?_ ?_ ?_ ?_
  · refine ⟨?_, by simp [AttestationLoop.start], by simp [History.empty]⟩
    rintro root i ⟨k, hk, -⟩
    simp [AttestationLoop.start, generateGenesis, genesisDraft, LimitedList.empty] at hk
  · intro h state header staged base tallied hstaged
    refine ⟨?_, by simp [AttestationLoop.start], ?_⟩
    · rintro root i ⟨k, hk, hi, hbit⟩
      simp only [AttestationLoop.start, hstaged.roots_eq, hstaged.votes_eq,
        hstaged.validators_eq] at hk hi hbit
      exact (tallied.pending root i ⟨k, hk, hi, hbit⟩).append _
    · intro fix checkpoint hmem
      simp only [stageHistory, History.justified_append, History.counted_append, History.empty,
        List.append_nil, hstaged.validators_eq] at hmem ⊢
      exact tallied.backed fix.of_append checkpoint hmem
  · intro n h att hs loop loop' base tallied hn hroot hgood hstep
    exact tallied.step base.2 hroot hstep
  · intro n h state' loop base tallied hn hfinished
    have hvalidators : state'.validators.items.length = n :=
      (congrArg (·.items.length) hfinished.sameCheckpoints.validators_eq).trans hn.symm
    refine ⟨?_, by simp [AttestationLoop.start], ?_⟩
    · intro root i hpending
      change PendingVote state' state'.validators.items.length root i at hpending
      rw [hvalidators] at hpending
      cases hfinished with
      | untouched hvotes => exact tallied.pending root i hpending
      | packed hvotes hencode =>
        obtain ⟨tally, hlookup, hi⟩ := pendingVote_of_encode hencode hpending
        exact tallied.unpacked _ hvotes root tally i hlookup hi
    · rw [hvalidators]
      exact tallied.backed

/-! ## The law -/

section Law

variable {verifier : SignatureVerifier} {genesisTime : Nat}
  {validators : Validators} {history : History} {state : State}

section

variable (reached : Moment ssz verifier (generateGenesis ssz genesisTime validators) history state)

include reached

/-- Whatever a chain justified is backed. -/
theorem backed_of_justified
    (fix : history.RootsFixSlots ssz) {checkpoint : Checkpoint}
    (h : checkpoint ∈ history.justified) :
    Backed history.counted validators.items.length checkpoint := by
  obtain ⟨loop, -, -, tallied⟩ :=
    (justified_invariant ssz genesisTime validators fun _ _ => True).moment reached
  exact tallied.backed fix checkpoint h

/-- **Justification is backed by a supermajority.** At every moment of every chain, between blocks
and inside them, the latest justified checkpoint (past slot zero) and every slot whose bit is set
belong to a checkpoint of the chain for which at least two thirds of the registry have a bit in an
attestation that passed every check with exactly that target. -/
theorem justified_backed
    (fix : history.RootsFixSlots ssz) :
    (0 < state.latestJustified.slot →
      history.HasRoot ssz state.latestJustified ∧
        Backed history.counted validators.items.length state.latestJustified) ∧
    ∀ slot, state.latestFinalized.slot < slot →
      state.justifiedSlots.get (slot - state.latestFinalized.slot - 1) = true →
      ∃ root, history.HasRoot ssz ⟨root, slot⟩ ∧
        Backed history.counted validators.items.length ⟨root, slot⟩ := by
  obtain ⟨loop, rfl, ⟨shape, recorded⟩, tallied⟩ :=
    (justified_invariant ssz genesisTime validators fun _ _ => True).moment reached
  refine ⟨fun hpos => ?_, fun slot hslot hbit => ?_⟩
  · have hmem : loop.state.latestJustified ∈ history.justified := by
      rcases shape.latest_justified with h | h
      · omega
      · exact List.mem_of_getLast? h
    exact ⟨recorded.justified_recorded _ hmem, tallied.backed fix _ hmem⟩
  · obtain ⟨checkpoint, hmem, rfl⟩ := (shape.window slot hslot).mp hbit
    exact ⟨checkpoint.root, recorded.justified_recorded _ hmem, tallied.backed fix _ hmem⟩

end

/-- Two of three validators vote for slot 1. -/
def twoVotes : List PlannedBlock := [⟨1, []⟩, ⟨2, [⟨0, 1, voters 3 3#8⟩]⟩]

/-- The law at a slot justified by two votes. -/
theorem justified_backed_twoVotes :
    0 < (sampleEnd threeValidators twoVotes).2.latestJustified.slot ∧
      Backed (sampleEnd threeValidators twoVotes).1.counted threeValidators.items.length
        (sampleEnd threeValidators twoVotes).2.latestJustified := by
  have hchain := sampleEnd_chain threeValidators twoVotes (by decide +kernel)
  have hfix : (sampleEnd threeValidators twoVotes).1.RootsFixSlots sampleSsz := by decide +kernel
  have hpos : 0 < (sampleEnd threeValidators twoVotes).2.latestJustified.slot := by decide +kernel
  exact ⟨hpos, ((justified_backed (.idle hchain) hfix).1 hpos).2⟩

end Law

end Peam
