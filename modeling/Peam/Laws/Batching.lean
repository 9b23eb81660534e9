import Peam.Laws.SoftFail
import Peam.Laws.VoteCodec

/-!
# A list of attestations may be split

Two calls pack the map of votes after the first list and unpack it for the second, and read the
finalized slot, the history and the latest root anew. `Resumed` relates the loop of the second call
to the loop that simply went on. One pass keeps it (`resumed_step`), so both runs end in one state.

Nothing is assumed of the state: a bitmap that is not in packed form is read by whichever call
unpacks it first, and that is the same one in both runs.
-/

namespace Peam

open Calls (Mutation)

variable {ssz : Ssz}

/-- The state without its packed votes. -/
def State.sansVotes (state : State) : State :=
  { state with
    justificationsRoots := LimitedList.empty
    justificationsValidators := BitList.default }

/-- Two loops at the same point: they differ in the packed fields, which neither reads again once
its votes are unpacked, and in the order of the tallies. -/
structure Alike {n : Nat} (loop other : AttestationLoop n) : Prop where
  state : loop.state.sansVotes = other.state.sansVotes
  votes : SameContents loop.votesMap other.votesMap
  finalizedSlot : loop.finalizedSlot = other.finalizedSlot

namespace Alike

variable {n : Nat} {loop other : AttestationLoop n}

section

variable (alike : Alike loop other)

include alike

private theorem isEligible_eq (latestRoot : Bytes32) (data : AttestationData) :
    isEligible latestRoot loop.state loop.finalizedSlot data =
      isEligible latestRoot other.state other.finalizedSlot data := by
  have hstate := congrArg
    (fun state => isEligible latestRoot state other.finalizedSlot data) alike.state
  rw [alike.finalizedSlot]
  exact hstate

private theorem mergedTally_eq (att : Attestation) :
    loop.mergedTally att = other.mergedTally att := by
  rw [AttestationLoop.mergedTally, AttestationLoop.mergedTally, alike.votes]

private theorem missingRoot_eq (slots : RapidHashMap Nat) :
    loop.missingRoot slots = other.missingRoot slots :=
  alike.votes.keys_perm.any_eq

private theorem recordVote (att : Attestation) :
    Alike (loop.recordVote att) (other.recordVote att) where
  state := alike.state
  votes := by
    show SameContents (loop.votesMap.insert att.data.target.root (loop.mergedTally att))
      (other.votesMap.insert att.data.target.root (other.mergedTally att))
    rw [alike.mergedTally_eq]
    exact alike.votes.insert _ _
  finalizedSlot := alike.finalizedSlot

private theorem setLatestJustified (target : Checkpoint) :
    Alike (loop.setLatestJustified target) (other.setLatestJustified target) where
  state := congrArg (fun state : State => { state with latestJustified := target }) alike.state
  votes := alike.votes
  finalizedSlot := alike.finalizedSlot

private theorem closeTarget (target : Checkpoint) (window : JustifiedSlots) :
    Alike (loop.closeTarget target window) (other.closeTarget target window) where
  state := congrArg (fun state : State => { state with justifiedSlots := window }) alike.state
  votes := alike.votes.erase target.root
  finalizedSlot := alike.finalizedSlot

private theorem finalizeSource (slots : RapidHashMap Nat)
    (source : Checkpoint) :
    Alike (loop.finalizeSource slots source) (other.finalizeSource slots source) where
  state := congrArg
    (fun state : State =>
      { state with
        latestFinalized := source
        justifiedSlots := shiftJustifiedWindow state.justifiedSlots
          (subU64 source.slot state.latestFinalized.slot) })
    alike.state
  votes := by
    dsimp only [AttestationLoop.finalizeSource, AttestationLoop.votesMap, Option.getD_some]
    exact alike.votes.retain _
  finalizedSlot := rfl

/-- The end of the loop body, where both loops have their votes unpacked. -/
theorem justifyTarget {slots : RapidHashMap Nat} {data : AttestationData}
    {next : AttestationLoop n}
    (h : justifyTarget slots data loop = .ok () next) :
    ∃ next', Peam.justifyTarget slots data other = .ok () next' ∧ Alike next next' ∧
      next.votes.isSome ∧ next'.votes.isSome := by
  have hwindow := congrArg State.justifiedSlots alike.state
  have alike' := alike.setLatestJustified data.target
  simp only [Peam.justifyTarget] at h ⊢
  have hset : setJustifiedSlot (loop.setLatestJustified data.target).state.justifiedSlots
      (loop.setLatestJustified data.target).finalizedSlot data.target.slot =
      setJustifiedSlot (other.setLatestJustified data.target).state.justifiedSlots
        (other.setLatestJustified data.target).finalizedSlot data.target.slot := by
    rw [alike'.finalizedSlot]
    exact congrArg (setJustifiedSlot · _ _) hwindow
  rw [← hset]
  split at h
  · cases h
  · rename_i window _
    have closed := alike'.closeTarget data.target window
    rw [← alike'.finalizedSlot, ← closed.missingRoot_eq slots]
    split at h
    · rename_i hnext
      rw [if_pos hnext]
      split at h
      · cases h
      · rename_i hmissing
        rw [if_neg hmissing]
        cases h
        exact ⟨_, rfl, closed.finalizeSource slots data.source, rfl, rfl⟩
    · rename_i hnext
      rw [if_neg hnext]
      cases h
      exact ⟨_, rfl, closed, rfl, rfl⟩

/-- **One pass on two loops at the same point**: both skip the attestation, or both unpack. -/
theorem step {latestRoot : Bytes32} {slots : RapidHashMap Nat} {att : Attestation}
    {next : AttestationLoop n}
    (h : attestationStep latestRoot slots att loop = .ok () next) :
    ∃ next', attestationStep latestRoot slots att other = .ok () next' ∧ Alike next next' ∧
      (next = loop ∧ next' = other ∨ next.votes.isSome ∧ next'.votes.isSome) := by
  unfold attestationStep at h ⊢
  rw [← alike.isEligible_eq]
  cases heligible : isEligible latestRoot loop.state loop.finalizedSlot att.data with
  | error e =>
    rw [heligible] at h
    cases h
  | ok eligible =>
    rw [heligible] at h
    cases eligible with
    | false =>
      cases h
      exact ⟨other, rfl, alike, .inl ⟨rfl, rfl⟩⟩
    | true =>
      dsimp only at h ⊢
      rw [← alike.mergedTally_eq]
      split at h
      · rename_i hquorum
        rw [if_pos hquorum]
        cases h
        exact ⟨_, rfl, alike.recordVote att, .inr ⟨rfl, rfl⟩⟩
      · rename_i hquorum
        rw [if_neg hquorum]
        obtain ⟨next', hnext', alike', hsome⟩ := (alike.recordVote att).justifyTarget h
        exact ⟨next', hnext', alike', .inr hsome⟩

end

end Alike

/-! ## Across the boundary of two calls -/

private theorem encodeJustificationVotes_sansVotes {n : Nat} {votes : RapidHashMap (Tally n)}
    {state other after : State} (same : state.sansVotes = other.sansVotes)
    (h : encodeJustificationVotes ssz votes state = .ok () after) :
    encodeJustificationVotes ssz votes other = .ok () after := by
  unfold encodeJustificationVotes at h ⊢
  rw [Mutation.bind_ok] at h ⊢
  obtain ⟨_, t, hfits, h⟩ := h
  obtain ⟨hoverflow, rfl⟩ := Mutation.failIf_ok.mp hfits
  refine ⟨(), other, Mutation.failIf_ok.mpr ⟨hoverflow, rfl⟩, ?_⟩
  rw [Mutation.bind_ok] at h ⊢
  obtain ⟨_, t, hwithin, h⟩ := h
  obtain ⟨hlimit, rfl⟩ := Mutation.failIf_ok.mp hwithin
  refine ⟨(), other, Mutation.failIf_ok.mpr ⟨hlimit, rfl⟩, ?_⟩
  cases hnew : LimitedList.new ssz historicalRootsLimit (sortedRoots votes) with
  | error e =>
    rw [hnew] at h
    cases h
  | ok list =>
    rw [hnew] at h
    cases h
    exact congrArg (fun state : State => EStateM.Result.ok ()
      { state with
        justificationsRoots := list
        justificationsValidators :=
          ⟨encodeRoots votes 0 (sortedRoots votes)
            (List.replicate (((sortedRoots votes).length * n + 7) / 8) 0#8),
            (sortedRoots votes).length * n⟩ }) same.symm

/-- The loop of a second call beside the loop that went on. As long as the second call has not
unpacked, its packed fields are those the first call left. -/
structure Resumed (ssz : Ssz) {n : Nat} (second whole : AttestationLoop n) : Prop
    extends Alike second whole where
  opened : whole.votes.isSome
  unread : second.votes = none →
    encodeJustificationVotes ssz whole.votesMap whole.state = .ok () second.state

private theorem resumed_step {n : Nat} (latestRoot : Bytes32) (slots : RapidHashMap Nat)
    (att : Attestation) :
    Mutation.Follows (Resumed ssz (n := n)) (attestationStep latestRoot slots att)
      (attestationStep latestRoot slots att) := by
  intro second whole _ next resumed h
  obtain ⟨whole', hwhole', alike, ⟨rfl, rfl⟩ | ⟨hnext, hopened⟩⟩ := resumed.toAlike.step h
  · exact ⟨whole', hwhole', resumed⟩
  · refine ⟨whole', hwhole', alike, hopened, fun hnone => ?_⟩
    rw [hnone] at hnext
    cases hnext

/-- What the second call packs, or leaves packed, is what the whole run packs. -/
theorem Resumed.packed {n : Nat} {second whole : AttestationLoop n} {after : State}
    (resumed : Resumed ssz second whole)
    (h : second.votes = none ∧ after = second.state ∨
      ∃ votes, second.votes = some votes ∧
        encodeJustificationVotes ssz votes second.state = .ok () after) :
    ∃ votes, whole.votes = some votes ∧
      encodeJustificationVotes ssz votes whole.state = .ok () after := by
  obtain ⟨votes, hvotes⟩ := Option.isSome_iff_exists.mp resumed.opened
  have hmap : whole.votesMap = votes := by rw [AttestationLoop.votesMap, hvotes, Option.getD_some]
  refine ⟨votes, hvotes, ?_⟩
  rcases h with ⟨hnone, rfl⟩ | ⟨own, hown, hpacked⟩
  · rw [← hmap]
    exact resumed.unread hnone
  · have hsame : SameContents own votes := by
      have := resumed.votes
      rwa [hmap, AttestationLoop.votesMap, hown, Option.getD_some] at this
    rw [← encodeJustificationVotes_congr ssz hsame]
    exact encodeJustificationVotes_sansVotes resumed.state hpacked

section Loop

variable {n : Nat} {latestRoot : Bytes32} {slots : RapidHashMap Nat}

private theorem attestationLoop_append {first second : List Attestation}
    {loop loop' : AttestationLoop n} :
    attestationLoop latestRoot slots (first ++ second) loop = .ok () loop' ↔
      ∃ mid, attestationLoop latestRoot slots first loop = .ok () mid ∧
        attestationLoop latestRoot slots second mid = .ok () loop' := by
  unfold attestationLoop
  rw [List.forM_append, Mutation.bind_ok]
  exact ⟨fun ⟨_, mid, hfirst, hsecond⟩ => ⟨mid, hfirst, hsecond⟩,
    fun ⟨mid, hfirst, hsecond⟩ => ⟨(), mid, hfirst, hsecond⟩⟩

private theorem attestationLoop_finalizedSlot {atts : List Attestation}
    {loop loop' : AttestationLoop n} (start : loop.finalizedSlot = loop.state.latestFinalized.slot)
    (run : attestationLoop latestRoot slots atts loop = .ok () loop') :
    loop'.finalizedSlot = loop'.state.latestFinalized.slot := by
  refine @attestationLoop_rule n latestRoot slots
    (fun _ loop => loop.finalizedSlot = loop.state.latestFinalized.slot) atts loop loop'
    History.empty ?_ start run
  intro h att a b hs _ hslot step
  cases step with
  | skipped => exact hslot
  | counted => exact hslot
  | justified => exact hslot
  | finalized => rfl

end Loop

/-- **The batching law**: two calls one after the other do what one call on both lists does. -/
theorem processAttestations_append {first second : List Attestation} {staged mid after : State}
    (hfirst : processAttestations ssz first staged = .ok () mid)
    (hsecond : processAttestations ssz second mid = .ok () after) :
    processAttestations ssz (first ++ second) staged = .ok () after := by
  refine (processAttestations_iff rfl).mpr ?_
  rcases (processAttestations_iff rfl).mp hfirst with
    ⟨hzero, rfl⟩ | ⟨hne, hroots, loop, hloop, hmid⟩
  · rcases (processAttestations_iff rfl).mp hsecond with ⟨_, rfl⟩ | ⟨hne, _⟩
    · exact .inl ⟨hzero, rfl⟩
    · exact absurd hzero hne
  · have hbase : SameBase staged loop.state := attestationLoop_sameBase hloop
    have hslot := attestationLoop_finalizedSlot rfl hloop
    have hsame : mid.sansVotes = loop.state.sansVotes := by
      rcases hmid with ⟨_, rfl⟩ | ⟨votes, _, hpacked⟩
      · rfl
      · obtain ⟨_, _, rfl⟩ := encodeJustificationVotes_ok hpacked
        rfl
    have hheader : mid.latestBlockHeader = staged.latestBlockHeader :=
      (congrArg State.latestBlockHeader hsame).trans hbase.header_eq
    have hhistory : mid.historicalBlockHashes = staged.historicalBlockHashes :=
      (congrArg State.historicalBlockHashes hsame).trans hbase.history_eq
    have hvalidators : mid.validators = staged.validators :=
      (congrArg State.validators hsame).trans hbase.validators_eq
    have hfinalized := congrArg (fun state : State => state.latestFinalized) hsame
    change mid.latestFinalized = loop.state.latestFinalized at hfinalized
    have hslots : rootToSlot ssz mid = rootToSlot ssz staged := by
      unfold rootToSlot
      rw [hheader, hhistory]
    rcases (processAttestations_iff (congrArg (·.items.length) hvalidators)).mp hsecond with
      ⟨hzero, _⟩ | ⟨_, _, loop', hloop', hafter⟩
    · exact absurd hzero hne
    · refine .inr ⟨hne, hroots, ?_⟩
      rw [hheader, hslots, hfinalized, ← hslot] at hloop'
      rcases hmid with ⟨hnone, rfl⟩ | ⟨votes, hvotes, hpacked⟩
      · -- nothing was unpacked: the second call starts where the loop stands
        refine ⟨loop', attestationLoop_append.mpr ⟨loop, hloop, ?_⟩, hafter⟩
        rw [← hnone] at hloop'
        exact hloop'
      · have hmap : loop.votesMap = votes := by
          rw [AttestationLoop.votesMap, hvotes, Option.getD_some]
        have resumed : Resumed ssz ⟨mid, none, loop.finalizedSlot⟩ loop := by
          refine ⟨⟨hsame, ?_, rfl⟩, by rw [hvotes]; rfl, fun _ => by rw [hmap]; exact hpacked⟩
          rw [hmap]
          exact sameContents_of_layout (Nat.one_le_iff_ne_zero.mpr hne) (layout_of_encode hpacked)
        obtain ⟨whole, hwhole, resumed'⟩ :=
          Mutation.Follows.forM (resumed_step _ _) resumed hloop'
        exact ⟨whole, attestationLoop_append.mpr ⟨loop, hloop, hwhole⟩,
          .inr (resumed'.packed hafter)⟩

/-- One vote of three for slot 1, short of the supermajority, and the one that completes it. -/
def firstHalf : List Attestation :=
  [⟨0, 1, voters 3 1#8⟩].map fun vote : PlannedVote => vote.attestation fourthStaged

def secondHalf : List Attestation :=
  [⟨0, 1, voters 3 2#8⟩, ⟨1, 2, voters 3 3#8⟩].map fun vote : PlannedVote =>
    vote.attestation fourthStaged

def afterHalf : State :=
  ((processAttestations sampleSsz firstHalf).after fourthStaged).getD fourthStaged

def afterHalves : State :=
  ((processAttestations sampleSsz secondHalf).after afterHalf).getD afterHalf

/-- A tally is packed between the halves, and the second one justifies its target and the next. -/
theorem processAttestations_append_halves :
    (afterHalf.justificationsRoots.items.length = 1 ∧ afterHalves.latestJustified.slot = 2) ∧
      processAttestations sampleSsz (firstHalf ++ secondHalf) fourthStaged =
        .ok () afterHalves := by
  have hfirst : processAttestations sampleSsz firstHalf fourthStaged = .ok () afterHalf :=
    Mutation.after_eq_some.mp (by decide +kernel)
  have hsecond : processAttestations sampleSsz secondHalf afterHalf = .ok () afterHalves :=
    Mutation.after_eq_some.mp (by decide +kernel)
  exact ⟨by decide +kernel, processAttestations_append hfirst hsecond⟩

end Peam
