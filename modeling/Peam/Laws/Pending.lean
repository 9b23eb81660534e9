import Peam.Laws.SoftFail
import Peam.Laws.Ancestry

/-!
# What is pending can be resolved

Between two blocks the state keeps a tally for some roots, packed in two fields. Each such root is
the history's root of one slot, which lies past the finalized slot and has not been justified
(`Open`): a justification drops the tally of its target, and a finalization drops those at or below
its source. The packed form is in order, with a bit for each validator and root. So nothing that is
done with pending votes during an import can fail (`pendingVotes_resolvable`).

A root has one slot as long as no two headers of the chain collide.
-/

namespace Peam

open Calls (Failure Mutation)

variable {ssz : Ssz} {atts : List Attestation}

/-! ## Slots of roots -/

variable {root : Bytes32}

private theorem lookup_buildHistoricalRootSlots {slotIdx slot : Nat} {roots : List Bytes32}
    {out : RapidHashMap Nat}
    (h : (buildHistoricalRootSlots slotIdx roots out).lookup root = some slot) :
    (∃ i, roots[i]? = some root ∧ slot = slotIdx + i) ∨ out.lookup root = some slot := by
  induction roots generalizing slotIdx out with
  | nil => exact .inr h
  | cons head rest ih =>
    rw [buildHistoricalRootSlots] at h
    rcases ih h with ⟨i, hget, rfl⟩ | hout
    · exact .inl ⟨i + 1, hget, by omega⟩
    · split at hout
      · rcases lookup_insert_some.mp hout with ⟨rfl, rfl⟩ | ⟨-, hout⟩
        · exact .inl ⟨0, rfl, rfl⟩
        · exact .inr hout
      · exact .inr hout

private theorem lookup_rootToSlot {state : State} {slot : Nat} (hne : root ≠ Bytes32.zero)
    (hmem : root ∈ state.historicalBlockHashes.items)
    (h : (rootToSlot ssz state).lookup root = some slot) :
    state.historicalBlockHashes.items[slot]? = some root := by
  have hin : root ∈ buildHistoricalRootSlots 0 state.historicalBlockHashes.items ∅ :=
    mem_buildHistoricalRootSlots.mpr (.inl ⟨hne, hmem⟩)
  have hmap : (buildHistoricalRootSlots 0 state.historicalBlockHashes.items ∅).lookup root =
      some slot := by
    unfold rootToSlot at h
    dsimp only at h
    split at h
    · rename_i hnew
      -- the staged header is added only if its root is not one of the history
      have hother : root ≠ state.latestBlockHeader.hashTreeRoot ssz := by
        intro heq
        exact hnew.2 (heq ▸ hin)
      rwa [AList.lookup_insert_ne hother] at h
    · exact h
  rcases lookup_buildHistoricalRootSlots hmap with ⟨i, hget, rfl⟩ | hempty
  · rwa [Nat.zero_add]
  · rw [AList.lookup_empty] at hempty
    cases hempty

private theorem Recorded.slot_unique {history : History} {n : Nat} {loop : AttestationLoop n}
    (recorded : Recorded ssz history n loop) (fix : CollisionFree ssz history.headers)
    (hne : root ≠ Bytes32.zero) {first second : Nat}
    (hfirst : loop.state.historicalBlockHashes.items[first]? = some root)
    (hsecond : loop.state.historicalBlockHashes.items[second]? = some root) : first = second := by
  obtain ⟨a, ha, haslot, haroot⟩ := recorded.history_recorded first root hfirst hne
  obtain ⟨b, hb, hbslot, hbroot⟩ := recorded.history_recorded second root hsecond hne
  obtain rfl := fix a ha b hb (haroot.trans hbroot.symm)
  exact haslot.symm.trans hbslot

/-! ## Open roots -/

/-- The root of a slot past the finalized one that was never justified. -/
structure Open (history : History) (state : State) (root : Bytes32) : Prop where
  ne_zero : root ≠ Bytes32.zero
  slot : ∃ slot, state.historicalBlockHashes.items[slot]? = some root ∧
    state.latestFinalized.slot < slot ∧
    ∀ checkpoint ∈ history.justified, checkpoint.slot ≠ slot

/-- Every root with a tally is open. While a block's votes are unpacked, the packed ones are those
of its start. -/
structure OpenVotes (history : History) {n : Nat} (loop : AttestationLoop n) : Prop where
  packed : loop.votes = none → ∀ root ∈ loop.state.justificationsRoots.items,
    Open history loop.state root
  unpacked : ∀ votes, loop.votes = some votes → ∀ root ∈ votes, Open history loop.state root

namespace OpenVotes

variable {history hs : History} {n : Nat} {loop loop' : AttestationLoop n}
  {slots : RapidHashMap Nat} {att : Attestation}

private theorem votesMap (votes : OpenVotes history loop) {root : Bytes32}
    (hmem : root ∈ loop.votesMap) : Open history loop.state root := by
  unfold AttestationLoop.votesMap at hmem
  cases hvotes : loop.votes with
  | none =>
    rw [hvotes, Option.getD_none] at hmem
    exact votes.packed hvotes root (of_mem_decodeJustificationVotes hmem)
  | some unpacked =>
    rw [hvotes, Option.getD_some] at hmem
    exact votes.unpacked unpacked hvotes root hmem

private theorem of_unpacked {votes : RapidHashMap (Tally n)} (hvotes : loop.votes = some votes)
    (hopen : ∀ root ∈ votes, Open history loop.state root) : OpenVotes history loop := by
  refine ⟨?_, ?_⟩
  · intro hnone
    rw [hvotes] at hnone
    cases hnone
  · intro other hother
    rw [hvotes] at hother
    cases hother
    exact hopen

private theorem open_target
    (e : Eligible (loop.state.latestBlockHeader.hashTreeRoot ssz) loop.state loop.finalizedSlot
      att.data) (shape : Shape history n loop)
    (hself : NotSelf ssz loop.state.latestBlockHeader att) :
    Open history loop.state att.data.target.root := by
  have hlt := e.finalized_lt_target
  rw [shape.sync] at hlt
  refine ⟨e.target_root_ne, att.data.target.slot, e.target_in_history hself, hlt, ?_⟩
  intro checkpoint hmem hslot
  have hjustified := shape.isSlotJustified_iff_mem.mpr (.inr ⟨checkpoint, hmem, hslot⟩)
  rw [e.target_open] at hjustified
  cases hjustified

private theorem open_justified (links : List (Checkpoint × Checkpoint)) (finalized : Checkpoint)
    {root : Bytes32} (hopen : Open history loop.state root) (hne : root ≠ att.data.target.root)
    (htarget : loop.state.historicalBlockHashes.items[att.data.target.slot]? =
      some att.data.target.root)
    (hfinalized : ∀ slot, loop.state.historicalBlockHashes.items[slot]? = some root →
      loop.state.latestFinalized.slot < slot → finalized.slot < slot) :
    Open (history ++ ⟨[], [att], [att.data.target], links⟩)
      { loop.state with latestFinalized := finalized } root := by
  obtain ⟨hzero, slot, hget, hlt, hopen⟩ := hopen
  refine ⟨hzero, slot, hget, hfinalized slot hget hlt, ?_⟩
  intro checkpoint hmem
  rcases List.mem_append.mp hmem with hold | hnew
  · exact hopen checkpoint hold
  · rw [List.mem_singleton.mp hnew]
    intro hslot
    rw [hslot, hget] at htarget
    exact hne (Option.some.inj htarget)

/-- **One pass of the loop keeps every tally open.** -/
theorem step (shape : Shape history n loop) (recorded : Recorded ssz history n loop)
    (fix : CollisionFree ssz history.headers) (votes : OpenVotes history loop)
    (hself : NotSelf ssz loop.state.latestBlockHeader att)
    (step : AttestationStep (loop.state.latestBlockHeader.hashTreeRoot ssz)
      (rootToSlot ssz loop.state) att loop loop' hs) : OpenVotes (history ++ hs) loop' := by
  cases step with
  | skipped =>
    rw [History.append_empty]
    exact votes
  | counted e hfew =>
    apply of_unpacked rfl
    intro root hmem
    have hopen : Open history loop.state root := by
      rcases (AList.mem_insert _).mp hmem with rfl | hold
      · exact open_target e shape hself
      · exact votes.votesMap hold
    obtain ⟨hzero, slot, hget, hlt, hopen⟩ := hopen
    refine ⟨hzero, slot, hget, hlt, ?_⟩
    simpa using hopen
  | justified e hquorum hset hnext =>
    apply of_unpacked rfl
    intro root hmem
    obtain ⟨hne, hin⟩ := AList.mem_erase.mp hmem
    have hopen := votes.votesMap (((AList.mem_insert _).mp hin).resolve_left hne)
    obtain ⟨hzero, hslot⟩ :=
      open_justified [] loop.state.latestFinalized hopen hne (e.target_in_history hself)
        fun _ _ hlt => hlt
    exact ⟨hzero, hslot⟩
  | finalized e hquorum hset hnext hmissing =>
    apply of_unpacked rfl
    intro root hmem
    obtain ⟨tally, hlookup⟩ := Option.isSome_iff_exists.mp (AList.lookup_isSome.mpr hmem)
    obtain ⟨hkeep, hlookup⟩ := RapidHashMap.of_lookup_retain hlookup
    rw [justify_votesMap] at hlookup
    have hclosed : root ∈ (loop.votesMap.insert att.data.target.root
        (loop.mergedTally att)).erase att.data.target.root := by
      rw [← AList.lookup_isSome, hlookup]
      rfl
    obtain ⟨hne, hin⟩ := AList.mem_erase.mp hclosed
    have hopen := votes.votesMap (((AList.mem_insert _).mp hin).resolve_left hne)
    -- the slot the root map gives is the root's only slot, and it is past the source
    have hpast : ∀ slot, loop.state.historicalBlockHashes.items[slot]? = some root →
        att.data.source.slot < slot := by
      intro slot hget
      split at hkeep
      · next given hslot =>
        have hgiven := lookup_rootToSlot hopen.ne_zero (List.mem_of_getElem? hget) hslot
        rw [recorded.slot_unique fix hopen.ne_zero hget hgiven]
        exact of_decide_eq_true hkeep
      · cases hkeep
    obtain ⟨hzero, hslot⟩ :=
      open_justified [(att.data.source, att.data.target)] att.data.source hopen hne
        (e.target_in_history hself) fun slot hget _ => hpast slot hget
    exact ⟨hzero, hslot⟩

end OpenVotes

/-- **On every chain without self reference and collisions the pending roots are open.** -/
theorem openVotes_invariant (ssz : Ssz) (genesisTime : Nat)
    (validators : Validators) :
    Invariant ssz (generateGenesis ssz genesisTime validators) (NotSelf ssz)
      (fun h n loop => (Shape h n loop ∧ Recorded ssz h n loop) ∧
        (CollisionFree ssz h.headers → OpenVotes h loop)) := by
  refine (timeline_invariant ssz genesisTime validators (NotSelf ssz)).along ?_ ?_ ?_ ?_
  · intro _
    refine ⟨?_, ?_⟩
    · intro _ root hmem
      cases hmem
    · intro votes hvotes
      cases hvotes
  · intro h state header staged base votes hstaged fix
    have hold := votes fun a ha b hb =>
      fix a (List.mem_append_left _ ha) b (List.mem_append_left _ hb)
    refine ⟨?_, ?_⟩
    · intro _ root hmem
      simp only [AttestationLoop.start, hstaged.roots_eq] at hmem
      obtain ⟨hzero, slot, hget, hlt, hopen⟩ := hold.packed rfl root hmem
      have hfin := hstaged.finalizedSlot_eq
      refine ⟨hzero, slot, hstaged.history_grows hget, ?_, ?_⟩
      · simp only [AttestationLoop.start, hfin]
        exact hlt
      · simpa [stageHistory, History.empty] using hopen
    · intro votes hvotes
      cases hvotes
  · intro n h att hs loop loop' base votes hn hroot hself hstep fix
    have hfix : CollisionFree ssz h.headers := fun a ha b hb =>
      fix a (List.mem_append_left _ ha) b (List.mem_append_left _ hb)
    exact (votes hfix).step base.1 base.2 hfix hself hstep
  · intro n h state' loop base votes hn hfinished fix
    have hold := votes fix
    refine ⟨?_, ?_⟩
    · intro _ root hmem
      cases hfinished with
      | untouched hvotes =>
        obtain ⟨hzero, hslot⟩ := hold.packed hvotes root hmem
        exact ⟨hzero, hslot⟩
      | packed hvotes hencode =>
        obtain ⟨list, hlist, rfl⟩ := encodeJustificationVotes_ok hencode
        simp only [AttestationLoop.start, sealed, hlist] at hmem
        obtain ⟨hzero, hslot⟩ := hold.unpacked _ hvotes root (mem_sortedRoots.mp hmem)
        exact ⟨hzero, hslot⟩
    · intro votes hvotes
      cases hvotes

/-! ## The packed form -/

/-- The packed roots are in strict order, with `n` bits for each. -/
structure PackedVotes (n : Nat) (state : State) : Prop where
  sorted : state.justificationsRoots.items.Pairwise (· < ·)
  bits : state.justificationsValidators.len = state.justificationsRoots.items.length * n

private theorem sortedRoots_pairwise {n : Nat} (votes : RapidHashMap (Tally n)) :
    (sortedRoots votes).Pairwise (· < ·) := by
  have hle : (sortedRoots votes).Pairwise (· ≤ ·) := List.pairwise_insertionSort _ _
  have hnodup : (sortedRoots votes).Nodup :=
    (List.perm_insertionSort _ _).nodup_iff.mpr votes.keys_nodup
  exact (hle.and hnodup).imp fun h => BitVec.lt_of_le_ne h.1 h.2

private theorem packedVotes_invariant (ssz : Ssz) (genesisTime : Nat)
    (validators : Validators)
    (Good : BlockHeader → Attestation → Prop) :
    Invariant ssz (generateGenesis ssz genesisTime validators) Good
      (fun _ n loop => PackedVotes n loop.state) where
  start := ⟨List.Pairwise.nil, (Nat.zero_mul _).symm⟩
  stage {h state header staged} packed hstaged := by
    obtain ⟨hsorted, hbits⟩ := packed
    simp only [AttestationLoop.start] at hsorted hbits ⊢
    refine ⟨?_, ?_⟩
    · rw [hstaged.roots_eq]
      exact hsorted
    · rw [hstaged.roots_eq, hstaged.votes_eq, hstaged.validators_eq]
      exact hbits
  step {n h att hs loop loop'} packed hn hroot hgood hstep := by
    have same := hstep.sameBase
    refine ⟨?_, ?_⟩
    · rw [same.roots_eq]
      exact packed.sorted
    · rw [same.roots_eq, same.votes_eq]
      exact packed.bits
  finish {n h state' loop} packed hn hfinished := by
    cases hfinished with
    | untouched hvotes =>
      refine ⟨packed.sorted, ?_⟩
      show _ = _ * loop.state.validators.items.length
      rw [← hn]
      exact packed.bits
    | packed hvotes hencode =>
      obtain ⟨list, hlist, rfl⟩ := encodeJustificationVotes_ok hencode
      refine ⟨?_, ?_⟩
      · show list.items.Pairwise (· < ·)
        rw [hlist]
        exact sortedRoots_pairwise _
      · show _ = list.items.length * loop.state.validators.items.length
        rw [hlist, ← hn]
        rfl

/-! ## Errors -/

section Errors

variable {staged : State}

variable {failure : Failure}

/-- A stale target fails with the text of the justifiability rule. -/
theorem Ready.step_error {n : Nat} {loop loop' : AttestationLoop n} {att : Attestation}
    (ready : Ready ssz staged loop)
    (h : attestationStep (staged.latestBlockHeader.hashTreeRoot ssz) (rootToSlot ssz staged) att
      loop = .error failure loop') : failure = .err "candidate slot must be >= finalized slot" := by
  obtain ⟨hmatches, hlow⟩ := ready.stale_of_error h
  obtain ⟨history, shape⟩ := ready.shape
  rw [← shape.sync] at hlow
  rw [attestationStep, isEligible_error_iff.mpr ⟨hmatches, hlow, rfl⟩] at h
  cases h
  rfl

private theorem Ready.loop_error {n : Nat} {loop loop' : AttestationLoop n}
    (ready : Ready ssz staged loop)
    (h : attestationLoop (staged.latestBlockHeader.hashTreeRoot ssz) (rootToSlot ssz staged) atts
      loop = .error failure loop') : failure = .err "candidate slot must be >= finalized slot" := by
  induction atts generalizing loop with
  | nil => cases h
  | cons att rest ih =>
    unfold attestationLoop at h
    rw [List.forM_cons, Mutation.bind_error] at h
    rcases h with hstep | ⟨_, next, hstep, hrest⟩
    · exact ready.step_error hstep
    · exact ih (ready.step hstep) hrest

/-- **Only a stale target makes the attestations of a staged block fail.** -/
theorem Ready.processAttestations_error {left : State}
    (ready : Ready ssz staged (AttestationLoop.start staged))
    (hpos : staged.historicalBlockHashes.items ≠ [])
    (h : processAttestations ssz atts staged = .error failure left) :
    failure = .err "candidate slot must be >= finalized slot" := by
  unfold processAttestations at h
  split at h
  · cases h
  · split at h
    · -- a zero root would be pending
      rename_i hzero
      obtain ⟨root, hmem, hroot⟩ := List.any_eq_true.mp hzero
      rcases ready.pending.packed root hmem with hknown | hlatest
      · exact absurd (of_decide_eq_true hroot) hknown.1
      · exact absurd (of_decide_eq_true hroot) hlatest.1
    · dsimp only at h
      split at h
      · rename_i hloop
        cases h
        exact ready.loop_error hloop
      · rename_i loop hloop
        have ready' := ready.run hloop
        split at h
        · cases h
        · rename_i votes hvotes
          obtain ⟨after, hafter⟩ := ready'.encode_ok staged.validators.bounded hpos hvotes
          rw [hafter] at h
          cases h

end Errors

/-! ## The law -/

section Law

variable {verifier : SignatureVerifier} {genesisTime : Nat}
  {validators : Validators} {history : History} {state : State}
  {blocks : List SignedBlockWithAttestation}

/-- **Pending votes stay resolvable.** The packed roots are distinct, in order and not zero, each the
root of a slot past the finalized one that is not justified, with one bit for each validator; and no
later block makes the import fail on them. -/
theorem pendingVotes_resolvable (reached : Chain ssz verifier
      (generateGenesis ssz genesisTime validators) blocks history state)
    (noSelf : NoSelfReference ssz blocks) (fix : CollisionFree ssz history.headers) :
    state.justificationsRoots.items.Pairwise (· < ·) ∧
    (∀ root ∈ state.justificationsRoots.items, root ≠ Bytes32.zero ∧
      ∃ slot, state.historicalBlockHashes.items[slot]? = some root ∧
        state.latestFinalized.slot < slot ∧
        isSlotJustified state.justifiedSlots state.latestFinalized.slot slot = false) ∧
    state.justificationsValidators.len =
      state.justificationsRoots.items.length * state.validators.items.length ∧
    ∀ header staged atts failure left, stageBlock ssz header state = .ok () staged →
      processAttestations ssz atts staged = .error failure left →
      failure ≠ .err "zero hash is not allowed in justifications roots" ∧
      failure ≠ .err "justification root missing from root_to_slot" ∧
      failure ≠ .panicked "justifications roots" := by
  obtain ⟨⟨shape, -⟩, votes⟩ :=
    (openVotes_invariant ssz genesisTime validators).chain reached noSelf
  have packed := (packedVotes_invariant ssz genesisTime validators (NotSelf ssz)).chain reached
    noSelf
  refine ⟨packed.sorted, ?_, packed.bits, ?_⟩
  · intro root hmem
    obtain ⟨hzero, slot, hget, hlt, hopen⟩ := (votes fix).packed rfl root hmem
    refine ⟨hzero, slot, hget, hlt, ?_⟩
    rw [Bool.eq_false_iff]
    intro hjustified
    rcases shape.isSlotJustified_iff_mem.mp hjustified with hle | ⟨checkpoint, hin, hslot⟩
    · exact absurd hle (Nat.not_le.mpr hlt)
    · exact hopen checkpoint hin hslot
  · intro header staged atts failure left hstage herror
    have hstaged := stageBlock_ok hstage
    have ready := ready_of_staged reached noSelf hstaged
    have hpos : staged.historicalBlockHashes.items ≠ [] := by
      rw [hstaged.history_eq]
      simp
    rw [ready.processAttestations_error hpos herror]
    decide

/-- One of three validators has voted for slot 1, and one for slot 2. -/
def twoPending : List PlannedBlock :=
  [⟨1, []⟩, ⟨2, []⟩, ⟨3, [⟨0, 1, voters 3 1#8⟩, ⟨0, 2, voters 3 4#8⟩]⟩]

/-- The law at two pending roots. -/
theorem pendingVotes_resolvable_twoPending :
    (sampleEnd threeValidators twoPending).2.justificationsRoots.items.length = 2 ∧
      (sampleEnd threeValidators twoPending).2.justificationsRoots.items.Pairwise (· < ·) := by
  have hchain := sampleEnd_chain threeValidators twoPending (by decide +kernel)
  have hpremises : NoSelfReference sampleSsz (sampleBlocks threeValidators twoPending) ∧
      CollisionFree sampleSsz (sampleEnd threeValidators twoPending).1.headers ∧
      (sampleEnd threeValidators twoPending).2.justificationsRoots.items.length = 2 := by
    decide +kernel
  exact ⟨hpremises.2.2, (pendingVotes_resolvable hchain hpremises.1 hpremises.2.1).1⟩

end Law

end Peam
