import Peam.Laws.Finality

/-!
# Which attestation lists a staged state accepts

`process_attestations` promises to skip stale and malformed attestations. On a chain all but one of
its errors are unreachable: the `?` on the justifiability rule turns a target below the finalized
slot into an error (`processAttestations_ok_iff`, `staleVote_rejected`).

The others are excluded by what is pending: every root with a tally is a non-zero entry of the
history past slot zero (`Pending`), and there are never more such roots than the packed list can
hold.
-/

namespace Peam

open Calls (Failure Mutation)

variable {ssz : Ssz} {root : Bytes32} {att : Attestation} {atts : List Attestation}

/-! ## Pending roots -/

/-- A non-zero root of the history past slot zero. -/
def KnownRoot (state : State) (root : Bytes32) : Prop :=
  root ≠ Bytes32.zero ∧ root ∈ state.historicalBlockHashes.items.drop 1

/-- Every root with a tally, packed or unpacked, is known. -/
structure Pending (Known : Bytes32 → Prop) {n : Nat} (loop : AttestationLoop n) : Prop where
  packed : ∀ root ∈ loop.state.justificationsRoots.items, Known root
  unpacked : ∀ votes, loop.votes = some votes → ∀ root ∈ votes, Known root

namespace Pending

variable {Known : Bytes32 → Prop} {n : Nat} {loop loop' : AttestationLoop n}

section

variable (pending : Pending Known loop)

include pending

private theorem mono {More : Bytes32 → Prop}
    (h : ∀ root, Known root → More root) : Pending More loop :=
  ⟨fun root hmem => h root (pending.packed root hmem),
    fun votes hvotes root hmem => h root (pending.unpacked votes hvotes root hmem)⟩

private theorem votesMap (hmem : root ∈ loop.votesMap) : Known root := by
  unfold AttestationLoop.votesMap at hmem
  cases hvotes : loop.votes with
  | none =>
    rw [hvotes, Option.getD_none] at hmem
    exact pending.packed root (of_mem_decodeJustificationVotes hmem)
  | some votes =>
    rw [hvotes, Option.getD_some] at hmem
    exact pending.unpacked votes hvotes root hmem

private theorem closed
    (hmem : root ∈ (loop.votesMap.insert att.data.target.root (loop.mergedTally att)).erase
      att.data.target.root) : Known root := by
  rw [AList.mem_erase, AList.mem_insert] at hmem
  exact pending.votesMap (hmem.2.resolve_left hmem.1)

/-- **A step of the loop adds at most the root of a target that passed the checks.** -/
theorem step {latestRoot : Bytes32} {slots : RapidHashMap Nat} {att : Attestation} {hs : History}
    (htarget : Matches latestRoot loop.state att.data → Known att.data.target.root)
    (step : AttestationStep latestRoot slots att loop loop' hs) : Pending Known loop' := by
  cases step with
  | skipped => exact pending
  | counted e hfew =>
    refine ⟨pending.packed, fun votes hvotes root hmem => ?_⟩
    cases hvotes
    rw [AList.mem_insert] at hmem
    rcases hmem with rfl | hmem
    · exact htarget e.toMatches
    · exact pending.votesMap hmem
  | justified e hquorum hset hnext =>
    refine ⟨pending.packed, fun votes hvotes root hmem => ?_⟩
    cases hvotes
    exact pending.closed hmem
  | finalized e hquorum hset hnext hmissing =>
    refine ⟨pending.packed, fun votes hvotes root hmem => ?_⟩
    cases hvotes
    exact pending.closed (RapidHashMap.mem_of_mem_retain hmem)

private theorem length_keys_le {votes : RapidHashMap (Tally n)}
    (hvotes : loop.votes = some votes) (roots : List Bytes32)
    (hknown : ∀ root, Known root → root ∈ roots) : votes.keys.length ≤ roots.length := by
  refine (List.subperm_of_subset votes.keys_nodup fun root hmem => ?_).length_le
  exact hknown root (pending.unpacked votes hvotes root (AList.mem_keys.mpr hmem))

end

end Pending

private theorem Matches.knownRoot {latestRoot : Bytes32} {state : State} {data : AttestationData}
    (m : Matches latestRoot state data)
    (hget : state.historicalBlockHashes.items[data.target.slot]? = some data.target.root) :
    KnownRoot state data.target.root := by
  refine ⟨m.target_root_ne, List.mem_iff_getElem?.mpr ⟨data.target.slot - 1, ?_⟩⟩
  have := m.source_lt_target
  rw [List.getElem?_drop, show 1 + (data.target.slot - 1) = data.target.slot by omega]
  exact hget

private theorem KnownRoot.stage {state staged : State} {header : BlockHeader}
    (hstaged : StagedOn ssz state header staged) (known : KnownRoot state root) :
    KnownRoot staged root := by
  refine ⟨known.1, ?_⟩
  rw [hstaged.history_eq, List.drop_append]
  exact List.mem_append_left _ known.2

/-- **On every chain without self reference the pending roots are known.** -/
theorem pending_invariant (ssz : Ssz) (genesisTime : Nat)
    (validators : Validators) :
    Invariant ssz (generateGenesis ssz genesisTime validators) (NotSelf ssz)
      (fun _ _ loop => Pending (KnownRoot loop.state) loop) where
  start := by
    refine ⟨fun root hmem => ?_, fun votes hvotes => by cases hvotes⟩
    cases hmem
  stage {h state header staged} pending hstaged := by
    refine ⟨fun root hmem => ?_, fun votes hvotes => by cases hvotes⟩
    simp only [AttestationLoop.start, hstaged.roots_eq] at hmem
    exact (pending.packed root hmem).stage hstaged
  step {n h att hs loop loop'} pending hn hroot hself hstep := by
    have hsame : KnownRoot loop'.state = KnownRoot loop.state := by
      unfold KnownRoot
      rw [hstep.sameBase.history_eq]
    rw [hsame]
    exact pending.step (fun m => m.knownRoot (m.target_in_history hself)) hstep
  finish {n h state' loop} pending hn hfinished := by
    refine ⟨fun root hmem => ?_, fun votes hvotes => by cases hvotes⟩
    have hsame : KnownRoot state' root ↔ KnownRoot loop.state root := by
      unfold KnownRoot
      rw [hfinished.sameCheckpoints.history_eq]
    simp only [AttestationLoop.start] at hmem ⊢
    rw [hsame]
    cases hfinished with
    | untouched hvotes => exact pending.packed root hmem
    | packed hvotes hencode =>
      obtain ⟨list, hlist, rfl⟩ := encodeJustificationVotes_ok hencode
      simp only [sealed, hlist] at hmem
      exact pending.unpacked _ hvotes root (mem_sortedRoots.mp hmem)

/-! ## The slots of known roots -/

/-- The history map knows the non-zero roots. -/
theorem mem_buildHistoricalRootSlots {slotIdx : Nat} {roots : List Bytes32}
    {out : RapidHashMap Nat} {root : Bytes32} :
    root ∈ buildHistoricalRootSlots slotIdx roots out ↔
      (root ≠ Bytes32.zero ∧ root ∈ roots) ∨ root ∈ out := by
  induction roots generalizing slotIdx out with
  | nil => simp [buildHistoricalRootSlots]
  | cons head rest ih =>
    rw [buildHistoricalRootSlots, ih, List.mem_cons]
    split
    · rw [AList.mem_insert]
      constructor
      · rintro (h | rfl | h)
        · exact .inl ⟨h.1, .inr h.2⟩
        · exact .inl ⟨‹_›, .inl rfl⟩
        · exact .inr h
      · rintro (⟨hne, rfl | h⟩ | h)
        · exact .inr (.inl rfl)
        · exact .inl ⟨hne, h⟩
        · exact .inr (.inr h)
    · rename_i hzero
      rw [not_not] at hzero
      constructor
      · exact Or.imp_left fun h => ⟨h.1, .inr h.2⟩
      · rintro (⟨hne, rfl | h⟩ | h)
        · exact absurd hzero hne
        · exact .inl ⟨hne, h⟩
        · exact .inr h

private theorem mem_rootToSlot {state : State} (hne : root ≠ Bytes32.zero)
    (h : root ∈ state.historicalBlockHashes.items ∨
      root = state.latestBlockHeader.hashTreeRoot ssz) : root ∈ rootToSlot ssz state := by
  have hhistory := @mem_buildHistoricalRootSlots 0 state.historicalBlockHashes.items ∅ root
  unfold rootToSlot
  dsimp only
  split
  · rw [AList.mem_insert, hhistory]
    exact h.symm.imp_right fun h => .inl ⟨hne, h⟩
  · rename_i hknown
    rcases h with h | rfl
    · exact hhistory.mpr (.inl ⟨hne, h⟩)
    · exact Decidable.byContradiction fun hno => hknown ⟨hne, hno⟩

/-! ## The loop on a staged state -/

section Loop

variable {n : Nat} {latestRoot : Bytes32} {slots : RapidHashMap Nat}

/-- Some attestation of the list matches the history and has its target below the finalized slot
that is in force when the loop reaches it. -/
def StaleFrom (latestRoot : Bytes32) (slots : RapidHashMap Nat) (atts : List Attestation)
    (loop : AttestationLoop n) : Prop :=
  ∃ before att after, ∃ reached : AttestationLoop n, atts = before ++ att :: after ∧
    attestationLoop latestRoot slots before loop = .ok () reached ∧
    Matches latestRoot reached.state att.data ∧
    att.data.target.slot < reached.state.latestFinalized.slot

private theorem StaleFrom.cons {att : Attestation} {rest : List Attestation}
    {loop next : AttestationLoop n}
    (hstep : attestationStep latestRoot slots att loop = .ok () next)
    (stale : StaleFrom latestRoot slots rest next) :
    StaleFrom latestRoot slots (att :: rest) loop := by
  obtain ⟨before, other, after, reached, rfl, hrun, hstale⟩ := stale
  exact ⟨att :: before, other, after, reached, rfl, attestationLoop_cons.mpr ⟨next, hstep, hrun⟩,
    hstale⟩

/-- What the loop keeps on a staged state, whatever the list. -/
structure Ready (ssz : Ssz) (staged : State) {n : Nat} (loop : AttestationLoop n) : Prop where
  shape : ∃ history, Shape history n loop
  base : SameBase staged loop.state
  pending : Pending (fun root => KnownRoot staged root ∨
    root ≠ Bytes32.zero ∧ root = staged.latestBlockHeader.hashTreeRoot ssz) loop

namespace Ready

variable {staged : State} {loop loop' : AttestationLoop n}

section

variable (ready : Ready ssz staged loop)

include ready

/-- **One pass keeps the loop ready.** -/
theorem step {att : Attestation}
    (hstep : attestationStep (staged.latestBlockHeader.hashTreeRoot ssz) slots att loop =
      .ok () loop') : Ready ssz staged loop' := by
  have hcases := attestationStep_cases hstep
  obtain ⟨history, shape⟩ := ready.shape
  refine ⟨⟨_, shape.step hcases⟩, ready.base.trans hcases.sameBase, ready.pending.step ?_ hcases⟩
  intro m
  rcases m.target_matches with hget | ⟨-, -, hlatest⟩
  · have := m.knownRoot hget
    unfold KnownRoot at this ⊢
    rw [ready.base.history_eq] at this
    exact .inl this
  · exact .inr ⟨m.target_root_ne, hlatest⟩

/-- What a loop that ran to its end keeps. -/
theorem run
    (hrun : attestationLoop (staged.latestBlockHeader.hashTreeRoot ssz) slots atts loop =
      .ok () loop') : Ready ssz staged loop' := by
  induction atts generalizing loop with
  | nil =>
    cases hrun
    exact ready
  | cons att rest ih =>
    obtain ⟨next, hstep, hrest⟩ := attestationLoop_cons.mp hrun
    exact ih (ready.step hstep) hrest

/-- **Only a stale target makes a pass of the loop fail.** -/
theorem stale_of_error {failure : Failure}
    (h : attestationStep (staged.latestBlockHeader.hashTreeRoot ssz) (rootToSlot ssz staged) att
      loop = .error failure loop') :
    Matches (staged.latestBlockHeader.hashTreeRoot ssz) loop.state att.data ∧
      att.data.target.slot < loop.state.latestFinalized.slot := by
  obtain ⟨history, shape⟩ := ready.shape
  rcases attestationStep_error h with hstale | ⟨e, ⟨failure', hset⟩ | ⟨window, hmissing⟩⟩
  · rw [shape.sync] at hstale
    exact hstale
  · -- a target inside the history has its bit below the window's limit
    have hle := e.target_le
    have hbound := loop.state.historicalBlockHashes.bounded
    have hlt := e.finalized_lt_target
    obtain ⟨set, hok⟩ := (@setJustifiedSlot_eq loop.state.justifiedSlots _ _ hlt).1 (by omega)
    rw [hok] at hset
    cases hset
  · -- every pending root has a slot
    exfalso
    obtain ⟨root, hmem, hnone⟩ := List.any_eq_true.mp hmissing
    have hknown := ready.pending.closed (AList.mem_keys.mpr hmem)
    have hslot : root ∈ rootToSlot ssz staged := by
      rcases hknown with ⟨hne, hin⟩ | ⟨hne, hlatest⟩
      · exact mem_rootToSlot hne (.inl (List.mem_of_mem_drop hin))
      · exact mem_rootToSlot hne (.inr hlatest)
    rw [← AList.lookup_isSome, ← Option.not_isNone, hnone] at hslot
    cases hslot

private theorem loop_ok
    (hno : ¬ StaleFrom (staged.latestBlockHeader.hashTreeRoot ssz) (rootToSlot ssz staged) atts
      loop) :
    ∃ loop', attestationLoop (staged.latestBlockHeader.hashTreeRoot ssz) (rootToSlot ssz staged)
      atts loop = .ok () loop' ∧ Ready ssz staged loop' := by
  induction atts generalizing loop with
  | nil => exact ⟨loop, rfl, ready⟩
  | cons att rest ih =>
    cases hstep : attestationStep (staged.latestBlockHeader.hashTreeRoot ssz)
        (rootToSlot ssz staged) att loop with
    | error failure next =>
      exact absurd ⟨[], att, rest, loop, rfl, rfl, ready.stale_of_error hstep⟩ hno
    | ok _ next =>
      obtain ⟨loop', hrest, ready'⟩ := ih (ready.step hstep) fun stale => hno (stale.cons hstep)
      exact ⟨loop', attestationLoop_cons.mpr ⟨next, hstep, hrest⟩, ready'⟩

private theorem not_stale
    (hrun : attestationLoop (staged.latestBlockHeader.hashTreeRoot ssz) (rootToSlot ssz staged)
      atts loop = .ok () loop') :
    ¬ StaleFrom (staged.latestBlockHeader.hashTreeRoot ssz) (rootToSlot ssz staged) atts loop := by
  rintro ⟨before, att, after, reached, rfl, hbefore, hmatches, hlow⟩
  induction before generalizing loop with
  | nil =>
    cases hbefore
    obtain ⟨history, shape⟩ := ready.shape
    rw [← shape.sync] at hlow
    obtain ⟨next, hstep, -⟩ := attestationLoop_cons.mp hrun
    rw [attestationStep, isEligible_error_iff.mpr ⟨hmatches, hlow, rfl⟩] at hstep
    cases hstep
  | cons first before ih =>
    obtain ⟨next, hfirst, hbefore⟩ := attestationLoop_cons.mp hbefore
    obtain ⟨next', hfirst', hrest⟩ := attestationLoop_cons.mp hrun
    rw [hfirst] at hfirst'
    cases hfirst'
    exact ih (ready.step hfirst) hrest hbefore

/-- The votes of a finished loop fit the state. -/
theorem encode_ok (hn : n ≤ validatorRegistryLimit)
    (hpos : staged.historicalBlockHashes.items ≠ []) {votes : RapidHashMap (Tally n)}
    (hvotes : loop.votes = some votes) :
    ∃ after, encodeJustificationVotes ssz votes loop.state = .ok () after := by
  refine encodeJustificationVotes_succeeds ssz ?_ hn _
  have hle := ready.pending.length_keys_le hvotes
    (staged.latestBlockHeader.hashTreeRoot ssz :: staged.historicalBlockHashes.items.drop 1)
    fun root h => h.elim (fun h => List.mem_cons_of_mem _ h.2)
      fun h => List.mem_cons.mpr (.inl h.2)
  have hbound := staged.historicalBlockHashes.bounded
  have := List.length_pos_of_ne_nil hpos
  rw [List.length_cons, List.length_drop] at hle
  omega

end

end Ready

end Loop

/-! ## The law -/

section Law

variable {verifier : SignatureVerifier} {genesisTime : Nat}
  {validators : Validators} {history : History} {state staged : State}
  {blocks : List SignedBlockWithAttestation} {header : BlockHeader}

/-- A vote of the list is stale when the loop reaches it. -/
def StaleVote (ssz : Ssz) (staged : State) (atts : List Attestation) : Prop :=
  StaleFrom (staged.latestBlockHeader.hashTreeRoot ssz) (rootToSlot ssz staged) atts
    (AttestationLoop.start staged)

section

variable (reached :
  Chain ssz verifier (generateGenesis ssz genesisTime validators) blocks history state)

include reached

/-- A staged state of a chain is ready for any list. -/
theorem ready_of_staged (noSelf : NoSelfReference ssz blocks)
    (hstaged : StagedOn ssz state header staged) :
    Ready ssz staged (AttestationLoop.start staged) := by
  have inv := (shape_invariant ssz genesisTime validators (NotSelf ssz)).and
    (pending_invariant ssz genesisTime validators)
  obtain ⟨shape, pending⟩ := inv.stage (inv.chain reached noSelf) hstaged
  exact ⟨⟨_, shape⟩, SameBase.refl staged, pending.mono fun _ => .inl⟩

/-- **The soft-fail law.** On a staged state of a chain whose blocks do not vote for themselves, a
list of attestations is processed exactly when none of it, matching the history, has its target
below the finalized slot in force when it is reached. -/
theorem processAttestations_ok_iff
    (noSelf : NoSelfReference ssz blocks) (hstage : stageBlock ssz header state = .ok () staged)
    (atts : List Attestation) :
    (∃ after, processAttestations ssz atts staged = .ok () after) ↔ ¬ StaleVote ssz staged atts := by
  have hstaged := stageBlock_ok hstage
  have ready := ready_of_staged reached noSelf hstaged
  have hn : staged.validators.items.length ≠ 0 := hstaged.validators_eq ▸ hstaged.validators_ne
  constructor
  · rintro ⟨after, hok⟩
    obtain ⟨loop, hrun, -⟩ := processAttestations_ok hn hok
    exact ready.not_stale hrun
  · intro hno
    obtain ⟨loop, hrun, ready'⟩ := ready.loop_ok hno
    have hzero : ¬ staged.justificationsRoots.items.any (· = Bytes32.zero) = true := by
      intro hany
      obtain ⟨root, hmem, hroot⟩ := List.any_eq_true.mp hany
      rcases ready.pending.packed root hmem with h | h
      · exact h.1 (of_decide_eq_true hroot)
      · exact h.1 (of_decide_eq_true hroot)
    unfold processAttestations
    rw [if_neg hn, if_neg hzero]
    simp only [hrun]
    cases hvotes : loop.votes with
    | none => exact ⟨loop.state, rfl⟩
    | some votes =>
      refine ready'.encode_ok staged.validators.bounded ?_ hvotes
      rw [hstaged.history_eq]
      simp

end

/-- Three empty blocks, and the header of a fourth on top of them. -/
def emptyBlocks : List PlannedBlock := [⟨1, []⟩, ⟨2, []⟩, ⟨3, []⟩]

def fourthHeader : BlockHeader :=
  (blockOn sampleSsz (sampleEnd threeValidators emptyBlocks).2 4 ⟨SszList.empty⟩ 0#256).header
    sampleSsz

/-- The state the fourth header is staged on. -/
def fourthStaged : State :=
  ((stageBlock sampleSsz fourthHeader).after (sampleEnd threeValidators emptyBlocks).2).getD
    (sampleEnd threeValidators emptyBlocks).2

/-- The first three links justify slots 1 to 3 and finalize slot 2; the last one votes for slot 1
again. -/
def staleLast : List Attestation :=
  [⟨0, 1, voters 3 3#8⟩, ⟨1, 2, voters 3 3#8⟩, ⟨2, 3, voters 3 3#8⟩, ⟨0, 1, voters 3 3#8⟩].map
    fun vote : PlannedVote => vote.attestation fourthStaged

private theorem fourthStaged_ok :
    stageBlock sampleSsz fourthHeader (sampleEnd threeValidators emptyBlocks).2 =
      .ok () fourthStaged :=
  Mutation.after_eq_some.mp (by decide +kernel)

/-- The list is accepted without its last vote. -/
theorem processAttestations_ok_iff_take :
    (∃ after, processAttestations sampleSsz (staleLast.take 3) fourthStaged = .ok () after) ∧
      ¬ StaleVote sampleSsz fourthStaged (staleLast.take 3) := by
  have hchain := sampleEnd_chain threeValidators emptyBlocks (by decide +kernel)
  have hself : NoSelfReference sampleSsz (sampleBlocks threeValidators emptyBlocks) := by
    decide +kernel
  have hok : ∃ after, processAttestations sampleSsz (staleLast.take 3) fourthStaged =
      .ok () after := by
    obtain ⟨after, hafter⟩ := Option.isSome_iff_exists.mp (show
      ((processAttestations sampleSsz (staleLast.take 3)).after fourthStaged).isSome = true by
        decide +kernel)
    exact ⟨after, Mutation.after_eq_some.mp hafter⟩
  exact ⟨hok, (processAttestations_ok_iff hchain hself fourthStaged_ok _).mp hok⟩

/-- A vote made stale by a finalization earlier in its own list invalidates the block. -/
theorem staleVote_rejected :
    (∃ blocks history state header, Chain sampleSsz noopSignatureVerifier
        (generateGenesis sampleSsz 0 threeValidators) blocks history state ∧
      NoSelfReference sampleSsz blocks ∧ stageBlock sampleSsz header state = .ok () fourthStaged) ∧
    ∀ after, processAttestations sampleSsz staleLast fourthStaged ≠ .ok () after := by
  refine ⟨⟨_, _, _, _, sampleEnd_chain threeValidators emptyBlocks ?_, ?_, fourthStaged_ok⟩, ?_⟩
  · decide +kernel
  · decide +kernel
  · intro after hok
    have hnone : (processAttestations sampleSsz staleLast).after fourthStaged = none := by
      decide +kernel
    rw [Mutation.after_eq_some.mpr hok] at hnone
    cases hnone

end Law

end Peam
