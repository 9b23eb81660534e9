import Peam.Laws.Votes
import Peam.Laws.Transition

/-!
# The invariant rule of chains

What holds of a chain is proved once per kind of step. `Invariant` lists the four obligations: the
genesis state, a staged header, one pass of the attestation loop, and the end of a block.
`Invariant.chain` and `Invariant.inBlock` turn them into a fact about every chain and every moment
inside a block.

An invariant speaks about a loop state; a state between two blocks is read as the loop that would
start on it. `Good` restricts the attestations of the blocks, where a law needs it: it is told the
header under which the attestation is processed.
-/

namespace Peam

open Calls (Outcome Mutation)
open Calls.Mutation (bind_ok failIf)

variable {ssz : Ssz} {verifier : SignatureVerifier} {genesis : State} {att : Attestation}
  {atts attestations : List Attestation} {staged : State} {header : BlockHeader}
  {blocks : List SignedBlockWithAttestation}

/-! ## Frames -/

/-- What the attestation loop never writes. -/
structure SameBase (before after : State) : Prop where
  slot_eq : after.slot = before.slot
  header_eq : after.latestBlockHeader = before.latestBlockHeader
  history_eq : after.historicalBlockHashes = before.historicalBlockHashes
  validators_eq : after.validators = before.validators
  roots_eq : after.justificationsRoots = before.justificationsRoots
  votes_eq : after.justificationsValidators = before.justificationsValidators

theorem SameBase.refl (state : State) : SameBase state state := ⟨rfl, rfl, rfl, rfl, rfl, rfl⟩

theorem SameBase.trans {first second third : State} (h : SameBase first second)
    (h' : SameBase second third) : SameBase first third :=
  ⟨h'.slot_eq.trans h.slot_eq, h'.header_eq.trans h.header_eq, h'.history_eq.trans h.history_eq,
    h'.validators_eq.trans h.validators_eq, h'.roots_eq.trans h.roots_eq,
    h'.votes_eq.trans h.votes_eq⟩

variable {after state state' : State} {block : Block} {signed : SignedBlockWithAttestation}

private theorem SameBase.rootToSlot_eq {before : State} (same : SameBase before after) :
    rootToSlot ssz after = rootToSlot ssz before := by
  unfold rootToSlot
  rw [same.header_eq, same.history_eq]

section Loop

variable {n : Nat} {latestRoot : Bytes32} {slots : RapidHashMap Nat}

variable {loop loop' : AttestationLoop n}

/-- A step leaves what it does not tally. -/
theorem AttestationStep.sameBase {h : History}
    (step : AttestationStep latestRoot slots att loop loop' h) :
    SameBase loop.state loop'.state := by
  cases step <;> exact ⟨rfl, rfl, rfl, rfl, rfl, rfl⟩

/-- The first attestation, then the rest. -/
theorem attestationLoop_cons {rest : List Attestation} :
    attestationLoop latestRoot slots (att :: rest) loop = .ok () loop' ↔
      ∃ next, attestationStep latestRoot slots att loop = .ok () next ∧
        attestationLoop latestRoot slots rest next = .ok () loop' := by
  unfold attestationLoop
  rw [List.forM_cons, bind_ok]
  constructor
  · rintro ⟨_, next, hstep, hrest⟩
    exact ⟨next, hstep, hrest⟩
  · rintro ⟨next, hstep, hrest⟩
    exact ⟨(), next, hstep, hrest⟩

/-- **The loop rule**: what one pass keeps, the loop keeps. -/
theorem attestationLoop_rule {P : History → AttestationLoop n → Prop} {atts : List Attestation}
    {loop loop' : AttestationLoop n} {history : History}
    (step : ∀ {h att a b hs}, att ∈ atts → P h a → AttestationStep latestRoot slots att a b hs →
      P (h ++ hs) b)
    (start : P history loop) (run : attestationLoop latestRoot slots atts loop = .ok () loop') :
    P (history ++ loopHistory latestRoot slots atts loop) loop' := by
  induction atts generalizing loop history with
  | nil =>
    cases run
    rw [loopHistory, History.append_empty]
    exact start
  | cons att rest ih =>
    obtain ⟨next, hstep, hrest⟩ := attestationLoop_cons.mp run
    rw [loopHistory, hstep, ← History.append_assoc]
    exact ih (fun hmem => step (List.mem_cons_of_mem _ hmem))
      (step List.mem_cons_self start (attestationStep_cases hstep)) hrest

/-- The whole loop leaves the base alone. -/
theorem attestationLoop_sameBase (run : attestationLoop latestRoot slots atts loop = .ok () loop') :
    SameBase loop.state loop'.state := by
  refine @attestationLoop_rule n latestRoot slots (fun _ a => SameBase loop.state a.state) atts loop
    loop' History.empty ?_ (SameBase.refl loop.state) run
  intro h att a b hs _ same step
  exact same.trans step.sameBase

end Loop

/-! ## The end of a block -/

/-- The state with its header carrying the computed root. -/
def sealed (ssz : Ssz) (state : State) : State :=
  { state with
    latestBlockHeader := { state.latestBlockHeader with stateRoot := state.hashTreeRoot ssz } }

/-- How a loop ends a block: its votes are packed if they were unpacked, and the header is sealed. -/
inductive Finished (ssz : Ssz) {n : Nat} (loop : AttestationLoop n) : State → Prop
  | untouched : loop.votes = none → Finished ssz loop (sealed ssz loop.state)
  | packed {votes after} : loop.votes = some votes →
      encodeJustificationVotes ssz votes loop.state = .ok () after →
      Finished ssz loop (sealed ssz after)

/-- What a successful `process_attestations` over a registry of `n` validators is. -/
theorem processAttestations_iff {n : Nat} (size : staged.validators.items.length = n) :
    processAttestations ssz attestations staged = .ok () after ↔
      n = 0 ∧ after = staged ∨
      n ≠ 0 ∧ staged.justificationsRoots.items.any (· = Bytes32.zero) = false ∧
        ∃ loop : AttestationLoop n,
          attestationLoop (staged.latestBlockHeader.hashTreeRoot ssz) (rootToSlot ssz staged)
            attestations ⟨staged, none, staged.latestFinalized.slot⟩ = .ok () loop ∧
          (loop.votes = none ∧ after = loop.state ∨
            ∃ votes, loop.votes = some votes ∧
              encodeJustificationVotes ssz votes loop.state = .ok () after) := by
  subst size
  unfold processAttestations
  by_cases hzero : staged.validators.items.length = 0
  · rw [if_pos hzero]
    constructor
    · intro h
      cases h
      exact .inl ⟨hzero, rfl⟩
    · rintro (⟨_, rfl⟩ | ⟨hne, _⟩)
      · rfl
      · exact absurd hzero hne
  · rw [if_neg hzero]
    cases hroots : staged.justificationsRoots.items.any (· = Bytes32.zero) with
    | true => simp [hzero]
    | false =>
      simp only [hzero, false_and, ne_eq, not_false_eq_true, true_and, false_or,
        Bool.false_eq_true, if_false, AttestationLoop.start]
      cases attestationLoop (staged.latestBlockHeader.hashTreeRoot ssz) (rootToSlot ssz staged)
        attestations ⟨staged, none, staged.latestFinalized.slot⟩ with
      | error e loop => simp
      | ok _ loop => cases hvotes : loop.votes <;> simp [hvotes, eq_comm]

/-- A successful `process_attestations` runs the loop to its end and packs the votes. -/
theorem processAttestations_ok (hn : staged.validators.items.length ≠ 0)
    (h : processAttestations ssz attestations staged = .ok () after) :
    ∃ loop : AttestationLoop staged.validators.items.length,
      attestationLoop (staged.latestBlockHeader.hashTreeRoot ssz) (rootToSlot ssz staged)
        attestations (AttestationLoop.start staged) = .ok () loop ∧
      (loop.votes = none ∧ after = loop.state ∨
        ∃ votes, loop.votes = some votes ∧
          encodeJustificationVotes ssz votes loop.state = .ok () after) := by
  rcases (processAttestations_iff rfl).mp h with ⟨hzero, _⟩ | ⟨_, _, hloop⟩
  · exact absurd hzero hn
  · exact hloop

/-- The transition without its last write: the header keeps the zero state root it was staged
with. -/
def lazyTransition (ssz : Ssz) (block : Block) : Mutation State Unit := do
  processSlots ssz block.slot
  processBlockHeaderAssumingSlot ssz (block.header ssz)
  processBlockBody ssz block.body (block.header ssz).bodyRoot
  let state ← get
  failIf (state.hashTreeRoot ssz ≠ block.stateRoot)
    "block state root does not match computed state root"

/-- The transition is the lazy one and its last write. -/
theorem stateTransitionInner_iff {post : State} :
    stateTransitionInner ssz block state = .ok () post ↔
      ∃ after, lazyTransition ssz block state = .ok () after ∧ post = sealed ssz after := by
  have hseal : sealBlock ssz block = (do
      let state ← get
      failIf (state.hashTreeRoot ssz ≠ block.stateRoot)
        "block state root does not match computed state root"
      modify (sealed ssz)) := by
    funext state
    show (do
      failIf (state.hashTreeRoot ssz ≠ block.stateRoot)
        "block state root does not match computed state root"
      set (sealed ssz state) : Mutation State Unit) state = (do
      failIf (state.hashTreeRoot ssz ≠ block.stateRoot)
        "block state root does not match computed state root"
      modify (sealed ssz) : Mutation State Unit) state
    by_cases h : state.hashTreeRoot ssz ≠ block.stateRoot
    · simp only [failIf, Outcome.failIf, if_pos h]
      rfl
    · simp only [failIf, Outcome.failIf, if_neg h]
      rfl
  have heq : stateTransitionInner ssz block =
      (do lazyTransition ssz block; modify (sealed ssz)) := by
    simp only [stateTransitionInner, lazyTransition, hseal, bind_assoc]
  rw [heq, bind_ok]
  constructor
  · intro h
    obtain ⟨_, after, hlazy, hwrite⟩ := h
    cases hwrite
    exact ⟨after, hlazy, rfl⟩
  · intro h
    obtain ⟨after, hlazy, rfl⟩ := h
    exact ⟨(), after, hlazy, rfl⟩

/-- A transition that succeeds up to its last write staged the header, processed the body, and led
to the block's state root. -/
theorem lazyTransition_ok (h : lazyTransition ssz block state = .ok () after) :
    ∃ staged, stageBlock ssz (block.header ssz) state = .ok () staged ∧
      processAttestations ssz block.body.attestations.items staged = .ok () after ∧
      after.hashTreeRoot ssz = block.stateRoot := by
  unfold lazyTransition at h
  rw [bind_ok] at h
  obtain ⟨_, advanced, hslots, h⟩ := h
  rw [bind_ok] at h
  obtain ⟨_, staged, hheader, h⟩ := h
  rw [bind_ok] at h
  obtain ⟨_, after, hbody, h⟩ := h
  unfold processBlockBody at hbody
  rw [bind_ok] at hbody
  obtain ⟨_, checked, hroot, hatts⟩ := hbody
  rw [(Mutation.failIf_ok.mp hroot).2] at hatts
  rw [bind_ok] at h
  obtain ⟨_, t, hget, h⟩ := h
  cases hget
  obtain ⟨hmatch, rfl⟩ := Mutation.failIf_ok.mp h
  exact ⟨staged, bind_ok.mpr ⟨(), advanced, hslots, hheader⟩, hatts, not_not.mp hmatch⟩

/-- What a successful import is: both checks, and the transition. -/
theorem processSignedBlock_iff :
    processSignedBlock ssz verifier signed state = .ok () state' ↔
      signed.validateBasic = .ok () ∧ verifier signed state = .ok () ∧
        stateTransitionInner ssz signed.message.block state = .ok () state' := by
  unfold processSignedBlock
  cases signed.validateBasic with
  | error e => simp
  | ok _ =>
    cases verifier signed state with
    | error e => simp
    | ok _ =>
      cases stateTransitionInner ssz signed.message.block state <;> simp

/-- A successful import is a successful transition. -/
theorem processSignedBlock_transition
    (h : processSignedBlock ssz verifier signed state = .ok () state') :
    stateTransitionInner ssz signed.message.block state = .ok () state' :=
  (processSignedBlock_iff.mp h).2.2

/-- **Inversion of a transition**: the header is staged, the loop runs over the body, the block is
finished. -/
theorem stateTransitionInner_ok (h : stateTransitionInner ssz block state = .ok () state') :
    ∃ staged, ∃ loop : AttestationLoop staged.validators.items.length,
      stageBlock ssz (block.header ssz) state = .ok () staged ∧
      attestationLoop (staged.latestBlockHeader.hashTreeRoot ssz) (rootToSlot ssz staged)
        block.body.attestations.items (AttestationLoop.start staged) = .ok () loop ∧
      Finished ssz loop state' := by
  obtain ⟨after, hlazy, rfl⟩ := stateTransitionInner_iff.mp h
  obtain ⟨staged, hstage, hatts, -⟩ := lazyTransition_ok hlazy
  have hstaged := stageBlock_ok hstage
  obtain ⟨loop, hloop, hfinish⟩ :=
    processAttestations_ok (hstaged.validators_eq ▸ hstaged.validators_ne) hatts
  refine ⟨staged, loop, hstage, hloop, ?_⟩
  rcases hfinish with ⟨hvotes, rfl⟩ | ⟨votes, hvotes, hencode⟩
  · exact .untouched hvotes
  · exact .packed hvotes hencode

/-- Inversion of an import. -/
theorem processSignedBlock_ok (h : processSignedBlock ssz verifier signed state = .ok () state') :
    ∃ staged, ∃ loop : AttestationLoop staged.validators.items.length,
      stageBlock ssz (signed.message.block.header ssz) state = .ok () staged ∧
      attestationLoop (staged.latestBlockHeader.hashTreeRoot ssz) (rootToSlot ssz staged)
        signed.message.block.body.attestations.items (AttestationLoop.start staged) =
        .ok () loop ∧
      Finished ssz loop state' :=
  stateTransitionInner_ok (processSignedBlock_transition h)

/-! ## The invariant rule -/

/-- The four obligations of an invariant of chains. -/
structure Invariant (ssz : Ssz) (genesis : State) (Good : BlockHeader → Attestation → Prop)
    (Inv : History → (n : Nat) → AttestationLoop n → Prop) : Prop where
  start : Inv History.empty _ (AttestationLoop.start genesis)
  stage : ∀ {h state header staged}, Inv h _ (AttestationLoop.start state) →
    StagedOn ssz state header staged →
    Inv (h ++ stageHistory ssz state header) _ (AttestationLoop.start staged)
  step : ∀ {n h att hs} {loop loop' : AttestationLoop n}, Inv h n loop →
    n = loop.state.validators.items.length →
    loop.state.latestBlockHeader.stateRoot = Bytes32.zero →
    Good loop.state.latestBlockHeader att →
    AttestationStep (loop.state.latestBlockHeader.hashTreeRoot ssz) (rootToSlot ssz loop.state)
      att loop loop' hs →
    Inv (h ++ hs) n loop'
  finish : ∀ {n h state'} {loop : AttestationLoop n}, Inv h n loop →
    n = loop.state.validators.items.length → Finished ssz loop state' →
    Inv h _ (AttestationLoop.start state')

/-- Every attestation of every block is good under its block's staged header. -/
def AllGood (ssz : Ssz) (Good : BlockHeader → Attestation → Prop)
    (blocks : List SignedBlockWithAttestation) : Prop :=
  ∀ signed ∈ blocks, ∀ att ∈ signed.message.block.body.attestations.items,
    Good (signed.message.block.header ssz).staged att

namespace Invariant

variable {Good : BlockHeader → Attestation → Prop}
  {Inv : History → (n : Nat) → AttestationLoop n → Prop}

variable {history : History}

/-- A loop over good attestations from a staged header keeps the invariant. -/
theorem loop (inv : Invariant ssz genesis Good Inv)
    (hheader : staged.latestBlockHeader = header.staged)
    (good : ∀ att ∈ atts, Good header.staged att)
    (start : Inv history _ (AttestationLoop.start staged))
    {loop' : AttestationLoop staged.validators.items.length}
    (run : attestationLoop (staged.latestBlockHeader.hashTreeRoot ssz) (rootToSlot ssz staged) atts
      (AttestationLoop.start staged) = .ok () loop') :
    Inv (history ++ attestationsHistory ssz staged atts) _ loop' ∧
      SameBase staged loop'.state := by
  refine attestationLoop_rule
    (P := fun h a => Inv h staged.validators.items.length a ∧ SameBase staged a.state)
    ?_ ⟨start, SameBase.refl staged⟩ run
  rintro h att a b hs hmem ⟨hinv, same⟩ hstep
  have same' := same.trans hstep.sameBase
  -- inside the loop the staged header and the root map are still those of the start
  rw [← same.header_eq, ← same.rootToSlot_eq] at hstep
  refine ⟨inv.step hinv (by rw [same.validators_eq]) ?_ ?_ hstep, ?_⟩
  · rw [same.header_eq, hheader]
    rfl
  · rw [same.header_eq, hheader]
    exact good att hmem
  · exact same'

/-- **The chain rule**: an invariant holds of every chain. -/
theorem chain (inv : Invariant ssz genesis Good Inv) {state : State}
    (reached : Chain ssz verifier genesis blocks history state) (good : AllGood ssz Good blocks) :
    Inv history _ (AttestationLoop.start state) := by
  induction reached with
  | genesis => exact inv.start
  | imported before himport ih =>
    rename_i blocks history state signed state'
    have hprev := ih fun b hb => good b (List.mem_append_left _ hb)
    have hgood := good signed (List.mem_append_right _ (List.mem_singleton_self signed))
    obtain ⟨staged, loop, hstage, hrun, hfinish⟩ := processSignedBlock_ok himport
    have hstaged := stageBlock_ok hstage
    obtain ⟨hinv, same⟩ := inv.loop hstaged.header_eq hgood (inv.stage hprev hstaged) hrun
    rw [blockHistory, hstage, ← History.append_assoc]
    exact inv.finish hinv (by rw [same.validators_eq]) hfinish

/-- **The chain rule inside a block.** -/
theorem inBlock (inv : Invariant ssz genesis Good Inv) {done : List Attestation} {state : State}
    (reached : InBlock ssz verifier genesis blocks history header done state)
    (good : AllGood ssz Good blocks) (hgood : ∀ att ∈ done, Good header.staged att) :
    ∃ n, ∃ loop : AttestationLoop n, n = state.validators.items.length ∧
      loop.state = state ∧ Inv history n loop := by
  obtain ⟨before, base, staged, loop, hchain, hstage, hrun, rfl, rfl⟩ := reached.reached
  have hstaged := stageBlock_ok hstage
  obtain ⟨hinv, same⟩ :=
    inv.loop hstaged.header_eq hgood (inv.stage (inv.chain hchain good) hstaged) hrun
  exact ⟨_, loop, by rw [same.validators_eq], rfl, hinv⟩

/-- Two invariants make one. -/
theorem and {Inv' : History → (n : Nat) → AttestationLoop n → Prop}
    (first : Invariant ssz genesis Good Inv) (second : Invariant ssz genesis Good Inv') :
    Invariant ssz genesis Good (fun h n loop => Inv h n loop ∧ Inv' h n loop) where
  start := ⟨first.start, second.start⟩
  stage h staged := ⟨first.stage h.1 staged, second.stage h.2 staged⟩
  step h hn hroot hgood hstep :=
    ⟨first.step h.1 hn hroot hgood hstep, second.step h.2 hn hroot hgood hstep⟩
  finish h hn hfin := ⟨first.finish h.1 hn hfin, second.finish h.2 hn hfin⟩

/-- An invariant proved over another one: each obligation may use the first invariant. -/
theorem along {Base : History → (n : Nat) → AttestationLoop n → Prop}
    (base : Invariant ssz genesis Good Base)
    (start : Inv History.empty _ (AttestationLoop.start genesis))
    (stage : ∀ {h state header staged}, Base h _ (AttestationLoop.start state) →
      Inv h _ (AttestationLoop.start state) → StagedOn ssz state header staged →
      Inv (h ++ stageHistory ssz state header) _ (AttestationLoop.start staged))
    (step : ∀ {n h att hs} {loop loop' : AttestationLoop n}, Base h n loop → Inv h n loop →
      n = loop.state.validators.items.length →
      loop.state.latestBlockHeader.stateRoot = Bytes32.zero →
      Good loop.state.latestBlockHeader att →
      AttestationStep (loop.state.latestBlockHeader.hashTreeRoot ssz) (rootToSlot ssz loop.state)
        att loop loop' hs →
      Inv (h ++ hs) n loop')
    (finish : ∀ {n h state'} {loop : AttestationLoop n}, Base h n loop → Inv h n loop →
      n = loop.state.validators.items.length → Finished ssz loop state' →
      Inv h _ (AttestationLoop.start state')) :
    Invariant ssz genesis Good (fun h n loop => Base h n loop ∧ Inv h n loop) where
  start := ⟨base.start, start⟩
  stage h hstaged := ⟨base.stage h.1 hstaged, stage h.1 h.2 hstaged⟩
  step h hn hroot hgood hstep :=
    ⟨base.step h.1 hn hroot hgood hstep, step h.1 h.2 hn hroot hgood hstep⟩
  finish h hn hfinished := ⟨base.finish h.1 hn hfinished, finish h.1 h.2 hn hfinished⟩

end Invariant

end Peam
