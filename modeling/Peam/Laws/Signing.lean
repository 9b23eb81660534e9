import Peam.Sample
import Peam.Signing

/-!
# When a key signs once per epoch

A `leansig` key must not sign two messages in one epoch. The attestation task remembers the last
slot it signed; block production and the payload builder sign with the same keys and remember
nothing, and a proposal whose parent changed is signed again. `oneTime_of_disciplined` gives a
condition on the inputs of each pass under which every run keeps the rule, and
`retry_signs_twice` a run that breaks it.
-/

namespace Peam

variable {ssz : Ssz} {K F : Type} {api : ForkChoiceApi F} {lib : LeanSig K} {slot : Nat}
  {now : Option Nat}

/-- No key has signed two messages in one epoch. -/
def OneTime (log : List (Signing K)) : Prop :=
  ∀ a ∈ log, ∀ b ∈ log, a.key = b.key → a.epoch = b.epoch → a.message = b.message

instance [DecidableEq K] (log : List (Signing K)) : Decidable (OneTime log) :=
  inferInstanceAs (Decidable (∀ a ∈ _, ∀ b ∈ _, _))

private theorem OneTime.append_fresh {log : List (Signing K)} (once : OneTime log) {new : Signing K}
    (fresh : ∀ old ∈ log, old.epoch ≠ new.epoch) : OneTime (log ++ [new]) := by
  intro a ha b hb hkey hepoch
  rcases List.mem_append.mp ha with ha | ha <;> rcases List.mem_append.mp hb with hb | hb
  · exact once a ha b hb hkey hepoch
  · rw [List.mem_singleton.mp hb] at hepoch
    exact absurd hepoch (fresh a ha)
  · rw [List.mem_singleton.mp ha] at hepoch
    exact absurd hepoch.symm (fresh b hb)
  · rw [List.mem_singleton.mp ha, List.mem_singleton.mp hb]

/-- What `leansig` documents: keys live for at most `2^32` epochs, and a signature has 3112
bytes. -/
structure LeanSig.Lawful (lib : LeanSig K) : Prop where
  lifetime : ∀ key, (lib.activation key).2 ≤ 2 ^ 32
  length : ∀ key epoch message bytes, lib.sign key epoch message = .ok bytes → bytes.length = 3112

/-- And what it does inside its intervals: it signs. -/
structure LeanSig.Signs (lib : LeanSig K) : Prop extends lib.Lawful where
  signs : ∀ key epoch message, inRange (lib.activation key) epoch = true →
    inRange (lib.prepared key) epoch = true → ∃ bytes, lib.sign key epoch message = .ok bytes

/-- A call to `sign_message` releases one signature and returns it, or releases none and fails. -/
theorem signMessage_cases (lawful : lib.Lawful) (key : K) (epoch : Nat) (message : Bytes32) :
    (∃ e, signMessage lib key epoch message = (.error e, [])) ∨
      ∃ signature, signMessage lib key epoch message =
        (.ok signature, [⟨key, epoch % 2 ^ 32, message⟩]) := by
  unfold signMessage
  cases hsign : lib.sign key (epoch % 2 ^ 32) message with
  | error e => exact .inl ⟨_, rfl⟩
  | ok bytes =>
    have hlength := lawful.length _ _ _ _ hsign
    refine .inr ⟨BitVec.ofNat 24896 (natOfBytes bytes), ?_⟩
    simp only [hlength, ne_eq, not_true_eq_false, if_false]

/-- An epoch in which a key is active fits its `u32`. -/
theorem epoch_eq (lawful : lib.Lawful) {key : K} (h : inRange (lib.activation key) slot = true) :
    slot % 2 ^ 32 = slot := by
  have hlt := (of_decide_eq_true h).2
  have := lawful.lifetime key
  exact Nat.mod_eq_of_lt (by omega)

/-- A call inside the key's intervals returns a signature. -/
theorem signMessage_inside (signs : lib.Signs) {key : K} {epoch : Nat}
    (active : inRange (lib.activation key) (epoch % 2 ^ 32) = true)
    (prepared : inRange (lib.prepared key) (epoch % 2 ^ 32) = true) (message : Bytes32) :
    ∃ signature, (signMessage lib key epoch message).1 = .ok signature := by
  obtain ⟨bytes, hsign⟩ := signs.signs key _ message active prepared
  have hlength := signs.length _ _ _ _ hsign
  refine ⟨BitVec.ofNat 24896 (natOfBytes bytes), ?_⟩
  unfold signMessage
  simp only [hsign, hlength, ne_eq, not_true_eq_false, if_false]

/-! ## What each site releases -/

/-- The payload builder signs nothing when every entry brings its proof. -/
theorem payload_releases_nothing {keys : List (Option (KeyMaterial K))} {finalizedSlot : Nat}
    {drained : List PendingBlockAttestation} (proven : ∀ entry ∈ drained, entry.proof.isSome = true) :
    (buildBlockAttestationPayload ssz lib keys slot finalizedSlot drained).2 = [] := by
  unfold buildBlockAttestationPayload
  dsimp only
  split
  · rfl
  · have hnone : (drained.filter fun entry =>
        ¬ entry.attestation.data.target.slot < finalizedSlot).filterMap
          (fun entry => if entry.proof.isNone then some entry.attestation else none) = [] := by
      refine List.filterMap_eq_nil_iff.mpr fun entry hmem => ?_
      have := proven entry (List.mem_filter.mp hmem).1
      rw [if_neg]
      simp [Option.isSome_iff_ne_none.mp this]
    have haggregate : aggregateAttestations ssz [] = [] := rfl
    rw [hnone, haggregate]
    simp

/-- The proposer releases at most one signature, for the block's slot. -/
theorem signProposal_cases (ssz : Ssz) {node : SigningNode K} (lawful : node.lib.Lawful)
    (slot : Nat) (data : AttestationData) :
    (∃ e, signProposal ssz node slot data = (.error e, [])) ∨
      ∃ signature message, signProposal ssz node slot data =
        (.ok signature, [⟨node.localKey.secretKey, slot, message⟩]) := by
  unfold signProposal
  split
  · exact .inl ⟨_, rfl⟩
  · rename_i hactive
    split
    · exact .inl ⟨_, rfl⟩
    · rcases signMessage_cases lawful node.localKey.secretKey slot (data.hashTreeRoot ssz) with
        ⟨e, h⟩ | ⟨signature, h⟩
      · exact .inl ⟨e, h⟩
      · rw [epoch_eq lawful (not_not.mp hactive)] at h
        exact .inr ⟨signature, _, h⟩

/-- A finished block differs in the state root. -/
theorem finishBlock_spec {preState postState : State} {draft block : Block}
    (h : finishBlock ssz preState draft = some (block, postState)) :
    ∃ stateRoot, block = { draft with stateRoot } := by
  unfold finishBlock at h
  split at h
  · cases h
  · cases h
    exact ⟨_, rfl⟩

/-- **What block production releases**: what the payload builder signed, then at most the proposer's
signature; and the block it returns is for the slot, on the pre-state's head. -/
theorem produceBlockWithSignatures_spec (ssz : Ssz) (api : ForkChoiceApi F) {node : SigningNode K}
    (lawful : node.lib.Lawful) (preState : State) (slot : Nat) (forkChoice : Option F)
    (drained : List PendingBlockAttestation) :
    (∃ more, (produceBlockWithSignatures ssz api node preState slot forkChoice drained).2 =
        (buildBlockAttestationPayload ssz node.lib node.keys slot preState.latestFinalized.slot
          drained).2 ++ more ∧
      (more = [] ∨ ∃ message, more = [⟨node.localKey.secretKey, slot, message⟩])) ∧
    ∀ signed postState,
      (produceBlockWithSignatures ssz api node preState slot forkChoice drained).1 =
        some (signed, postState) →
      signed.message.block.slot = slot ∧
        signed.message.block.parentRoot = headRootAt ssz slot preState := by
  unfold produceBlockWithSignatures
  obtain ⟨⟨attestations, proofs⟩, log⟩ := buildBlockAttestationPayload ssz node.lib node.keys slot
    preState.latestFinalized.slot drained
  dsimp only
  have nothing : ∃ more, log = log ++ more ∧
      (more = [] ∨ ∃ message, more = [(⟨node.localKey.secretKey, slot, message⟩ : Signing K)]) :=
    ⟨[], (List.append_nil log).symm, .inl rfl⟩
  split
  · split
    · exact ⟨nothing, fun _ _ h => by cases h⟩
    · rename_i block postState hfinish
      split
      · exact ⟨nothing, fun _ _ h => by cases h⟩
      · rename_i data hdata
        split
        · exact ⟨nothing, fun _ _ h => by cases h⟩
        · rcases signProposal_cases ssz lawful slot data with
            ⟨e, hsign⟩ | ⟨signature, message, hsign⟩
          · rw [hsign]
            exact ⟨⟨[], rfl, .inl rfl⟩, fun _ _ h => by cases h⟩
          · rw [hsign]
            refine ⟨⟨_, rfl, .inr ⟨message, rfl⟩⟩, fun _ _ h => ?_⟩
            cases h
            obtain ⟨_, rfl⟩ := finishBlock_spec hfinish
            exact ⟨rfl, rfl⟩
  · exact ⟨nothing, fun _ _ h => by cases h⟩

/-! ## Disciplined runs -/

/-- The inputs of a pass that keep it from signing in an epoch twice, over a registry of `n`
validators. -/
def Disciplined (ssz : Ssz) (api : ForkChoiceApi F) (node : SigningNode K) (n : Nat)
    (signers : Signers K) : SigningEvent F → Prop
  | .attest now forkChoice state pending => ∀ millis ∈ now,
      ∀ data ∈ loadAttestationData ssz api state forkChoice pending
        (slotIndexFromUnixMillis node.genesisTimeSecs millis),
      -- not before the last slot attested, and not in a slot of its own proposals
      (∀ last ∈ signers.lastSignedSlot, last ≤ data.slot) ∧ data.slot % n ≠ node.localIndex
  | .push _ _ => True
  | .propose now live attempt => ∀ millis ∈ now,
      -- later than every earlier proposal, and on a head that is still there at the import
      live.validators.items.length = n ∧
        (∀ last ∈ signers.lastProposedSlot,
          last < slotIndexFromUnixMillis node.genesisTimeSecs millis) ∧
        headRootAt ssz (slotIndexFromUnixMillis node.genesisTimeSecs millis) attempt.preState =
          headRootAt ssz (slotIndexFromUnixMillis node.genesisTimeSecs millis) attempt.importState
  | .retry _ => True

instance (node : SigningNode K) (n : Nat) (signers : Signers K) :
    (event : SigningEvent F) → Decidable (Disciplined ssz api node n signers event)
  | .attest _ _ _ _ => inferInstanceAs (Decidable (∀ millis ∈ _, ∀ data ∈ _, _ ∧ _))
  | .push _ _ => inferInstanceAs (Decidable True)
  | .propose _ _ _ => inferInstanceAs (Decidable (∀ millis ∈ _, _ ∧ _))
  | .retry _ => inferInstanceAs (Decidable True)

/-- Every pass of the run is disciplined where it starts. -/
def DisciplinedRun (ssz : Ssz) (api : ForkChoiceApi F) (node : SigningNode K) (n : Nat)
    (signers : Signers K) (events : List (SigningEvent F)) : Prop :=
  Loops.Along (Signers.step ssz api node) (Disciplined ssz api node n) signers events
  deriving Decidable

/-- What a disciplined run keeps: attested epochs and proposed epochs are apart, and each kind lies
at or below the last slot of its kind. -/
structure SignedOnce (node : SigningNode K) (n : Nat) (signers : Signers K) : Prop where
  idle : signers.retrying = none
  proven : ∀ entry ∈ signers.pending, entry.proof.isSome = true
  once : OneTime signers.signatures
  sorted : ∀ sig ∈ signers.signatures,
    (sig.epoch % n ≠ node.localIndex ∧
      ∃ last, signers.lastSignedSlot = some last ∧ sig.epoch ≤ last) ∨
    (sig.epoch % n = node.localIndex ∧
      ∃ last, signers.lastProposedSlot = some last ∧ sig.epoch ≤ last)

namespace SignedOnce

variable {node : SigningNode K} {n : Nat} {signers : Signers K}

section

variable (lawful : node.lib.Lawful)

include lawful

private theorem attest (kept : SignedOnce node n signers) {forkChoice : Option F} {state : State}
    {pending : List Attestation}
    (ok : Disciplined ssz api node n signers (.attest now forkChoice state pending)) :
    SignedOnce node n (signers.attest ssz api node now forkChoice state pending) := by
  unfold Signers.attest
  split
  · exact kept
  · rename_i millis
    split
    · exact kept
    · split
      · exact kept
      · rename_i data hdata
        obtain ⟨hlast, hrole⟩ := ok millis rfl data hdata
        split
        · exact kept
        · rename_i hnew
          split
          · exact kept
          · rename_i hactive
            split
            · exact kept
            · rcases signMessage_cases lawful node.localKey.secretKey data.slot
                  (data.hashTreeRoot ssz) with ⟨e, hsign⟩ | ⟨signature, hsign⟩
              · rw [hsign]
                simp only [List.append_nil]
                exact kept
              · rw [hsign, epoch_eq lawful (not_not.mp hactive)]
                -- earlier attestations lie strictly below, proposals have another residue
                have hbelow : ∀ last, signers.lastSignedSlot = some last → last < data.slot :=
                  fun last h => Nat.lt_of_le_of_ne (hlast last h) fun heq => hnew (heq ▸ h)
                refine ⟨kept.idle, kept.proven, kept.once.append_fresh fun old hold heq => ?_,
                  fun sig hsig => ?_⟩
                · simp only at heq
                  rcases kept.sorted old hold with ⟨-, last, h, hle⟩ | ⟨hmod, -⟩
                  · have := hbelow last h
                    omega
                  · exact hrole (heq ▸ hmod)
                · rcases List.mem_append.mp hsig with hsig | hsig
                  · refine (kept.sorted sig hsig).imp_left fun ⟨hmod, last, h, hle⟩ =>
                      ⟨hmod, data.slot, rfl, ?_⟩
                    have := hbelow last h
                    omega
                  · rw [List.mem_singleton.mp hsig]
                    exact .inl ⟨hrole, data.slot, rfl, Nat.le_refl _⟩

/-- An attempt in a slot of its own, later than every earlier proposal, on a head that is still
there at the import. -/
theorem attempt (kept : SignedOnce node n signers) {first : Bool} {attempt : ProposalAttempt F}
    (hrole : slot % n = node.localIndex) (hlater : ∀ last ∈ signers.lastProposedSlot, last < slot)
    (hhead : headRootAt ssz slot attempt.preState = headRootAt ssz slot attempt.importState) :
    SignedOnce node n (signers.attemptProposal ssz api node slot first attempt) := by
  obtain ⟨⟨more, hlog, hmore⟩, hblock⟩ := produceBlockWithSignatures_spec ssz api lawful
    attempt.preState slot attempt.forkChoice signers.pending
  rw [payload_releases_nothing kept.proven, List.nil_append] at hlog
  -- the signers once the payload is drained and the block produced
  have drained : SignedOnce node n { signers with
      pending := [], retrying := none, lastProposedSlot := some slot,
      signatures := signers.signatures ++ more } := by
    refine ⟨rfl, List.forall_mem_nil _, ?_, fun sig hsig => ?_⟩
    · rcases hmore with rfl | ⟨message, rfl⟩
      · rw [List.append_nil]
        exact kept.once
      · refine kept.once.append_fresh fun old hold heq => ?_
        simp only at heq
        rcases kept.sorted old hold with ⟨hmod, -⟩ | ⟨-, last, h, hle⟩
        · exact hmod (heq ▸ hrole)
        · have := hlater last h
          omega
    · rcases List.mem_append.mp hsig with hsig | hsig
      · refine (kept.sorted sig hsig).imp_right fun ⟨hmod, last, h, hle⟩ => ⟨hmod, slot, rfl, ?_⟩
        have := hlater last h
        omega
      · rcases hmore with rfl | ⟨message, rfl⟩
        · cases hsig
        · rw [List.mem_singleton.mp hsig]
          exact .inr ⟨hrole, slot, rfl, Nat.le_refl _⟩
  unfold Signers.attemptProposal
  generalize produceBlockWithSignatures ssz api node attempt.preState slot attempt.forkChoice
    signers.pending = produced at hlog hblock
  obtain ⟨produced, log⟩ := produced
  simp only at hlog hblock
  subst hlog
  dsimp only
  split
  · exact drained
  · rename_i signed postState
    obtain ⟨hslot, hparent⟩ := hblock signed postState rfl
    rw [hslot, hparent, hhead, if_neg (by simp)]
    exact drained

private theorem propose (kept : SignedOnce node n signers) {live : State}
    {attempt : ProposalAttempt F}
    (ok : Disciplined ssz api node n signers (.propose now live attempt)) :
    SignedOnce node n (signers.propose ssz api node now live attempt) := by
  unfold Signers.propose
  split
  · exact kept
  · rename_i millis
    obtain ⟨hregistry, hlater, hhead⟩ := ok millis rfl
    dsimp only
    rw [hregistry]
    split
    · exact kept
    · split
      · exact kept
      · split
        · exact kept
        · split
          · exact kept
          · rename_i hrole
            exact kept.attempt lawful (not_not.mp hrole) hlater hhead

/-- **A disciplined pass keeps every epoch to one signature.** -/
theorem step (kept : SignedOnce node n signers)
    {event : SigningEvent F} (ok : Disciplined ssz api node n signers event) :
    SignedOnce node n (signers.step ssz api node event) := by
  cases event with
  | attest now forkChoice state pending => exact kept.attest lawful ok
  | push attestation proof =>
    refine ⟨kept.idle, fun entry hmem => ?_, kept.once, kept.sorted⟩
    rcases List.mem_append.mp hmem with h | h
    · exact kept.proven entry h
    · rw [List.mem_singleton.mp h]
      rfl
  | propose now live attempt =>
    have := kept.propose lawful ok
    simp only [Signers.step, kept.idle]
    exact this
  | retry attempt =>
    simp only [Signers.step, kept.idle]
    exact kept

private theorem run (kept : SignedOnce node n signers)
    {events : List (SigningEvent F)} (ok : DisciplinedRun ssz api node n signers events) :
    SignedOnce node n (signers.run ssz api node events) :=
  ok.keeps (SignedOnce node n) (fun _ _ kept ok => kept.step lawful ok) kept

end

end SignedOnce

/-- **One signature a key and epoch, on every disciplined run.** -/
theorem oneTime_of_disciplined {node : SigningNode K} {n : Nat} (lawful : node.lib.Lawful)
    {events : List (SigningEvent F)}
    (ok : DisciplinedRun ssz api node n Signers.initial events) :
    OneTime (Signers.initial.run ssz api node events).signatures := by
  have start : SignedOnce node n Signers.initial :=
    ⟨rfl, List.forall_mem_nil _, List.forall_mem_nil _, List.forall_mem_nil _⟩
  exact (start.run lawful ok).once

/-! ## Two runs -/

/-- A fork choice with a single leaf: the last block it was shown. -/
structure SoleHead where
  justified : Checkpoint
  finalized : Checkpoint
  head : Checkpoint

def soleHeadApi : ForkChoiceApi SoleHead where
  latestJustified fc := fc.justified
  latestFinalized fc := fc.finalized
  head fc := fc.head.root
  headSlot fc := fc.head.slot
  checkpointForRoot fc root := if root = fc.head.root then some fc.head else none
  attestationTarget fc _ := some fc.head
  proposalHeadWithPending fc _ := (fc.head.root, fc)
  importPreview _ block postState :=
    .ok ⟨postState.latestJustified, postState.latestFinalized,
      ⟨block.hashTreeRoot sampleSsz, block.slot⟩⟩

/-- The fork choice on top of a state. -/
def soleHeadOf (state : State) : SoleHead :=
  ⟨state.latestJustified, state.latestFinalized,
    ⟨state.latestBlockHeader.hashTreeRoot sampleSsz, state.latestBlockHeader.slot⟩⟩

def sampleLeanSig : LeanSig Nat where
  sign _ _ _ := .ok (List.replicate 3112 0#8)
  activation _ := (0, 8)
  prepared _ := (0, 8)
  aggregate _ _ _ _ := .ok []

private theorem sampleLeanSig_lawful : sampleLeanSig.Lawful where
  lifetime _ := by
    show 8 ≤ 2 ^ 32
    decide
  length _ _ _ bytes h := by
    cases h
    exact List.length_replicate

theorem sampleLeanSig_signs : sampleLeanSig.Signs where
  toLawful := sampleLeanSig_lawful
  signs _ _ _ _ _ := ⟨_, rfl⟩

/-- Validator 0 of three, with all keys in its cache. -/
def sampleNode : SigningNode Nat where
  lib := sampleLeanSig
  keys := [some ⟨1#416, 0⟩, some ⟨2#416, 1⟩, some ⟨3#416, 2⟩]
  genesisTimeSecs := 0
  localIndex := 0
  localKey := ⟨1#416, 0⟩
  localKey_cached := rfl

/-- Two children of genesis, at slots 1 and 2. -/
def firstFork : State := (sampleEnd threeValidators [⟨1, []⟩]).2
def secondFork : State := (sampleEnd threeValidators [⟨2, []⟩]).2

/-- A proposal in slot 3 and an attestation in slot 4. -/
def proposeThenAttest : List (SigningEvent SoleHead) :=
  [.propose (some 12000) secondFork ⟨some (soleHeadOf secondFork), secondFork, secondFork⟩,
    .attest (some 16800) (some (soleHeadOf secondFork)) secondFork []]

/-- The law at a proposal and an attestation. -/
theorem oneTime_proposeThenAttest :
    (Signers.initial.run sampleSsz soleHeadApi sampleNode proposeThenAttest).signatures.length = 2 ∧
      OneTime (Signers.initial.run sampleSsz soleHeadApi sampleNode proposeThenAttest).signatures :=
  ⟨by decide +kernel, oneTime_of_disciplined (n := 3) sampleLeanSig_lawful (by decide +kernel)⟩

/-- The fork choice prefers the block of slot 1 while the live state is at that of slot 2, and
changes its head before the second attempt. -/
def headChange : List (SigningEvent SoleHead) :=
  [.propose (some 12000) secondFork ⟨some (soleHeadOf firstFork), firstFork, secondFork⟩,
    .retry ⟨some (soleHeadOf secondFork), secondFork, secondFork⟩]

/-- Block production signs two messages for slot 3 with one key. -/
theorem retry_signs_twice :
    sampleLeanSig.Lawful ∧
      ¬ OneTime (Signers.initial.run sampleSsz soleHeadApi sampleNode headChange).signatures :=
  ⟨sampleLeanSig_lawful, by decide +kernel⟩

end Peam
