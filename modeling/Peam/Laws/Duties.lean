import Peam.Duties
import Peam.Laws.Head

/-!
# What the node attests

`load_attestation_data` on a store grown by valid imports. The head is looked up with the pending
votes in, and the target is found by walking back from it, so target and head always name stored
blocks of their slots on one branch (`attestationTarget_spec`). The source is the store's latest
justified checkpoint as it stands. The data is coherent exactly if that checkpoint names a stored
block of its slot (`attestationData_coherent_iff`), which it does not while it is the anchor's
with the slot of another block (`anchor_source_incoherent`).
-/

namespace Peam

open Forests

variable {checkpoint : Checkpoint} {found : Bytes32} {data : AttestationData}

/-- The three checkpoints name stored blocks of their slots, in order on one branch. -/
structure Coherent (store : ForkChoiceStore) (data : AttestationData) : Prop where
  source : store.checkpointForRoot data.source.root = some data.source
  target : store.checkpointForRoot data.target.root = some data.target
  head : store.checkpointForRoot data.head.root = some data.head
  sourceAncestor : data.source.root ≠ data.target.root ∧
    Climbs store.storedParent data.target.root data.source.root
  targetAncestor : Climbs store.storedParent data.head.root data.target.root
  justifiable : isJustifiableAfter data.target.slot store.latestFinalized.slot = .ok true
  slot : data.head.slot ≤ data.slot

variable {ssz : Ssz} {verifier : SignatureVerifier} {genesisTime : Nat}
  {validators : Validators} {headers : List BlockHeader}
  {rank : Bytes32 → Nat} {top root : Bytes32} {store : ForkChoiceStore}

/-! ## Checkpoints of stored blocks -/

/-- The checkpoint of a stored block has its slot. -/
theorem checkpointForRoot_eq_some : store.checkpointForRoot root = some checkpoint ↔
      root = checkpoint.root ∧ store.blockSlot root = some checkpoint.slot := by
  rw [ForkChoiceStore.checkpointForRoot, Option.map_eq_some_iff]
  constructor
  · rintro ⟨slot, hslot, rfl⟩
    exact ⟨rfl, hslot⟩
  · rintro ⟨rfl, hslot⟩
    exact ⟨checkpoint.slot, hslot, rfl⟩

private theorem checkpointForRoot_congr {store' : ForkChoiceStore} (tree : SameTree store store') :
    store'.checkpointForRoot = store.checkpointForRoot := by
  funext root
  rw [ForkChoiceStore.checkpointForRoot, ForkChoiceStore.checkpointForRoot,
    ForkChoiceStore.blockSlot, ForkChoiceStore.blockSlot, tree.blocks]

theorem slotOf_of_checkpointForRoot (h : store.checkpointForRoot root = some checkpoint) :
    store.slotOf root = checkpoint.slot := by
  rw [ForkChoiceStore.slotOf, (checkpointForRoot_eq_some.mp h).2]
  rfl

variable {slot finalizedSlot : Nat}

private theorem stored_of_blockSlot (h : store.blockSlot root = some slot) :
    root ∈ store.blocks := by
  by_contra hnot
  rw [← blockSlot_eq_none, h] at hnot
  cases hnot

/-! ## The target -/

/-- What a walk back from the head has reached: if it is stored, it is an ancestor. -/
def Back (store : ForkChoiceStore) (root : Bytes32) : Prop :=
  root ∈ store.blocks → Climbs store.storedParent store.head root

private theorem Back.parent {parent : Bytes32} (back : Back store root)
    (hslot : store.blockSlot root = some slot) (hparent : store.parents.lookup root = some parent) :
    Back store parent := by
  intro hstored
  have hlink : store.storedParent root = some parent :=
    ForkChoiceStore.storedParent_eq_some.mpr ⟨hparent, hstored⟩
  exact (back (stored_of_blockSlot hslot)).trans (.step hlink (.refl _ _))

private theorem back_lookback {safeSlot steps : Nat} (back : Back store root)
    (h : store.lookback safeSlot steps root = some found) : Back store found := by
  induction steps generalizing root with
  | zero =>
    cases h
    exact back
  | succ steps ih =>
    rw [ForkChoiceStore.lookback] at h
    obtain ⟨slot, hslot, h⟩ := Option.bind_eq_some_iff.mp h
    split at h
    · cases h
      exact back
    · obtain ⟨parent, hparent, h⟩ := Option.bind_eq_some_iff.mp h
      split at h
      · cases h
        exact back
      · exact ih (back.parent hslot hparent) h

private theorem justifiableTurn_again {next : Bytes32}
    (h : store.justifiableTurn finalizedSlot root = .again next) :
    (∃ slot, store.blockSlot root = some slot) ∧ store.parents.lookup root = some next ∧
      next ≠ Bytes32.zero := by
  unfold ForkChoiceStore.justifiableTurn at h
  split at h
  · cases h
  · next slot hslot =>
    split at h
    · cases h
    · cases h
    · split at h
      · cases h
      · next hparent =>
        split at h
        · cases h
        · next hne =>
          cases h
          exact ⟨⟨slot, hslot⟩, hparent, hne⟩

private theorem justifiableTurn_done
    (h : store.justifiableTurn finalizedSlot root = .done (some found)) : found = root := by
  unfold ForkChoiceStore.justifiableTurn at h
  split at h
  · cases h
  · split at h
    · cases h
    · cases h
      rfl
    · split at h
      · cases h
      · split at h
        · cases h
          rfl
        · cases h

/-- **The target is the latest justified checkpoint or a stored ancestor of the head.** -/
theorem attestationTarget_spec (skeleton : Skeleton rank store) (finalizedSlot : Nat) :
    ∃ result, store.attestationTarget finalizedSlot = some result ∧
      ∀ target ∈ result, target = store.latestJustified ∨
        store.checkpointForRoot target.root = some target ∧
          Climbs store.storedParent store.head target.root := by
  rw [ForkChoiceStore.attestationTarget]
  cases hback : store.lookback ((store.blockSlot store.safeTarget).getD store.headSlot)
      justificationLookbackSlots store.head with
  | none =>
    refine ⟨none, rfl, ?_⟩
    intro target htarget
    cases htarget
  | some start =>
    have hstart : Back store start := back_lookback (fun _ => .refl _ _) hback
    obtain ⟨found, hwalk, hfound⟩ := skeleton.parentWalk (Back store)
      (fun found => ∀ root, found = some root → Back store root)
      (fun node next hnode hturn => by
        obtain ⟨⟨slot, hslot⟩, hparent, hne⟩ := justifiableTurn_again hturn
        exact ⟨hnode.parent hslot hparent, hparent, hne⟩)
      (fun node result hnode hturn root hroot => by
        rw [hroot] at hturn
        rw [justifiableTurn_done hturn]
        exact hnode)
      hstart
    dsimp only
    rw [hwalk]
    refine ⟨_, rfl, ?_⟩
    intro target htarget
    obtain ⟨root, rfl, htarget⟩ := Option.bind_eq_some_iff.mp htarget
    obtain ⟨checkpoint, hcheckpoint, rfl⟩ := Option.map_eq_some_iff.mp htarget
    split
    · exact .inl rfl
    · obtain ⟨hroot, hslot⟩ := checkpointForRoot_eq_some.mp hcheckpoint
      rw [hroot] at hcheckpoint hslot
      exact .inr ⟨hcheckpoint, hroot ▸ hfound root rfl (hroot ▸ stored_of_blockSlot hslot)⟩

/-! ## The data -/

/-- What `load_attestation_data` puts together when it returns something. -/
theorem attestationDataFor_eq_some {head target source : Checkpoint}
    (h : attestationDataFor slot finalizedSlot head target source = some data) :
    source.slot < target.slot ∧ isJustifiableAfter target.slot finalizedSlot = .ok true ∧
      data.source = source ∧ data.target = target ∧
      data.head = (if head.slot < target.slot then target else head) ∧
      data.slot = max slot data.head.slot := by
  unfold attestationDataFor at h
  dsimp only at h
  split at h
  · cases h
  · rename_i hgo
    cases h
    rw [not_or, not_not, Nat.not_le] at hgo
    exact ⟨hgo.1, hgo.2, rfl, rfl, rfl, rfl⟩

/-- Target and head are in order whatever the source is. -/
theorem load_spec
    (planted : Planted ssz verifier (generateGenesis ssz genesisTime validators) headers top store)
    (consistent : Consistent rank store) (headed : Headed store)
    {order : List Attestation → List Attestation} {state : State} {pending : List Attestation}
    (loaded : loadAttestationData ssz (forkChoiceApi ssz order) state (some store) pending slot =
      some data) :
    ∃ head, data.source = store.latestJustified ∧ data.source.slot < data.target.slot ∧
      isJustifiableAfter data.target.slot store.latestFinalized.slot = .ok true ∧
      data.head.slot ≤ data.slot ∧
      store.checkpointForRoot data.target.root = some data.target ∧
      store.checkpointForRoot data.head.root = some data.head ∧ data.head.root = head ∧
      Climbs store.storedParent head data.target.root ∧
      (store.latestJustified.root ∈ store.blocks →
        Climbs store.storedParent head store.latestJustified.root) := by
  obtain ⟨next, hnext, hconsistent, hrevoted, -⟩ :=
    getProposalHeadWithPending_spec consistent (order (aggregateAttestations ssz pending))
  have hheaded := hrevoted.headed headed
  have htree := hrevoted.tree
  have hparents := htree.storedParent_eq
  have hchecks := checkpointForRoot_congr htree
  obtain ⟨result, htarget, hresult⟩ :=
    attestationTarget_spec hconsistent.skeleton next.latestFinalized.slot
  have hhead : next.checkpointForRoot next.head = some ⟨next.head, next.headSlot⟩ :=
    checkpointForRoot_eq_some.mpr ⟨rfl, hheaded.slot⟩
  have hload : attestationDataFor slot next.latestFinalized.slot ⟨next.head, next.headSlot⟩
      (result.getD next.latestJustified) next.latestJustified = some data := by
    rw [← loaded]
    simp only [loadAttestationData, forkChoiceApi, hnext, Option.getD_some, hhead, htarget,
      Option.join_some]
  obtain ⟨hlt, hjustifiable, hsource, hdata, hdataHead, hslot⟩ := attestationDataFor_eq_some hload
  -- a target that is the source would not be above it
  obtain ⟨htargetStored, htargetBack⟩ : next.checkpointForRoot data.target.root =
      some data.target ∧ Climbs next.storedParent next.head data.target.root := by
    cases result with
    | none => exact absurd hlt (lt_irrefl _)
    | some target =>
      rw [Option.getD_some] at hdata hlt
      rw [hdata]
      refine (hresult target rfl).resolve_left ?_
      rintro rfl
      exact lt_irrefl _ hlt
  -- nor is an ancestor of the head above the head
  have hle : data.target.slot ≤ next.headSlot := by
    have hrank := (hparents ▸ htargetBack).rank_le planted.falls
    rw [← htree.slotOf_eq, ← htree.slotOf_eq, slotOf_of_checkpointForRoot htargetStored,
      slotOf_of_checkpointForRoot hhead] at hrank
    exact hrank
  rw [← hdata, if_neg (Nat.not_lt.mpr hle)] at hdataHead
  have hjustified : data.source = store.latestJustified := hsource.trans hrevoted.justified
  refine ⟨next.head, hjustified, ?_, ?_, ?_, hchecks ▸ htargetStored, ?_, ?_,
    hparents ▸ htargetBack, ?_⟩
  · rw [hsource, hdata]
    exact hlt
  · rw [hdata, ← hrevoted.finalized]
    exact hjustifiable
  · rw [hslot]
    exact le_max_right _ _
  · rw [hdataHead, ← hchecks]
    exact hhead
  · rw [hdataHead]
  · intro hstored
    have hknown : next.latestJustified.root ∈ next.nodeIndices := by
      rw [hrevoted.justified, ← hconsistent.skeleton.stored, htree.blocks]
      exact hstored
    obtain ⟨head, hfound, hghost⟩ := hconsistent.findHead_spec hknown
    rw [hheaded.found, Option.some_inj] at hfound
    rw [← hparents, ← hrevoted.justified, hfound]
    exact hghost.climbs

section Runs

variable {anchor : SignedBlockWithAttestation} {anchorState : State} {first : ForkChoiceStore}
  {steps : List Step} {blocks : List SignedBlockWithAttestation} {history : History}

/-- **What the node attests is coherent exactly if the store's latest justified checkpoint names a
stored block of its slot.** -/
theorem attestationData_coherent_iff
    (chain : Chain ssz verifier (generateGenesis ssz genesisTime validators) blocks history
      anchorState)
    (accepted : ForkChoiceStore.new ssz anchor anchorState = .ok first)
    (run : Run ssz first steps store) (sound : SoundRun ssz anchor steps)
    (noSelf : NoSelfReference ssz (blocks ++ steps.filterMap (·.enters ssz)))
    (valid : ∀ step ∈ steps, step.Valid ssz verifier)
    (order : List Attestation → List Attestation) (state : State) (pending : List Attestation)
    (slot : Nat) (data : AttestationData)
    (loaded : loadAttestationData ssz (forkChoiceApi ssz order) state (some store) pending slot =
      some data) :
    Coherent store data ↔
      store.checkpointForRoot store.latestJustified.root = some store.latestJustified := by
  obtain ⟨rank, top, hconsistent, hheaded, hplanted⟩ :=
    run.planted chain accepted sound noSelf valid
  obtain ⟨head, hsource, hlt, hjustifiable, hslot, htarget, hhead, hheadRoot, hback, hbelow⟩ :=
    load_spec hplanted hconsistent hheaded loaded
  constructor
  · intro coherent
    rw [← hsource]
    exact coherent.source
  · intro hjustified
    rw [← hsource] at hjustified hbelow
    have hstored := stored_of_blockSlot (checkpointForRoot_eq_some.mp hjustified).2
    have hslots : store.slotOf data.source.root < store.slotOf data.target.root := by
      rw [slotOf_of_checkpointForRoot hjustified, slotOf_of_checkpointForRoot htarget]
      exact hlt
    refine ⟨hjustified, htarget, hhead, ⟨?_, ?_⟩, hheadRoot ▸ hback, hjustifiable, hslot⟩
    · intro heq
      rw [heq] at hslots
      exact lt_irrefl _ hslots
    · -- both lie above the head, and the source has the lower slot
      rcases hback.total (hbelow hstored) with h | h
      · exact h
      · have hle := h.rank_le hplanted.falls
        omega

/-- Two blocks in order on genesis, then a vote for the second by two of three validators. -/
def attestedRun : List Step × ForkChoiceStore :=
  (play anchorSsz (anchoredStore anchorGenesis) (plannedEvents twoBlocks anchorGenesis ++
    [.attestation (headVote 2 ((plannedRoots twoBlocks anchorGenesis).getD 1 0#256) (voters 3 3#8)),
      .accept])).getD ([], anchoredStore anchorGenesis)

/-- The data the node attests in slot 3 after the two blocks. -/
def attestedData : Option AttestationData :=
  loadAttestationData anchorSsz (forkChoiceApi anchorSsz id) anchorGenesis (some attestedRun.2) [] 3

/-- The law at a target two slots on. -/
theorem attestationData_coherent_attested :
    ∃ data ∈ attestedData, data.source.slot = 0 ∧ data.target.slot = 2 ∧
      Coherent attestedRun.2 data := by
  have hrun : Run anchorSsz (anchoredStore anchorGenesis) attestedRun.1 attestedRun.2 :=
    Run.of_play (by decide +kernel)
  have hfalls : ∀ link ∈ linksOf anchorSsz
      (blocksOf anchorSsz (anchorOf anchorGenesis) attestedRun.1),
      placeIn (anchoredRoots twoBlocks anchorGenesis) link.2 <
        placeIn (anchoredRoots twoBlocks anchorGenesis) link.1 := by
    decide +kernel
  have hvalid : ∀ step ∈ attestedRun.1, step.isValid anchorSsz noopSignatureVerifier = true := by
    decide +kernel
  obtain ⟨data, hdata⟩ := Option.isSome_iff_exists.mp
    (by decide +kernel : attestedData.isSome = true)
  have hslots : attestedData.map (fun data => (data.source.slot, data.target.slot)) =
      some (0, 2) := by decide +kernel
  rw [hdata, Option.map_some, Option.some_inj, Prod.mk.injEq] at hslots
  refine ⟨data, hdata, hslots.1, hslots.2, ?_⟩
  refine (attestationData_coherent_iff .genesis (new_anchoredStore (by decide +kernel)) hrun
    ⟨acyclic_of_rank hfalls, by decide +kernel, by decide +kernel⟩ (by decide +kernel)
    (fun step h => Step.valid_of_isValid (hvalid step h)) id anchorGenesis [] 3 data hdata).mpr ?_
  decide +kernel

/-- **A node that starts from slot 3 and attests at once names the anchor at slot 0 as its
source.** -/
theorem anchor_source_incoherent :
    ∃ blocks history,
      Chain anchorSsz noopSignatureVerifier anchorGenesis blocks history lateAnchor.2 ∧
      ForkChoiceStore.new anchorSsz (anchorOf lateAnchor.2) lateAnchor.2 =
        .ok (anchoredStore lateAnchor.2) ∧
      Run anchorSsz (anchoredStore lateAnchor.2) [] (anchoredStore lateAnchor.2) ∧
      ∃ data ∈ loadAttestationData anchorSsz (forkChoiceApi anchorSsz id) lateAnchor.2
          (some (anchoredStore lateAnchor.2)) [] 4,
        data.source = ⟨(anchorOf lateAnchor.2).message.block.hashTreeRoot anchorSsz, 0⟩ ∧
        data.target = ⟨(anchorOf lateAnchor.2).message.block.hashTreeRoot anchorSsz, 3⟩ ∧
        ¬ Coherent (anchoredStore lateAnchor.2) data := by
  refine ⟨_, _, chain_of_imports (by decide +kernel), new_anchoredStore (by decide +kernel), .start,
    ?_⟩
  obtain ⟨data, hdata⟩ := Option.isSome_iff_exists.mp (by decide +kernel :
    (loadAttestationData anchorSsz (forkChoiceApi anchorSsz id) lateAnchor.2
      (some (anchoredStore lateAnchor.2)) [] 4).isSome = true)
  have hchecks : (loadAttestationData anchorSsz (forkChoiceApi anchorSsz id) lateAnchor.2
      (some (anchoredStore lateAnchor.2)) [] 4).map (fun data => (data.source, data.target)) =
      some (⟨(anchorOf lateAnchor.2).message.block.hashTreeRoot anchorSsz, 0⟩,
        ⟨(anchorOf lateAnchor.2).message.block.hashTreeRoot anchorSsz, 3⟩) := by
    decide +kernel
  rw [hdata, Option.map_some, Option.some_inj, Prod.mk.injEq] at hchecks
  refine ⟨data, hdata, hchecks.1, hchecks.2, fun coherent => coherent.sourceAncestor.1 ?_⟩
  rw [hchecks.1, hchecks.2]

end Runs

end Peam
