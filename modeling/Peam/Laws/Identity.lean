import Peam.Laws.Timeline
import Peam.Sample

/-!
# A block is its header

A block's root is the root of its header, and after an import the state's latest header is that
header, state root included, until the next block (`blockIdentity`): its root is the parent root the
next header check asks for, the key its post-state is stored under, and what the next block appends
to the history (`history_timeline`). The state root is written at the end of an import and, for a
header without one, in the first pass of the next `process_slots`; the two agree (`lazyTransition`).

A state root must differ from the empty one: a header with the zero word would be filled in again,
one slot later, with another root.
-/

namespace Peam

open Calls (Failure Outcome Mutation)

/-- No state has the zero root. -/
def NonzeroStateRoots (ssz : Ssz) : Prop := ∀ state : State, state.hashTreeRoot ssz ≠ Bytes32.zero

variable {ssz : Ssz} {verifier : SignatureVerifier}

/-! ## The header after an import -/

variable {after state post first second : State} {block : Block}
  {signed : SignedBlockWithAttestation}

/-- The attestations of a body leave the slot and the staged header alone. -/
theorem processAttestations_header {attestations : List Attestation} {staged : State}
    (hn : staged.validators.items.length ≠ 0)
    (h : processAttestations ssz attestations staged = .ok () after) :
    after.slot = staged.slot ∧ after.latestBlockHeader = staged.latestBlockHeader := by
  obtain ⟨loop, hrun, hend⟩ := processAttestations_ok hn h
  have same := attestationLoop_sameBase hrun
  rcases hend with ⟨-, rfl⟩ | ⟨votes, -, hencode⟩
  · exact ⟨same.slot_eq, same.header_eq⟩
  · obtain ⟨list, -, rfl⟩ := encodeJustificationVotes_ok hencode
    exact ⟨same.slot_eq, same.header_eq⟩

/-- **After a transition the latest header is the block's**, and the slot is the block's. -/
theorem stateTransitionInner_header (h : stateTransitionInner ssz block state = .ok () post) :
    post.slot = block.slot ∧ post.latestBlockHeader = block.header ssz := by
  obtain ⟨after, hlazy, rfl⟩ := stateTransitionInner_iff.mp h
  obtain ⟨staged, hstage, hatts, hroot⟩ := lazyTransition_ok hlazy
  have hstaged := stageBlock_ok hstage
  obtain ⟨hslot, hheader⟩ :=
    processAttestations_header (hstaged.validators_eq ▸ hstaged.validators_ne) hatts
  refine ⟨hslot.trans hstaged.slot_eq, ?_⟩
  show { after.latestBlockHeader with stateRoot := after.hashTreeRoot ssz } = block.header ssz
  rw [hheader, hstaged.header_eq, hroot]
  rfl

/-! ## Slot processing -/

/-- Slot processing leaves a header that has its state root alone. -/
theorem processSlotLoop_header (h : state.latestBlockHeader.stateRoot ≠ Bytes32.zero)
    (count : Nat) :
    processSlotLoop ssz count state = { state with slot := state.slot + count } := by
  induction count generalizing state with
  | zero => rfl
  | succ count ih =>
    have hpass : processSlot ssz state = { state with slot := state.slot + 1 } := by
      unfold processSlot
      rw [if_neg h]
    have hrest := @ih { state with slot := state.slot + 1 } h
    rw [processSlotLoop, hpass, hrest]
    simp only [State.mk.injEq, true_and, and_true]
    omega

/-- The state a list of `process_slots` calls leaves, whether or not each of them succeeds. -/
def slotCalls (ssz : Ssz) (targets : List Nat) (state : State) : State :=
  targets.foldl (fun state target =>
    match processSlots ssz target state with
    | .ok () next => next
    | .error _ next => next) state

private theorem slotCalls_header (ssz : Ssz) (h : state.latestBlockHeader.stateRoot ≠ Bytes32.zero)
    (targets : List Nat) :
    (slotCalls ssz targets state).latestBlockHeader = state.latestBlockHeader := by
  induction targets generalizing state with
  | nil => rfl
  | cons target rest ih =>
    by_cases hpast : state.slot ≥ target
    · rw [slotCalls, List.foldl_cons, processSlots, if_pos hpast]
      exact ih h
    · rw [slotCalls, List.foldl_cons, processSlots, if_neg hpast, processSlotLoop_header h]
      exact ih h

/-! ## Filling in the state root late -/

/-- Two states are the same from the next slot on. -/
def SameLater (ssz : Ssz) (first second : State) : Prop :=
  ∀ target later, processSlots ssz target first = .ok () later ↔
    processSlots ssz target second = .ok () later

private theorem sameLater_sealed (nonzero : NonzeroStateRoots ssz)
    (hzero : after.latestBlockHeader.stateRoot = Bytes32.zero) :
    SameLater ssz after (sealed ssz after) := by
  intro target later
  have hslot : (sealed ssz after).slot = after.slot := rfl
  unfold processSlots
  rw [hslot]
  by_cases hpast : after.slot ≥ target
  · rw [if_pos hpast, if_pos hpast]
    constructor <;> intro h <;> cases h
  · -- the first pass writes into the staged header what the sealed one already holds
    have hfilled : (sealed ssz after).latestBlockHeader.stateRoot ≠ Bytes32.zero := nonzero after
    have hfirst : processSlot ssz after = processSlot ssz (sealed ssz after) := by
      unfold processSlot
      rw [if_pos hzero, if_neg hfilled]
      rfl
    obtain ⟨count, hcount⟩ : ∃ count, target - after.slot = count + 1 :=
      ⟨target - after.slot - 1, by omega⟩
    rw [if_neg hpast, if_neg hpast, hcount, processSlotLoop, processSlotLoop, hfirst]

private theorem lazyTransition_congr (same : SameLater ssz first second) :
    lazyTransition ssz block first = .ok () after ↔ lazyTransition ssz block second = .ok () after := by
  unfold lazyTransition
  rw [Mutation.bind_ok, Mutation.bind_ok]
  constructor
  · intro h
    obtain ⟨_, advanced, hslots, hrest⟩ := h
    exact ⟨(), advanced, (same _ _).mp hslots, hrest⟩
  · intro h
    obtain ⟨_, advanced, hslots, hrest⟩ := h
    exact ⟨(), advanced, (same _ _).mpr hslots, hrest⟩

/-- What the lazy transition leaves is, from the next slot on, what the transition leaves. -/
theorem lazyTransition_sameLater (nonzero : NonzeroStateRoots ssz)
    (h : lazyTransition ssz block state = .ok () after) :
    SameLater ssz after (sealed ssz after) := by
  obtain ⟨staged, hstage, hatts, -⟩ := lazyTransition_ok h
  have hstaged := stageBlock_ok hstage
  have hheader :=
    (processAttestations_header (hstaged.validators_eq ▸ hstaged.validators_ne) hatts).2
  apply sameLater_sealed nonzero
  rw [hheader, hstaged.header_eq]
  rfl

/-- One block, late or at once: the two transitions succeed together, and what they leave is the
same from the next slot on. -/
theorem lazyTransition_step (nonzero : NonzeroStateRoots ssz) (same : SameLater ssz first second) :
    (∀ after, lazyTransition ssz block first = .ok () after →
      ∃ post, stateTransitionInner ssz block second = .ok () post ∧ SameLater ssz after post) ∧
    ∀ post, stateTransitionInner ssz block second = .ok () post →
      ∃ after, lazyTransition ssz block first = .ok () after ∧ SameLater ssz after post := by
  constructor
  · intro after h
    exact ⟨sealed ssz after,
      stateTransitionInner_iff.mpr ⟨after, (lazyTransition_congr same).mp h, rfl⟩,
      lazyTransition_sameLater nonzero h⟩
  · intro post h
    obtain ⟨after, hlazy, rfl⟩ := stateTransitionInner_iff.mp h
    exact ⟨after, (lazyTransition_congr same).mpr hlazy, lazyTransition_sameLater nonzero hlazy⟩

/-- **Late or at once, for every list of blocks.** -/
theorem lazyTransition_run (nonzero : NonzeroStateRoots ssz) (blocks : List Block)
    (same : SameLater ssz first second) :
    (∀ after, forM blocks (lazyTransition ssz) first = .ok () after →
      ∃ post, forM blocks (stateTransitionInner ssz) second = .ok () post ∧
        SameLater ssz after post) ∧
    ∀ post, forM blocks (stateTransitionInner ssz) second = .ok () post →
      ∃ after, forM blocks (lazyTransition ssz) first = .ok () after ∧ SameLater ssz after post := by
  induction blocks generalizing first second with
  | nil =>
    constructor
    · intro after h
      cases h
      exact ⟨second, rfl, same⟩
    · intro post h
      cases h
      exact ⟨first, rfl, same⟩
  | cons block rest ih =>
    simp only [List.forM_cons, Mutation.bind_ok]
    constructor
    · intro after h
      obtain ⟨_, middle, hblock, hrest⟩ := h
      obtain ⟨middle', hblock', same'⟩ := (lazyTransition_step nonzero same).1 middle hblock
      obtain ⟨post, hrest', hpost⟩ := (ih same').1 after hrest
      exact ⟨post, ⟨(), middle', hblock', hrest'⟩, hpost⟩
    · intro post h
      obtain ⟨_, middle, hblock, hrest⟩ := h
      obtain ⟨middle', hblock', same'⟩ := (lazyTransition_step nonzero same).2 middle hblock
      obtain ⟨after, hrest', hafter⟩ := (ih same').2 post hrest
      exact ⟨after, ⟨(), middle', hblock', hrest'⟩, hafter⟩

/-! ## The stored post-state -/

private theorem loadState_persisted (store : FileStore) (root : Bytes32)
    (signed : SignedBlockWithAttestation) (persisted : State) (justified finalized : Checkpoint)
    (updateHead : Bool) :
    (store.persistSignedBlockBundleInner root signed persisted justified finalized
      updateHead).loadStateByBlockRoot root = some persisted.readBack :=
  AList.lookup_insert _

/-- A block whose parent state is in the store replays as it imports. -/
theorem replaySignedBlockFromParent_eq {store : FileStore}
    (hparent : store.loadStateByBlockRoot signed.message.block.parentRoot =
      some state) (imported : processSignedBlock ssz verifier signed state = .ok () post) :
    store.replaySignedBlockFromParent ssz verifier signed = .ok post := by
  unfold FileStore.replaySignedBlockFromParent
  rw [hparent]
  dsimp only
  rw [imported]

/-- **Both ways of putting a block store its post-state under the given root.** -/
theorem loadState_put {store : FileStore} {live : State} (root : Bytes32)
    (hparent : store.loadStateByBlockRoot signed.message.block.parentRoot = some state)
    (imported : processSignedBlock ssz verifier signed state = .ok () post) :
    (∃ store' live', store.putSignedBlockInner ssz verifier root signed live =
        .ok (store', live') ∧ store'.loadStateByBlockRoot root = some post.readBack) ∧
      (live.slot ≤ post.slot →
        ∃ store' live', store.putBackfillSignedBlock ssz verifier root signed live =
          .ok (store', live') ∧ store'.loadStateByBlockRoot root = some post.readBack) := by
  have hreplay := replaySignedBlockFromParent_eq hparent imported
  constructor
  · unfold FileStore.putSignedBlockInner
    rw [hreplay]
    dsimp only [bind, Except.bind]
    split
    · exact ⟨_, _, rfl, loadState_persisted ..⟩
    · exact ⟨_, _, rfl, loadState_persisted ..⟩
  · intro hslot
    unfold FileStore.putBackfillSignedBlock
    rw [hreplay]
    dsimp only [bind, Except.bind]
    rw [Outcome.failIf, if_neg (Nat.not_lt.mpr hslot)]
    exact ⟨_, _, rfl, loadState_persisted ..⟩

/-! ## Identity -/

/-- **A block is its header.** After an import the latest header has the block's root, through every
list of slot calls; the next header check accepts no other parent root, and the post-state is stored
under it. Transitions that leave the state root to the next slot lead to the same states. -/
theorem blockIdentity (nonzero : NonzeroStateRoots ssz) {signed : SignedBlockWithAttestation}
    {state post : State} (imported : processSignedBlock ssz verifier signed state = .ok () post) :
    post.latestBlockHeader.hashTreeRoot ssz = signed.message.block.hashTreeRoot ssz ∧
    (∀ targets, (slotCalls ssz targets post).latestBlockHeader.hashTreeRoot ssz =
        signed.message.block.hashTreeRoot ssz ∧
      ∀ header next, processBlockHeaderAssumingSlot ssz header (slotCalls ssz targets post) =
        .ok () next → header.parentRoot = signed.message.block.hashTreeRoot ssz) ∧
    (∀ (store : FileStore) (live : State),
      store.loadStateByBlockRoot signed.message.block.parentRoot = some state →
      (∃ store' live', store.putSignedBlockInner ssz verifier
          (signed.message.block.hashTreeRoot ssz) signed live = .ok (store', live') ∧
        store'.loadStateByBlockRoot (post.latestBlockHeader.hashTreeRoot ssz) =
          some post.readBack) ∧
      (live.slot ≤ post.slot → ∃ store' live', store.putBackfillSignedBlock ssz verifier
          (signed.message.block.hashTreeRoot ssz) signed live = .ok (store', live') ∧
        store'.loadStateByBlockRoot (post.latestBlockHeader.hashTreeRoot ssz) =
          some post.readBack)) ∧
    ∀ (start : State) (blocks : List Block),
      (∀ after, forM blocks (lazyTransition ssz) start = .ok () after →
        ∃ eager, forM blocks (stateTransitionInner ssz) start = .ok () eager ∧
          SameLater ssz after eager) ∧
      ∀ eager, forM blocks (stateTransitionInner ssz) start = .ok () eager →
        ∃ after, forM blocks (lazyTransition ssz) start = .ok () after ∧
          SameLater ssz after eager := by
  have hheader := (stateTransitionInner_header (processSignedBlock_transition imported)).2
  have hroot : post.latestBlockHeader.hashTreeRoot ssz =
      signed.message.block.hashTreeRoot ssz := by
    rw [hheader]
    rfl
  have hfilled : post.latestBlockHeader.stateRoot ≠ Bytes32.zero := by
    obtain ⟨after, -, rfl⟩ :=
      stateTransitionInner_iff.mp (processSignedBlock_transition imported)
    exact nonzero after
  refine ⟨hroot, ?_, ?_, ?_⟩
  · intro targets
    have hcalls := slotCalls_header ssz hfilled targets
    refine ⟨by rw [hcalls, hroot], ?_⟩
    intro header next hnext
    obtain ⟨-, -, hparent, -⟩ := processBlockHeaderAssumingSlot_ok hnext
    rw [hparent, hcalls, hroot]
  · intro store live hparent
    rw [hroot]
    exact loadState_put _ hparent imported
  · intro start blocks
    exact lazyTransition_run nonzero blocks fun _ _ => Iff.rfl

private theorem nonzeroStateRoots_oddSsz : NonzeroStateRoots oddSsz := by
  intro state hzero
  have hbit : (state.hashTreeRoot oddSsz).getLsbD 0 = true := by
    simp [State.hashTreeRoot, oddSsz]
  rw [hzero] at hbit
  cases hbit

/-- A chain with gaps: blocks at slots 2 and 5. -/
def gapGenesis : State := generateGenesis oddSsz 0 threeValidators

def gapBlocks : List SignedBlockWithAttestation :=
  buildBlocks oddSsz noopSignatureVerifier [⟨2, []⟩, ⟨5, []⟩] gapGenesis

def gapEnd : History × State :=
  (importBlocks oddSsz noopSignatureVerifier gapBlocks (History.empty, gapGenesis)).getD
    (History.empty, gapGenesis)

/-- The first block of the chain, and what its import leaves. -/
def gapFirst : SignedBlockWithAttestation := PlannedBlock.build oddSsz ⟨2, []⟩ gapGenesis

def gapPost : State :=
  ((processSignedBlock oddSsz noopSignatureVerifier gapFirst).after gapGenesis).getD gapGenesis

/-- The law at slot calls that go back and forth. -/
theorem blockIdentity_gapFirst :
    (slotCalls oddSsz [4, 3, 9] gapPost).latestBlockHeader.hashTreeRoot oddSsz =
      gapFirst.message.block.hashTreeRoot oddSsz := by
  have himports : ((processSignedBlock oddSsz noopSignatureVerifier gapFirst).after
      gapGenesis).isSome = true := by decide +kernel
  have hpost : processSignedBlock oddSsz noopSignatureVerifier gapFirst gapGenesis =
      .ok () gapPost := by
    obtain ⟨post, hafter⟩ := Option.isSome_iff_exists.mp himports
    rw [gapPost, hafter, Option.getD_some]
    exact Mutation.after_eq_some.mp hafter
  exact ((blockIdentity nonzeroStateRoots_oddSsz hpost).2.1 [4, 3, 9]).1

/-! ## The history -/

/-- The history of a state, told by the headers of its chain: an entry for each slot below the latest
header, which is the root of the chain's header at that slot, or zero. -/
structure ToldBy (ssz : Ssz) (headers : List BlockHeader) (state : State) : Prop where
  filled : state.latestBlockHeader.stateRoot ≠ Bytes32.zero
  length_eq : state.historicalBlockHashes.items.length = state.latestBlockHeader.slot
  latest_mem : state.latestBlockHeader ∈ headers
  latest_top : ∀ header ∈ headers, header.slot ≤ state.latestBlockHeader.slot ∧
    (header.slot = state.latestBlockHeader.slot → header = state.latestBlockHeader)
  entry : ∀ header ∈ headers, header.slot < state.latestBlockHeader.slot →
    state.historicalBlockHashes.items[header.slot]? = some (header.hashTreeRoot ssz)
  gap : ∀ slot < state.latestBlockHeader.slot, (∀ header ∈ headers, header.slot ≠ slot) →
    state.historicalBlockHashes.items[slot]? = some Bytes32.zero

private theorem processSignedBlock_history
    (imported : processSignedBlock ssz verifier signed state = .ok () post) :
    ∃ staged, StagedOn ssz state (signed.message.block.header ssz) staged ∧
      post.historicalBlockHashes = staged.historicalBlockHashes := by
  obtain ⟨staged, loop, hstage, hrun, hfinish⟩ := processSignedBlock_ok imported
  refine ⟨staged, stageBlock_ok hstage, ?_⟩
  rw [hfinish.sameCheckpoints.history_eq, (attestationLoop_sameBase hrun).history_eq]
  rfl

/-- **One more block adds its parent's root and the gap before it.** -/
theorem ToldBy.next (nonzero : NonzeroStateRoots ssz) {headers : List BlockHeader}
    {signed : SignedBlockWithAttestation} {state post : State} (told : ToldBy ssz headers state)
    (imported : processSignedBlock ssz verifier signed state = .ok () post) :
    ToldBy ssz (headers ++ [signed.message.block.header ssz]) post := by
  obtain ⟨staged, hstaged, hhistory⟩ := processSignedBlock_history imported
  have hlatest := (stateTransitionInner_header (processSignedBlock_transition imported)).2
  -- the parent root is the root of the header the state had all along
  have hparent : (signed.message.block.header ssz).parentRoot =
      state.latestBlockHeader.hashTreeRoot ssz := by
    rw [hstaged.parentRoot_eq, processSlotLoop_header told.filled]
  have hlt := hstaged.header_lt
  have hitems := hstaged.history_eq
  rw [hparent] at hitems
  have hlength := told.length_eq
  refine ⟨?_, ?_, ?_, ?_, ?_, ?_⟩
  · obtain ⟨after, -, rfl⟩ :=
      stateTransitionInner_iff.mp (processSignedBlock_transition imported)
    exact nonzero after
  · rw [hhistory, hlatest, hitems, List.length_append, List.length_cons, List.length_replicate]
    omega
  · rw [hlatest]
    exact List.mem_append_right _ (List.mem_singleton_self _)
  · intro header hmem
    rw [hlatest]
    rcases List.mem_append.mp hmem with hold | hnew
    · have := (told.latest_top header hold).1
      exact ⟨by omega, fun h => by omega⟩
    · rw [List.mem_singleton.mp hnew]
      exact ⟨Nat.le_refl _, fun _ => rfl⟩
  · intro header hmem hbelow
    rw [hlatest] at hbelow
    rw [hhistory, hitems]
    rcases List.mem_append.mp hmem with hold | hnew
    · obtain ⟨hle, htop⟩ := told.latest_top header hold
      by_cases hslot : header.slot = state.latestBlockHeader.slot
      · rw [htop hslot, List.getElem?_append_right (Nat.le_of_eq hlength), hlength, Nat.sub_self,
          List.getElem?_cons_zero]
      · have hsmall : header.slot < state.latestBlockHeader.slot := by omega
        rw [List.getElem?_append_left (by omega)]
        exact told.entry header hold hsmall
    · rw [List.mem_singleton.mp hnew] at hbelow
      omega
  · intro slot hbelow hnone
    rw [hlatest] at hbelow
    rw [hhistory, hitems]
    by_cases hslot : slot < state.latestBlockHeader.slot
    · rw [List.getElem?_append_left (by omega)]
      exact told.gap slot hslot fun header hmem => hnone header (List.mem_append_left _ hmem)
    · have hne := hnone _ (List.mem_append_left _ told.latest_mem)
      obtain ⟨k, hk⟩ : ∃ k, slot - state.latestBlockHeader.slot = k + 1 :=
        ⟨slot - state.latestBlockHeader.slot - 1, by omega⟩
      rw [List.getElem?_append_right (by omega), hlength, hk, List.getElem?_cons_succ,
        List.getElem?_replicate, if_pos (by omega)]

/-- The headers of a chain: the genesis header and those of its blocks. -/
def chainHeaders (ssz : Ssz) (genesis : State) (blocks : List SignedBlockWithAttestation) :
    List BlockHeader :=
  genesis.latestBlockHeader :: blocks.map fun signed => signed.message.block.header ssz

/-- **Every chain's history is told by its headers.** -/
theorem Chain.toldBy (nonzero : NonzeroStateRoots ssz) {genesisTime : Nat}
    {validators : Validators}
    {blocks : List SignedBlockWithAttestation} {history : History}
    (reached : Chain ssz verifier (generateGenesis ssz genesisTime validators) blocks history
      state) :
    ToldBy ssz (chainHeaders ssz (generateGenesis ssz genesisTime validators) blocks) state := by
  induction reached with
  | genesis =>
    refine ⟨nonzero _, rfl, List.mem_cons_self, ?_, ?_, ?_⟩
    · intro header hmem
      rw [List.mem_singleton.mp hmem]
      exact ⟨Nat.le_refl _, fun _ => rfl⟩
    · intro header hmem hbelow
      exact absurd hbelow (Nat.not_lt_zero _)
    · intro slot hbelow
      exact absurd hbelow (Nat.not_lt_zero _)
  | imported before himport ih =>
    have hnext := ih.next nonzero himport
    rw [chainHeaders, List.cons_append] at hnext
    rw [chainHeaders, List.map_append]
    exact hnext

/-- **The history is the timeline of the chain**, and an import that fails leaves the state as it
was, however far it came. -/
theorem history_timeline (nonzero : NonzeroStateRoots ssz) {genesisTime : Nat}
    {validators : Validators}
    {blocks : List SignedBlockWithAttestation} {history : History} {state : State}
    (reached : Chain ssz verifier (generateGenesis ssz genesisTime validators) blocks history
      state) :
    state.historicalBlockHashes.items.length = state.latestBlockHeader.slot ∧
    (0 < state.latestBlockHeader.slot → state.historicalBlockHashes.items[0]? =
      some ((generateGenesis ssz genesisTime validators).latestBlockHeader.hashTreeRoot ssz)) ∧
    (∀ signed ∈ blocks, signed.message.block.slot < state.latestBlockHeader.slot →
      state.historicalBlockHashes.items[signed.message.block.slot]? =
        some (signed.message.block.hashTreeRoot ssz)) ∧
    (∀ slot < state.latestBlockHeader.slot, slot ≠ 0 →
      (∀ signed ∈ blocks, signed.message.block.slot ≠ slot) →
      state.historicalBlockHashes.items[slot]? = some Bytes32.zero) ∧
    ∀ (signed : SignedBlockWithAttestation) (start left : State) (failure : Failure),
      processSignedBlock ssz verifier signed start = .error failure left → left = start := by
  have told := reached.toldBy nonzero
  refine ⟨told.length_eq, ?_, ?_, ?_, ?_⟩
  · intro hpos
    exact told.entry _ List.mem_cons_self hpos
  · intro signed hmem hbelow
    exact told.entry _ (List.mem_cons_of_mem _ (List.mem_map_of_mem hmem)) hbelow
  · intro slot hbelow hne hnone
    apply told.gap slot hbelow
    intro header hmem
    rcases List.mem_cons.mp hmem with rfl | hmem
    · exact hne.symm
    · obtain ⟨signed, hsigned, rfl⟩ := List.mem_map.mp hmem
      exact hnone signed hsigned
  · intro signed start left failure hfail
    unfold processSignedBlock at hfail
    split at hfail
    · cases hfail
      rfl
    · split at hfail
      · cases hfail
        rfl
      · split at hfail
        · cases hfail
          rfl
        · cases hfail

/-- The law at a chain with empty slots. -/
theorem history_timeline_gapBlocks :
    gapEnd.2.latestBlockHeader.slot = 5 ∧ gapEnd.2.historicalBlockHashes.items.length = 5 ∧
      gapEnd.2.historicalBlockHashes.items[2]? =
        some (gapFirst.message.block.hashTreeRoot oddSsz) := by
  have himports : (importBlocks oddSsz noopSignatureVerifier gapBlocks
      (History.empty, gapGenesis)).isSome = true := by decide +kernel
  have hchain : Chain oddSsz noopSignatureVerifier gapGenesis gapBlocks gapEnd.1 gapEnd.2 :=
    chain_of_imports himports
  have hfirst : gapFirst ∈ gapBlocks ∧ gapEnd.2.latestBlockHeader.slot = 5 ∧
      gapFirst.message.block.slot = 2 := by decide +kernel
  obtain ⟨hlength, -, hentry, -⟩ := history_timeline nonzeroStateRoots_oddSsz hchain
  have hroot := hentry gapFirst hfirst.1 (by rw [hfirst.2.1, hfirst.2.2]; decide)
  rw [hfirst.2.2] at hroot
  exact ⟨hfirst.2.1, hlength.trans hfirst.2.1, hroot⟩

end Peam
