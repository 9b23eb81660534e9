import Peam.Laws.Ancestry
import Peam.Laws.FileStore
import Peam.Laws.Identity
import Peam.Laws.ReadBack

/-!
# What a node that starts from a checkpoint stands on

After an import the state's header is the block's, so the anchor a node builds from a downloaded
state is the last block, but for its body, which is the default one (`buildAnchorBlock_imported`).
Its root is the block's exactly if the last block carried no attestations (`standsOn_iff`). Then
every child of the block that imports on the state replays from the store. Otherwise the state is
accepted, but the next block does not find its parent (`anchor_beside_block`).
-/

namespace Peam

open Calls (Outcome Mutation)

variable {ssz : Ssz} {verifier : SignatureVerifier}

/-- The body of every anchor. -/
def BlockBody.default : BlockBody := ⟨SszList.empty⟩

/-- The node stands on a block of this root: the state, a block and the fork choice's anchor are
under the root, and every valid child replays from the store. -/
structure StandsOn (ssz : Ssz) (verifier : SignatureVerifier) (root : Bytes32) (state : State)
    (store : FileStore) (forkChoice : ForkChoiceStore) : Prop where
  stateStored : store.loadStateByBlockRoot root = some state.readBack
  blockStored : ∃ stored, store.getBlock root = some stored ∧ stored.hashTreeRoot ssz = root
  anchor : forkChoice.blocks.keys = [root]
  head : forkChoice.head = root
  children : ∀ child post, child.message.block.parentRoot = root →
    processSignedBlock ssz verifier child state = .ok () post →
    store.replaySignedBlockFromParent ssz verifier child = .ok post.readBack

/-! ## The anchor of an imported block -/

variable {state post live : State} {block : Block} {store store' : FileStore}
  {forkChoice : ForkChoiceStore}

private theorem stageBlock_proposer {header : BlockHeader} {staged : State}
    (h : stageBlock ssz header state = .ok () staged) :
    header.proposerIndex < state.validators.items.length := by
  unfold stageBlock at h
  obtain ⟨_, advanced, hslots, hheader⟩ := Mutation.bind_ok.mp h
  unfold processSlots at hslots
  split at hslots
  · cases hslots
  · cases hslots
    obtain ⟨_, hproposer, _⟩ := processBlockHeaderAssumingSlot_ok hheader
    obtain ⟨stateRoot, hloop⟩ := processSlotLoop_eq ssz (header.slot - state.slot) state
    rw [hloop] at hproposer
    unfold isProposerFor at hproposer
    split at hproposer
    · cases hproposer
    · rename_i hsome
      rw [← beq_iff_eq.mp hproposer]
      exact Nat.mod_lt _ (Nat.pos_of_ne_zero hsome)

section

variable (h : stateTransitionInner ssz block state = .ok () post)

include h

/-- A block that imports is past slot zero and its proposer is in the registry. -/
theorem stateTransitionInner_bounds :
    post.slot ≠ 0 ∧ block.proposerIndex < validatorRegistryLimit := by
  obtain ⟨after, hlazy, _⟩ := stateTransitionInner_iff.mp h
  obtain ⟨staged, hstage, _⟩ := lazyTransition_ok hlazy
  have hlt : state.slot < block.slot := (stageBlock_ok hstage).slot_lt
  have hproposer : block.proposerIndex < state.validators.items.length :=
    stageBlock_proposer hstage
  refine ⟨?_, hproposer.trans_le state.validators.bounded⟩
  rw [(stateTransitionInner_header h).1]
  exact Nat.ne_zero_of_lt hlt

private theorem hashTreeRoot_staged :
    { post with latestBlockHeader := post.latestBlockHeader.staged }.hashTreeRoot ssz =
      block.stateRoot := by
  obtain ⟨after, hlazy, rfl⟩ := stateTransitionInner_iff.mp h
  obtain ⟨staged, hstage, hatts, hroot⟩ := lazyTransition_ok hlazy
  have hstaged := stageBlock_ok hstage
  have hheader :=
    (processAttestations_header (hstaged.validators_eq ▸ hstaged.validators_ne) hatts).2
  have hzero : after.latestBlockHeader.staged = after.latestBlockHeader := by
    rw [hheader, hstaged.header_eq, BlockHeader.staged_staged]
  have hafter : { sealed ssz after with
      latestBlockHeader := (sealed ssz after).latestBlockHeader.staged } = after := by
    show { after with latestBlockHeader := after.latestBlockHeader.staged } = after
    rw [hzero]
  rw [hafter, hroot]

private theorem buildAnchorBlock_imported :
    buildAnchorBlock ssz post = { block with body := BlockBody.default } := by
  have hheader := (stateTransitionInner_header h).2
  have hroot : (if post.latestBlockHeader.stateRoot = Bytes32.zero then post.hashTreeRoot ssz
      else post.latestBlockHeader.stateRoot) = block.stateRoot := by
    split
    · -- a zero root is no other than the one the header was staged with
      rename_i hzero
      have hsame := hashTreeRoot_staged h
      rw [BlockHeader.staged_eq hzero] at hsame
      exact hsame
    · rw [hheader]
      rfl
  rw [buildAnchorBlock, hroot, hheader]
  rfl

private theorem fillStateRoot_imported :
    fillStateRoot ssz post = post := by
  have hheader := (stateTransitionInner_header h).2
  have hsame : { post.latestBlockHeader with stateRoot := block.stateRoot } =
      post.latestBlockHeader := by
    rw [hheader]
    rfl
  unfold fillStateRoot
  split
  · rw [hashTreeRoot_staged h, hsame]
  · rfl

end

/-! ## The seed -/

/-- What a seed that goes through leaves. -/
theorem seedAnchor_ok
    (h : seedAnchorStoreAndForkChoice ssz store state = .ok (store', live, forkChoice)) :
    let anchor := buildAnchorBlock ssz state
    let root := anchor.hashTreeRoot ssz
    live = normalizeGenesisAnchorRoots state root ∧
      store' = (((store.putAnchorSignedBlock root (selfVoting ssz anchor)
        (normalizeGenesisAnchorRoots state root)).setHead root).setFinalizedCheckpoint
          ⟨root, anchor.slot⟩).setJustified root := by
  obtain ⟨signed, hsigned, h⟩ := Outcome.bind_ok.mp h
  obtain ⟨⟨⟩, -, hsigned⟩ := Outcome.bind_ok.mp hsigned
  obtain ⟨first, -, h⟩ := Outcome.bind_ok.mp h
  cases hsigned
  cases h
  exact ⟨rfl, rfl⟩

/-- The normalized state differs in its checkpoints only. -/
theorem normalizeGenesisAnchorRoots_same (state : State) (root : Bytes32) :
    (normalizeGenesisAnchorRoots state root).latestBlockHeader = state.latestBlockHeader ∧
      (normalizeGenesisAnchorRoots state root).historicalBlockHashes =
        state.historicalBlockHashes := by
  unfold normalizeGenesisAnchorRoots
  split <;> exact ⟨rfl, rfl⟩

section

variable (h : seedAnchorStoreAndForkChoice ssz store state = .ok (store', live, forkChoice))

include h

/-- What a seed sets: the anchor is the head and finalized. -/
theorem seedAnchor_live
    (le : live.latestFinalized.slot ≤ state.latestBlockHeader.slot) :
    store'.live.head = some ((buildAnchorBlock ssz state).hashTreeRoot ssz) ∧
      store'.live.finalized = some ((buildAnchorBlock ssz state).hashTreeRoot ssz) ∧
      store'.live.finalizedSlot = some state.latestBlockHeader.slot := by
  obtain ⟨rfl, rfl⟩ := seedAnchor_ok h
  generalize hput : store.putAnchorSignedBlock _ _ _ = put
  have hslot : put.live.finalizedSlot = some (normalizeGenesisAnchorRoots state
      ((buildAnchorBlock ssz state).hashTreeRoot ssz)).latestFinalized.slot := by
    rw [← hput]
    rfl
  have hlower : ¬ ∃ current ∈
      (put.setHead ((buildAnchorBlock ssz state).hashTreeRoot ssz)).live.finalizedSlot,
        (buildAnchorBlock ssz state).slot < current := by
    intro hcurrent
    obtain ⟨current, hcurrent, hlt⟩ := hcurrent
    have hcurrent' : put.live.finalizedSlot = some current := hcurrent
    rw [hslot] at hcurrent'
    cases hcurrent'
    exact absurd hlt (Nat.not_lt.mpr le)
  unfold FileStore.setJustified FileStore.setFinalizedCheckpoint
  rw [if_neg hlower]
  dsimp only
  rw [(FileStore.flushCanonical_memory _).2.2.2.2]
  exact ⟨rfl, rfl, rfl⟩

/-- The rest of a seed leaves the blobs of its put. -/
theorem seedAnchor_blobs :
    FileStore.SameBlobs
      (store.putAnchorSignedBlock ((buildAnchorBlock ssz state).hashTreeRoot ssz)
        (selfVoting ssz (buildAnchorBlock ssz state)) live) store' := by
  obtain ⟨rfl, rfl⟩ := seedAnchor_ok h
  exact (FileStore.sameBlobs_setHead _ _).trans
    ((FileStore.sameBlobs_setFinalizedCheckpoint _ _).trans (FileStore.sameBlobs_setJustified _ _))

end

/-- A seed from an imported state goes through: state and anchor are in the store, under the root of
the anchor, and so is the fork choice. -/
theorem seedAnchor_imported (h : stateTransitionInner ssz block state = .ok () post)
    (store : FileStore) :
    ∃ store' forkChoice,
      seedAnchorStoreAndForkChoice ssz store post = .ok (store', post, forkChoice) ∧
      store'.loadStateByBlockRoot ((buildAnchorBlock ssz post).hashTreeRoot ssz) =
        some post.readBack ∧
      store'.getBlock ((buildAnchorBlock ssz post).hashTreeRoot ssz) =
        some (buildAnchorBlock ssz post) ∧
      forkChoice.blocks.keys = [(buildAnchorBlock ssz post).hashTreeRoot ssz] ∧
      forkChoice.head = (buildAnchorBlock ssz post).hashTreeRoot ssz := by
  obtain ⟨hslot, hproposer⟩ := stateTransitionInner_bounds h
  have hanchor := buildAnchorBlock_imported h
  have hnormal : normalizeGenesisAnchorRoots post ((buildAnchorBlock ssz post).hashTreeRoot ssz) =
      post := if_pos hslot
  have hsigned : buildAnchorSignedBlock ssz (buildAnchorBlock ssz post) =
      .ok (selfVoting ssz (buildAnchorBlock ssz post)) := by
    have hlimit : ¬ (buildAnchorBlock ssz post).proposerIndex ≥ validatorRegistryLimit := by
      rw [hanchor]
      exact Nat.not_le.mpr hproposer
    unfold buildAnchorSignedBlock
    simp only [Outcome.failIf, if_neg hlimit]
    rfl
  have hmatch : ForkChoiceStore.stateMatchesBlockRoot ssz post
      (buildAnchorBlock ssz post).stateRoot = true := by
    rw [hanchor, ForkChoiceStore.stateMatchesBlockRoot, (stateTransitionInner_header h).2]
    simp [Block.header]
  have hnew : ForkChoiceStore.new ssz (selfVoting ssz (buildAnchorBlock ssz post)) post =
      .ok ((ForkChoiceStore.anchored ssz (selfVoting ssz (buildAnchorBlock ssz post))
        post).overrideCheckpointRoots ((buildAnchorBlock ssz post).hashTreeRoot ssz)) := if_pos hmatch
  let root := (buildAnchorBlock ssz post).hashTreeRoot ssz
  let put := store.putAnchorSignedBlock root (selfVoting ssz (buildAnchorBlock ssz post)) post
  let store' := ((put.setHead root).setFinalizedCheckpoint
    ⟨root, (buildAnchorBlock ssz post).slot⟩).setJustified root
  have hblobs : FileStore.SameBlobs put store' :=
    (FileStore.sameBlobs_setHead put root).trans
      ((FileStore.sameBlobs_setFinalizedCheckpoint _ _).trans
        (FileStore.sameBlobs_setJustified _ root))
  let forkChoice := ((ForkChoiceStore.anchored ssz (selfVoting ssz (buildAnchorBlock ssz post))
    post).overrideCheckpointRoots root).overrideCheckpointRoots root
  refine ⟨store', forkChoice, ?_, ?_, ?_, ?_, ?_⟩
  · unfold seedAnchorStoreAndForkChoice
    simp only [hnormal]
    exact Outcome.bind_ok.mpr ⟨_, hsigned, Outcome.bind_ok.mpr ⟨_, hnew, rfl⟩⟩
  · rw [FileStore.loadStateByBlockRoot, hblobs.states]
    exact AList.lookup_insert _
  · rw [FileStore.getBlock, hblobs.blocks]
    exact AList.lookup_insert _
  · rfl
  · rfl

/-! ## Starting from a checkpoint -/

private theorem Chain.last_import {genesis : State} {blocks : List SignedBlockWithAttestation}
    {last : SignedBlockWithAttestation} {history : History}
    (chain : Chain ssz verifier genesis (blocks ++ [last]) history state) :
    ∃ before, processSignedBlock ssz verifier last before = .ok () state := by
  generalize hlist : blocks ++ [last] = all at chain
  cases chain with
  | genesis => simp at hlist
  | @imported _ _ before signed _ _ himport =>
    obtain ⟨rfl⟩ := List.singleton_inj.mp (List.append_inj' hlist rfl).2
    exact ⟨before, himport⟩

/-- **A node that starts from an imported state stands on the last block exactly if that block has
the body of an anchor**, by root. -/
theorem standsOn_iff {genesisTime : Nat} {validators : Validators}
    {blocks : List SignedBlockWithAttestation} {last : SignedBlockWithAttestation}
    {history : History} {state expectedGenesis : State} {debugRoot : Bytes32 → String}
    (blind : BalanceBlind verifier)
    (chain : Chain ssz verifier (generateGenesis ssz genesisTime validators) (blocks ++ [last])
      history state)
    (distinct : CollisionFree ssz
      [last.message.block.header ssz, (buildAnchorBlock ssz state).header ssz])
    (verified : verifyCheckpointState ssz debugRoot state expectedGenesis = .ok ())
    (store : FileStore) :
    ∃ store' forkChoice,
      startFromCheckpoint ssz debugRoot store state expectedGenesis =
        .ok (store', state, forkChoice) ∧
      (StandsOn ssz verifier (last.message.block.hashTreeRoot ssz) state store' forkChoice ↔
        last.message.block.body.hashTreeRoot ssz = BlockBody.default.hashTreeRoot ssz) := by
  obtain ⟨before, himport⟩ := chain.last_import
  have htransition := processSignedBlock_transition himport
  obtain ⟨store', forkChoice, hseed, hstate, hblock, hkeys, hhead⟩ :=
    seedAnchor_imported htransition store
  refine ⟨store', forkChoice, ?_, ?_, ?_⟩
  · unfold startFromCheckpoint
    rw [verified, fillStateRoot_imported htransition, hseed]
    rfl
  · intro stands
    have hroot := List.singleton_inj.mp (stands.anchor.symm.trans hkeys)
    have hheader := distinct (last.message.block.header ssz) (by simp)
      ((buildAnchorBlock ssz state).header ssz) (by simp) hroot
    rw [buildAnchorBlock_imported htransition] at hheader
    exact congrArg BlockHeader.bodyRoot hheader
  · intro hbody
    have hroot : (buildAnchorBlock ssz state).hashTreeRoot ssz =
        last.message.block.hashTreeRoot ssz := by
      rw [buildAnchorBlock_imported htransition, Block.hashTreeRoot, Block.hashTreeRoot, ← hbody]
    rw [hroot] at hstate hblock hkeys hhead
    refine ⟨hstate, ⟨_, hblock, hroot⟩, hkeys, hhead, ?_⟩
    intro child post hparent hchild
    refine replaySignedBlockFromParent_eq ?_ (processSignedBlock_readBack blind hchild)
    rw [hparent]
    exact hstate

/-! ## Two starts -/

/-- The blocks of a plan on the anchored genesis. -/
def plannedBlocks (plan : List PlannedBlock) : List SignedBlockWithAttestation :=
  buildBlocks anchorSsz noopSignatureVerifier plan anchorGenesis

/-- The last of them. -/
def plannedLast (plan : List PlannedBlock) : SignedBlockWithAttestation :=
  (plannedBlocks plan).getLastD (anchorOf anchorGenesis)

/-- Where they lead. -/
def plannedEnd (plan : List PlannedBlock) : History × State :=
  (importBlocks anchorSsz noopSignatureVerifier (plannedBlocks plan)
    (History.empty, anchorGenesis)).getD (History.empty, anchorGenesis)

private theorem plannedEnd_chain {plan : List PlannedBlock}
    (h : (importBlocks anchorSsz noopSignatureVerifier (plannedBlocks plan)
      (History.empty, anchorGenesis)).isSome = true)
    (last : plannedBlocks plan = (plannedBlocks plan).dropLast ++ [plannedLast plan]) :
    Chain anchorSsz noopSignatureVerifier anchorGenesis
      ((plannedBlocks plan).dropLast ++ [plannedLast plan]) (plannedEnd plan).1
      (plannedEnd plan).2 := by
  rw [← last]
  exact chain_of_imports h

/-- What a node with an empty store has after it starts from the end of a plan. -/
def plannedStart (plan : List PlannedBlock) : Outcome (FileStore × State × ForkChoiceStore) :=
  startFromCheckpoint anchorSsz (fun _ => "") FileStore.fresh (plannedEnd plan).2 anchorGenesis

/-- Two blocks, none of which carries a vote. -/
def emptyPlan : List PlannedBlock := [⟨1, []⟩, ⟨3, []⟩]

/-- The law at a chain without votes. -/
theorem standsOn_emptyPlan :
    ∃ store' forkChoice, plannedStart emptyPlan = .ok (store', (plannedEnd emptyPlan).2, forkChoice) ∧
      (plannedEnd emptyPlan).2.slot = 3 ∧
      StandsOn anchorSsz noopSignatureVerifier
        ((plannedLast emptyPlan).message.block.hashTreeRoot anchorSsz) (plannedEnd emptyPlan).2
        store' forkChoice := by
  obtain ⟨store', forkChoice, hstart, hstands⟩ :=
    standsOn_iff noopSignatureVerifier_blind
      (@plannedEnd_chain emptyPlan (by decide +kernel) (by decide +kernel))
      (by decide +kernel)
      (show verifyCheckpointState anchorSsz (fun _ => "") _ anchorGenesis = .ok () by
        decide +kernel) FileStore.fresh
  exact ⟨store', forkChoice, hstart, by decide +kernel, hstands.mpr (by decide +kernel)⟩

/-- The second block carries a vote of two of the three validators. -/
def votedPlan : List PlannedBlock := [⟨1, []⟩, ⟨2, [⟨0, 1, voters 3 3#8⟩]⟩]

/-- The next block on top of a plan. -/
def plannedChild (plan : List PlannedBlock) (slot : Nat) : SignedBlockWithAttestation :=
  PlannedBlock.build anchorSsz ⟨slot, []⟩ (plannedEnd plan).2

/-- **A node that starts from a state whose last block carries a vote does not stand on that block.**
The state is accepted, but the next block of the chain is refused. -/
theorem anchor_beside_block :
    ∃ store' forkChoice post,
      Chain anchorSsz noopSignatureVerifier anchorGenesis
        ((plannedBlocks votedPlan).dropLast ++ [plannedLast votedPlan]) (plannedEnd votedPlan).1
        (plannedEnd votedPlan).2 ∧
      plannedStart votedPlan = .ok (store', (plannedEnd votedPlan).2, forkChoice) ∧
      (plannedChild votedPlan 3).message.block.parentRoot =
        (plannedLast votedPlan).message.block.hashTreeRoot anchorSsz ∧
      processSignedBlock anchorSsz noopSignatureVerifier (plannedChild votedPlan 3)
        (plannedEnd votedPlan).2 = .ok () post ∧
      store'.replaySignedBlockFromParent anchorSsz noopSignatureVerifier
        (plannedChild votedPlan 3) = .error (.err "parent state root missing in store") ∧
      ¬ StandsOn anchorSsz noopSignatureVerifier
        ((plannedLast votedPlan).message.block.hashTreeRoot anchorSsz) (plannedEnd votedPlan).2
        store' forkChoice := by
  obtain ⟨⟨store', state, forkChoice⟩, hstart⟩ := Option.isSome_iff_exists.mp
    (by decide +kernel : (plannedStart votedPlan).toOption.isSome = true)
  have hstate : (plannedStart votedPlan).toOption.map (·.2.1) = some (plannedEnd votedPlan).2 := by
    decide +kernel
  have hmissing : (plannedStart votedPlan).toOption.map (fun started =>
      (started.1.loadStateByBlockRoot
        ((plannedLast votedPlan).message.block.hashTreeRoot anchorSsz)).isNone) = some true := by
    decide +kernel
  have hparent : (plannedChild votedPlan 3).message.block.parentRoot =
      (plannedLast votedPlan).message.block.hashTreeRoot anchorSsz := by
    decide +kernel
  obtain ⟨post, hpost⟩ := Option.isSome_iff_exists.mp
    (by decide +kernel : ((processSignedBlock anchorSsz noopSignatureVerifier
      (plannedChild votedPlan 3)).after (plannedEnd votedPlan).2).isSome = true)
  rw [hstart, Option.map_some, Option.some_inj] at hstate hmissing
  have hnone := Option.isNone_iff_eq_none.mp hmissing
  dsimp only at hstate hnone
  rw [hstate] at hstart
  have hchain := @plannedEnd_chain votedPlan (by decide +kernel) (by decide +kernel)
  refine ⟨store', forkChoice, post, hchain, ?_, hparent, Mutation.after_eq_some.mp hpost, ?_, ?_⟩
  · cases hrun : plannedStart votedPlan with
    | error e =>
      rw [hrun] at hstart
      cases hstart
    | ok started =>
      rw [hrun] at hstart
      exact congrArg Except.ok (Option.some_inj.mp hstart)
  · rw [FileStore.replaySignedBlockFromParent, hparent, hnone]
  · intro stands
    have hfound := stands.stateStored
    rw [hnone] at hfound
    cases hfound

end Peam
