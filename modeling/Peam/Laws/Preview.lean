import Peam.Laws.CheckpointSync
import Peam.Laws.Duties
import Peam.Laws.Gossip
import Peam.Laws.Production

/-!
# What a proposer attests to

`preview_proposer_attestation_data` imports the new block into a copy of the fork choice, without
the proposer's vote, and reads three checkpoints off the copy. Over a genesis anchor the copy keeps
what every valid import keeps (`Respecting`), and its checkpoints have the slots of the blocks they
name (`Exact`). So the checks that gossip makes of a proposer's attestation all pass
(`preview_passesGossip`).

The block is not signed yet when it is previewed; `vouched` adds signatures that `validate_basic`
takes, and `SameBlocks` exchanges one for the other.
-/

namespace Peam

open Forests
open Calls (Outcome)

variable {ssz : Ssz} {verifier : SignatureVerifier} {genesis : State} {genesisTime : Nat}
  {validators : Validators} {headers : List BlockHeader}
  {rank : Bytes32 → Nat} {top : Bytes32} {store store' next : ForkChoiceStore} {anchorSlot : Nat}
  {state post : State} {moved : Prop} {slot : Nat} {order : List Attestation → List Attestation}

/-! ## Signatures do not matter -/

private theorem processSignedBlock_noop {signed : SignedBlockWithAttestation}
    (h : processSignedBlock ssz verifier signed state = .ok () post) :
    processSignedBlock ssz noopSignatureVerifier signed state = .ok () post := by
  obtain ⟨hbasic, -, htransition⟩ := processSignedBlock_iff.mp h
  exact processSignedBlock_iff.mpr ⟨hbasic, rfl, htransition⟩

private theorem Step.Valid.noop {step : Step} (valid : step.Valid ssz verifier) :
    step.Valid ssz noopSignatureVerifier := by
  unfold Step.Valid at valid ⊢
  split at valid
  · obtain ⟨parentState, hparent, himport⟩ := valid
    exact ⟨parentState, hparent, processSignedBlock_noop himport⟩
  · trivial

/-- The block with a proof for each of its attestations. -/
def vouched (ssz : Ssz) (block : Block) : SignedBlockWithAttestation where
  message := (selfVoting ssz block).message
  signature := (signedBlock block).signature

private theorem vouched_imports {block : Block}
    (h : stateTransitionInner ssz block state = .ok () post) :
    processSignedBlock ssz noopSignatureVerifier (vouched ssz block) state = .ok () post := by
  refine processSignedBlock_iff.mpr ⟨(validateBasic_ok _).mpr ⟨⟨rfl, ?_⟩, ?_, ?_⟩, rfl, h⟩
  · exact singleSetBit_singleBit block.proposerIndex
  · exact (List.length_map ..).symm
  · intro pair hpair
    obtain ⟨i, hi, rfl⟩ := List.mem_iff_getElem.mp hpair
    simp only [vouched, signedBlock, List.getElem_zip, List.getElem_map]
    exact ⟨rfl, trivial⟩

/-- Two stores of the same states and links, whose blocks differ at most in signatures. -/
structure SameBlocks (store store' : ForkChoiceStore) : Prop where
  blocks : ∀ root, (store'.blocks.lookup root).map (·.message.block) =
    (store.blocks.lookup root).map (·.message.block)
  states : store'.states = store.states
  parents : store'.parents = store.parents

namespace SameBlocks

section

variable (same : SameBlocks store store')

include same

private theorem mem_iff (root : Bytes32) :
    root ∈ store'.blocks ↔ root ∈ store.blocks := by
  have hblock := congrArg Option.isSome (same.blocks root)
  rw [Option.isSome_map, Option.isSome_map] at hblock
  rw [← AList.lookup_isSome, ← AList.lookup_isSome, hblock]

private theorem slotOf_eq : store'.slotOf = store.slotOf := by
  funext root
  have hslot := congrArg (Option.map (·.slot)) (same.blocks root)
  rw [Option.map_map, Option.map_map] at hslot
  exact congrArg (·.getD 0) hslot

private theorem storedParent_eq :
    store'.storedParent = store.storedParent := by
  funext root
  apply Option.ext
  intro parent
  rw [ForkChoiceStore.storedParent_eq_some, ForkChoiceStore.storedParent_eq_some, same.parents,
    same.mem_iff]

private theorem planted
    (planted : Planted ssz verifier genesis headers top store) :
    Planted ssz verifier genesis headers top store' := by
  have hlookup : ∀ {root signed}, store'.blocks.lookup root = some signed →
      ∃ old, store.blocks.lookup root = some old ∧ old.message.block = signed.message.block := by
    intro root signed h
    have hblock := same.blocks root
    rw [h, Option.map_some, eq_comm] at hblock
    exact Option.map_eq_some_iff.mp hblock
  constructor
  case named =>
    intro root signed h
    obtain ⟨old, hold, heq⟩ := hlookup h
    rw [← heq]
    exact planted.named hold
  case linked =>
    intro root signed h hne
    obtain ⟨old, hold, heq⟩ := hlookup h
    rw [same.parents, ← heq]
    exact planted.linked hold hne
  case stored => exact (same.mem_iff top).mpr planted.stored
  case below =>
    intro root hroot
    rw [same.storedParent_eq]
    exact planted.below ((same.mem_iff root).mp hroot)
  case falls =>
    rw [same.storedParent_eq, same.slotOf_eq]
    exact planted.falls
  case chained =>
    rw [same.states]
    exact planted.chained
  case slotted =>
    rw [same.states, same.slotOf_eq]
    exact planted.slotted
  case ancestors =>
    rw [same.states, same.storedParent_eq, same.slotOf_eq]
    exact planted.ancestors

private theorem held {checkpoint : Checkpoint}
    (held : Held anchorSlot top store checkpoint) : Held anchorSlot top store' checkpoint := by
  refine ⟨(same.mem_iff _).mpr held.stored, ?_⟩
  rw [same.slotOf_eq]
  exact held.slot

end

end SameBlocks

/-! ## Checkpoints of their own slots -/

/-- Both checkpoints have the slots of the blocks they name. -/
structure Exact (store : ForkChoiceStore) : Prop where
  justified : store.slotOf store.latestJustified.root = store.latestJustified.slot
  finalized : store.slotOf store.latestFinalized.root = store.latestFinalized.slot

private theorem slotOf_higher {old new : Checkpoint} (kept : store.slotOf old.root = old.slot)
    (moved : new.slot > old.slot → store.slotOf new.root = new.slot) :
    store.slotOf (higher old new).root = (higher old new).slot := by
  unfold higher
  split
  · rename_i hmoves
    exact moved hmoves
  · exact kept

variable {adopted : ForkChoiceStore}

private theorem Exact.settled (exact : Exact adopted)
    (settled : Settled moved adopted next) : Exact next := by
  cases settled with
  | kept stays hkept =>
    constructor
    · rw [hkept.justified, hkept.tree.slotOf_eq]
      exact exact.justified
    · rw [hkept.finalized, hkept.tree.slotOf_eq]
      exact exact.finalized
  | pruned moves stored hpruned =>
    have hslots : ∀ {root}, root ∈ next.nodeIndices → next.slotOf root = adopted.slotOf root :=
      fun hroot => slotOf_congr (hpruned.trimmed.blocks hroot)
    have hfinalized : next.slotOf adopted.latestFinalized.root = adopted.latestFinalized.slot := by
      rw [hslots (hpruned.trimmed.kept.mpr ⟨stored, .refl _ _⟩)]
      exact exact.finalized
    constructor
    · rw [hpruned.justified]
      split
      · rename_i hmem
        rw [hslots hmem]
        exact exact.justified
      · exact hfinalized
    · rw [hpruned.finalized]
      exact hfinalized

section Import

variable {signed : SignedBlockWithAttestation} {parentState postState : State} {proposer : Bool}
  {adopted : ForkChoiceStore}

/-- What the first stage of an import leaves of the checkpoints. -/
structure Adjusted (top : Bytes32) (store adopted : ForkChoiceStore) (postState : State) :
    Prop where
  justified : Held 0 top adopted adopted.latestJustified
  finalized : Held 0 top adopted adopted.latestFinalized
  slot : postState.latestFinalized.slot > store.latestFinalized.slot →
    adopted.slotOf postState.latestFinalized.root = postState.latestFinalized.slot
  topSlot : adopted.slotOf top = store.slotOf top
  exact : Exact adopted

section

variable (inv : Respecting ssz verifier (generateGenesis ssz genesisTime validators) headers rank 0
  store)

include inv

private theorem Respecting.adjusted (exact : Exact store) (fix : CollisionFree ssz headers)
    (imp : Planted.Import ssz verifier headers store signed parentState postState)
    (adopts : Adopted ssz signed postState proposer store adopted)
    (planted : Planted ssz verifier (generateGenesis ssz genesisTime validators) headers
      store.latestFinalized.root adopted) :
    Adjusted store.latestFinalized.root store adopted postState := by
  have hslots : ∀ {root}, root ∈ store.blocks → adopted.slotOf root = store.slotOf root :=
    fun hroot => inv.planted.slotOf_adopted fix imp adopts hroot
  obtain ⟨blocks, history, hchain, hself⟩ :=
    planted.chained (by rw [adopts.states, AList.lookup_insert])
  obtain ⟨hjentry, hfentry⟩ := hchain.checkpoints_inHistory hself
  obtain ⟨hjustified, hjslot⟩ := Held.adopt inv.planted fix imp adopts planted inv.justified
    hjentry fun _ => Nat.zero_le _
  obtain ⟨hfinalized, hfslot⟩ := Held.adopt inv.planted fix imp adopts planted inv.finalized
    hfentry fun _ => Nat.zero_le _
  refine ⟨adopts.justified ▸ hjustified, adopts.finalized ▸ hfinalized, hfslot,
    hslots inv.planted.stored, ?_, ?_⟩
  · rw [adopts.justified]
    exact slotOf_higher ((hslots inv.justified.stored).trans exact.justified) hjslot
  · rw [adopts.finalized]
    exact slotOf_higher ((hslots inv.finalized.stored).trans exact.finalized) hfslot

private theorem Exact.handle {event : Event} (exact : Exact store) (fix : CollisionFree ssz headers)
    (sound : Sound ssz headers rank ⟨store, event⟩)
    (valid : Step.Valid ssz verifier ⟨store, event⟩)
    (handled : store.handle ssz event = some next) : Exact next := by
  obtain ⟨next', hhandled, -, -, hgrows⟩ :=
    inv.planted.handle inv.consistent inv.headed fix sound valid
  obtain rfl : next = next' := Option.some_inj.mp (handled.symm.trans hhandled)
  cases hgrows with
  | revoted hrevoted =>
    constructor
    · rw [hrevoted.justified, hrevoted.tree.slotOf_eq]
      exact exact.justified
    · rw [hrevoted.finalized, hrevoted.tree.slotOf_eq]
      exact exact.finalized
  | imported imp hadopts hplanted hconsistent hsettled =>
    exact (inv.adjusted exact fix imp hadopts hplanted).exact.settled hsettled

end

end Import

/-! ## The preview -/

section Preview

variable {block : Block} {parentState postState : State}

/-- The store with proofs to its new block. -/
def withVouched (ssz : Ssz) (block : Block) (store adopted : ForkChoiceStore) : ForkChoiceStore :=
  { adopted with blocks := store.blocks.insert (block.hashTreeRoot ssz) (vouched ssz block) }

private theorem Adopted.sameBlocks {proposer : Bool}
    (adopts : Adopted ssz (selfVoting ssz block) postState proposer store adopted) :
    SameBlocks (withVouched ssz block store adopted) adopted := by
  have hblocks : adopted.blocks =
      store.blocks.insert (block.hashTreeRoot ssz) (selfVoting ssz block) := adopts.blocks
  have hvouched : (withVouched ssz block store adopted).blocks =
      store.blocks.insert (block.hashTreeRoot ssz) (vouched ssz block) := rfl
  refine ⟨fun root => ?_, rfl, rfl⟩
  rw [hblocks, hvouched, lookup_insert_eq, lookup_insert_eq]
  split <;> rfl

private theorem Adopted.withVouched {proposer : Bool}
    (adopts : Adopted ssz (selfVoting ssz block) postState proposer store adopted) :
    Adopted ssz (vouched ssz block) postState proposer store
      (Peam.withVouched ssz block store adopted) := by
  refine ⟨rfl, adopts.states, adopts.parents, adopts.justified, adopts.finalized, ?_,
    adopts.newVotes⟩
  have hstage : stageVote adopted = stageVote (Peam.withVouched ssz block store adopted) := by
    funext votes attestation
    exact if_congr (adopts.sameBlocks.mem_iff _) rfl rfl
  rw [← hstage]
  exact adopts.votes

private theorem slotOf_le_settled (skeleton : Skeleton rank next)
    (le : ∀ root ∈ adopted.blocks, adopted.slotOf root ≤ slot)
    (settled : Settled moved adopted next) : ∀ root ∈ next.blocks, next.slotOf root ≤ slot := by
  intro root hroot
  cases settled with
  | kept stays hkept =>
    rw [hkept.tree.slotOf_eq]
    exact le root (hkept.tree.blocks ▸ hroot)
  | pruned moves stored hpruned =>
    have hmem := skeleton.stored.mp hroot
    rw [slotOf_congr (hpruned.trimmed.blocks hmem)]
    exact le root (hpruned.trimmed.kept.mp hmem).1

/-- **The preview of a valid block returns a store in order**, in which no block is above it. -/
theorem Respecting.preview
    (inv : Respecting ssz noopSignatureVerifier (generateGenesis ssz genesisTime validators)
      headers rank 0 store) (exact : Exact store) (fix : CollisionFree ssz headers)
    (sound : Sound ssz headers rank ⟨store, .block (selfVoting ssz block) postState⟩)
    (parent : store.states.lookup block.parentRoot = some parentState)
    (transition : stateTransitionInner ssz block parentState = .ok () postState)
    (matching : ForkChoiceStore.stateMatchesBlockRoot ssz postState block.stateRoot = true)
    (newest : ∀ root ∈ store.blocks, store.slotOf root < block.slot) :
    ∃ preview, store.importMatching ssz (selfVoting ssz block) postState false = some preview ∧
      Respecting ssz noopSignatureVerifier (generateGenesis ssz genesisTime validators) headers
        rank 0 preview ∧
      Exact preview ∧ ∀ root ∈ preview.blocks, preview.slotOf root ≤ block.slot := by
  have henters : Step.enters ssz ⟨store, .block (selfVoting ssz block) postState⟩ =
      some (selfVoting ssz block) := if_pos matching
  have hheaders : Step.headers ssz ⟨store, .block (selfVoting ssz block) postState⟩ =
      [block.header ssz,
        (processSlotLoop ssz (block.slot - parentState.slot) parentState).latestBlockHeader] := by
    rw [Step.headers, henters]
    show _ :: ((store.states.lookup block.parentRoot).map _).toList = _
    rw [parent]
    rfl
  have hsub := sound.headers
  rw [hheaders] at hsub
  have imp : Planted.Import ssz noopSignatureVerifier headers store (vouched ssz block)
      parentState postState :=
    ⟨parent, vouched_imports transition, sound.noSelf (selfVoting ssz block) henters,
      hsub List.mem_cons_self, hsub (List.mem_cons_of_mem _ List.mem_cons_self)⟩
  have hskeleton := inv.consistent.skeleton
  have hlink := inv.planted.link fix hskeleton imp
  obtain ⟨adopted, preview, hpreview, hadopts, hconsistent, hsettled, hconsistent', hheaded⟩ :=
    import_spec inv.consistent (sound.nonzero _ henters) (fun _ => sound.falls _ henters) hlink
      postState false inv.headed
  -- the tree of the copy, seen with proofs to the new block
  have hsame := hadopts.sameBlocks
  have hvouched := hadopts.withVouched
  have hskeleton' : Skeleton rank (withVouched ssz block store adopted) :=
    { hconsistent.skeleton with
      stored := (hsame.mem_iff _).symm.trans hconsistent.skeleton.stored }
  have hplanted := inv.planted.enter fix hskeleton imp hvouched hskeleton'
  have hadjusted := inv.adjusted exact fix imp hvouched hplanted
  have hexact : Exact adopted := by
    constructor
    · rw [hsame.slotOf_eq]
      exact hadjusted.exact.justified
    · rw [hsame.slotOf_eq]
      exact hadjusted.exact.finalized
  have hle : ∀ root ∈ adopted.blocks, adopted.slotOf root ≤ block.slot := by
    intro root hroot
    rw [hsame.slotOf_eq]
    rcases (AList.mem_insert _).mp ((hsame.mem_iff root).mp hroot) with rfl | hold
    · exact (Planted.slotOf_root hvouched).le
    · rw [inv.planted.slotOf_adopted fix imp hvouched hold]
      exact (newest root hold).le
  refine ⟨preview, hpreview, ?_, hexact.settled hsettled,
    slotOf_le_settled hconsistent'.skeleton hle hsettled⟩
  refine inv.imported hadopts (hsame.planted hplanted) ?_ (hsame.held hadjusted.justified)
    (hsame.held hadjusted.finalized) ?_ (fun _ => Nat.zero_le _) hsettled hconsistent' hheaded
  · rw [hsame.slotOf_eq]
    exact hadjusted.topSlot
  · rw [hsame.slotOf_eq]
    exact hadjusted.slot

private theorem Respecting.slots
    (inv : Respecting ssz verifier genesis headers rank anchorSlot store)
    (exact : Exact store) (le : ∀ root ∈ store.blocks, store.slotOf root ≤ slot) :
    store.checkpointForRoot store.head = some ⟨store.head, store.headSlot⟩ ∧
      store.headSlot ≤ slot ∧ store.latestJustified.slot ≤ store.headSlot ∧
      ∃ target, store.attestationTarget store.latestFinalized.slot = some target ∧
        (target.getD store.latestJustified).slot ≤ store.headSlot := by
  have hhead : store.checkpointForRoot store.head = some ⟨store.head, store.headSlot⟩ :=
    checkpointForRoot_eq_some.mpr ⟨rfl, inv.headed.slot⟩
  have hslot : store.slotOf store.head = store.headSlot := slotOf_of_checkpointForRoot hhead
  have habove : ∀ {root}, Climbs store.storedParent store.head root →
      store.slotOf root ≤ store.headSlot :=
    fun hclimbs => hslot ▸ hclimbs.rank_le inv.planted.falls
  have hjustified : store.latestJustified.slot ≤ store.headSlot :=
    exact.justified ▸ habove inv.respectsFinality.belowJustified
  obtain ⟨target, htarget, hspec⟩ :=
    attestationTarget_spec inv.consistent.skeleton store.latestFinalized.slot
  refine ⟨hhead, hslot ▸ le _ inv.headed.stored, hjustified, target, htarget, ?_⟩
  cases target with
  | none => exact hjustified
  | some target =>
    rcases hspec target rfl with rfl | ⟨hstored, hback⟩
    · exact hjustified
    · exact slotOf_of_checkpointForRoot hstored ▸ habove hback

private theorem importPreview_eq {preview : ForkChoiceStore}
    (index : block.proposerIndex < validatorRegistryLimit)
    (matching : ForkChoiceStore.stateMatchesBlockRoot ssz postState block.stateRoot = true)
    (imported : store.importMatching ssz (selfVoting ssz block) postState false = some preview) :
    (forkChoiceApi ssz order).importPreview store block postState = .ok preview := by
  refine Outcome.bind_ok.mpr ⟨selfVoting ssz block,
    Outcome.bind_ok.mpr ⟨(), Outcome.failIf_ok.mpr (Nat.not_le.mpr index), rfl⟩, ?_⟩
  have himport : store.importBlockInternal ssz (selfVoting ssz block) postState false =
      (store.importMatching ssz (selfVoting ssz block) postState false).map .ok := if_pos matching
  rw [himport, imported]
  rfl

private theorem preview_inOrder {preview : ForkChoiceStore}
    (imported : (forkChoiceApi ssz order).importPreview store block postState = .ok preview)
    (inv : Respecting ssz verifier genesis headers rank anchorSlot preview)
    (exact : Exact preview) (le : ∀ root ∈ preview.blocks, preview.slotOf root ≤ block.slot) :
    ∃ data, previewProposerAttestationData ssz (forkChoiceApi ssz order) store block postState =
      .ok data ∧ SlotsInOrder block.slot data := by
  obtain ⟨hhead, hheadSlot, hjustified, target, htarget, htargetSlot⟩ := inv.slots exact le
  let chosen : Checkpoint :=
    if (target.getD preview.latestJustified).slot < preview.latestJustified.slot then
      preview.latestJustified
    else target.getD preview.latestJustified
  have hchosen : preview.latestJustified.slot ≤ chosen.slot ∧ chosen.slot ≤ preview.headSlot := by
    unfold chosen
    split
    · exact ⟨le_refl _, hjustified⟩
    · rename_i hnot
      exact ⟨Nat.not_lt.mp hnot, htargetSlot⟩
  refine ⟨⟨block.slot, ⟨preview.head, preview.headSlot⟩, chosen, preview.latestJustified⟩,
    Outcome.bind_ok.mpr ⟨preview, imported, ?_⟩, hchosen.1, hchosen.2, hheadSlot, rfl⟩
  -- the target is not above the head, so not above the block
  have hnot : ¬ chosen.slot > block.slot := Nat.not_lt.mpr (hchosen.2.trans hheadSlot)
  simp only [forkChoiceApi, htarget, hhead, Option.join_some, Option.getD_some]
  rw [if_neg hnot]
  rfl

end Preview

section Runs

variable {anchor : SignedBlockWithAttestation} {first : ForkChoiceStore} {steps : List Step}

section

variable (accepted :
  ForkChoiceStore.new ssz anchor (generateGenesis ssz genesisTime validators) = .ok first)

include accepted

private theorem Exact.of_new (slot : anchor.message.block.slot = 0) : Exact first := by
  have heq := new_eq accepted
  have hblocks : first.blocks = AList.insert (anchor.message.block.hashTreeRoot ssz) anchor ∅ := by
    rw [heq]
    rfl
  have hslot : first.slotOf (anchor.message.block.hashTreeRoot ssz) = 0 := by
    rw [slotOf_eq (by rw [hblocks, AList.lookup_insert]), slot]
  constructor
  · have hjustified : first.latestJustified =
        ⟨anchor.message.block.hashTreeRoot ssz, 0⟩ := by
      rw [heq]
      rfl
    rw [hjustified]
    exact hslot
  · have hfinalized : first.latestFinalized =
        ⟨anchor.message.block.hashTreeRoot ssz, 0⟩ := by
      rw [heq]
      rfl
    rw [hfinalized]
    exact hslot

/-- A valid run over genesis leaves a store in order, with checkpoints of their own slots. -/
theorem Run.exact
    (genesisSlot : anchor.message.block.slot = 0) (run : Run ssz first steps store)
    (fix : CollisionFree ssz headers) (header : anchor.message.block.header ssz ∈ headers)
    (nonzero : anchor.message.block.hashTreeRoot ssz ≠ Bytes32.zero)
    (falls : rank anchor.message.block.parentRoot < rank (anchor.message.block.hashTreeRoot ssz))
    (valid : ∀ step ∈ steps, Sound ssz headers rank step ∧ step.Valid ssz verifier) :
    Respecting ssz verifier (generateGenesis ssz genesisTime validators) headers rank 0 store ∧
      Exact store := by
  have hstart : Respecting ssz verifier (generateGenesis ssz genesisTime validators) headers rank
      anchor.message.block.slot first :=
    .of_new accepted fix header nonzero falls .genesis fun _ h => (List.not_mem_nil h).elim
  rw [genesisSlot] at hstart
  refine Run.invariant (fun store => Respecting ssz verifier
      (generateGenesis ssz genesisTime validators) headers rank 0 store ∧ Exact store)
    (fun step => Sound ssz headers rank step ∧ step.Valid ssz verifier) run
    ⟨hstart, .of_new accepted genesisSlot⟩ ?_ valid
  rintro before event after ⟨hinv, hexact⟩ ⟨hsound, hvalid⟩ handled
  exact ⟨hinv.handle fix hsound hvalid (Step.adoptsFrom_zero _) handled,
    hexact.handle hinv fix hsound hvalid handled⟩

/-- **A proposer's attestation passes the checks of gossip.** Over a genesis anchor, valid imports
and any votes, the preview of a valid block above every stored one returns data whose slots are in
order up to the block's, and a block that carries it fails neither pass for its sake. -/
theorem preview_passesGossip {block : Block} {parentState postState : State}
    (genesisSlot : anchor.message.block.slot = 0) (run : Run ssz first steps store)
    (valid : ∀ step ∈ steps, step.Valid ssz verifier)
    (parent : store.states.lookup block.parentRoot = some parentState)
    (transition : stateTransitionInner ssz block parentState = .ok () postState)
    (newest : ∀ root ∈ store.blocks, store.slotOf root < block.slot)
    (sound : SoundRun ssz anchor (steps ++ [⟨store, .block (selfVoting ssz block) postState⟩]))
    (noSelf : NoSelfReference ssz (List.filterMap (·.enters ssz)
      (steps ++ [⟨store, .block (selfVoting ssz block) postState⟩])))
    (order : List Attestation → List Attestation) :
    ∃ data, previewProposerAttestationData ssz (forkChoiceApi ssz order) store block postState =
        .ok data ∧
      SlotsInOrder block.slot data ∧
      ∀ signed : SignedBlockWithAttestation, signed.message.block = block →
        signed.message.proposerAttestation.data = data → ProposerPasses signed := by
  obtain ⟨rank, hanchor, hsound⟩ := sound.exists_rank noSelf
  obtain ⟨hinv, hexact⟩ := run.exact accepted genesisSlot sound.collisionFree List.mem_cons_self
    (sound.nonzero _ List.mem_cons_self) hanchor
    fun step h => ⟨hsound step (List.mem_append_left _ h), (valid step h).noop⟩
  have hmatch : ForkChoiceStore.stateMatchesBlockRoot ssz postState block.stateRoot = true := by
    rw [ForkChoiceStore.stateMatchesBlockRoot, (stateTransitionInner_header transition).2]
    simp [Block.header]
  obtain ⟨preview, himport, hinv', hexact', hle⟩ := hinv.preview hexact sound.collisionFree
    (hsound _ (List.mem_append_right _ List.mem_cons_self)) parent transition hmatch newest
  obtain ⟨data, hdata, horder⟩ := preview_inOrder
    (importPreview_eq (stateTransitionInner_bounds transition).2 hmatch himport) hinv' hexact' hle
  refine ⟨data, hdata, horder, ?_⟩
  rintro signed rfl rfl
  exact horder.proposerPasses

end

/-- The first three blocks of the finalizing plan. -/
def previewedRun : List Step × ForkChoiceStore :=
  (play anchorSsz (anchoredStore anchorGenesis)
    ((plannedEvents finalizingPlan anchorGenesis).take 3)).getD ([], anchoredStore anchorGenesis)

/-- The fourth, which finalizes the second, and the state it leads to. -/
def previewedBlock : Block × State :=
  match (plannedEvents finalizingPlan anchorGenesis).getD 3 .accept with
  | .block signed postState => (signed.message.block, postState)
  | _ => ((anchorOf anchorGenesis).message.block, anchorGenesis)

private theorem transition_of_isValid {block : Block} {postState : State}
    (h : Step.isValid ssz noopSignatureVerifier ⟨store, .block (vouched ssz block) postState⟩ =
      true) :
    ∃ parentState, store.states.lookup block.parentRoot = some parentState ∧
      stateTransitionInner ssz block parentState = .ok () postState := by
  obtain ⟨parentState, hparent, himport⟩ := Step.valid_of_isValid h
  exact ⟨parentState, hparent, processSignedBlock_transition himport⟩

private theorem slotOf_lt_of_entries
    (h : ∀ entry ∈ store.blocks.entries, entry.2.message.block.slot < slot) :
    ∀ root ∈ store.blocks, store.slotOf root < slot := by
  intro root hroot
  obtain ⟨signed, hsigned⟩ := exists_lookup hroot
  rw [slotOf_eq hsigned]
  exact h ⟨root, signed⟩ (AList.mem_lookup_iff.mp hsigned)

/-- The law at a block that finalizes slot 2. -/
theorem preview_passesGossip_finalizing :
    previewedRun.2.latestFinalized.slot = 1 ∧ previewedBlock.2.latestFinalized.slot = 2 ∧
      ∃ data, previewProposerAttestationData anchorSsz (forkChoiceApi anchorSsz id)
          previewedRun.2 previewedBlock.1 previewedBlock.2 = .ok data ∧
        SlotsInOrder previewedBlock.1.slot data := by
  have hrun : Run anchorSsz (anchoredStore anchorGenesis) previewedRun.1 previewedRun.2 :=
    Run.of_play (by decide +kernel)
  have hfalls : ∀ link ∈ linksOf anchorSsz (blocksOf anchorSsz (anchorOf anchorGenesis)
      (previewedRun.1 ++
        [⟨previewedRun.2, .block (selfVoting anchorSsz previewedBlock.1) previewedBlock.2⟩])),
      placeIn (anchoredRoots finalizingPlan anchorGenesis) link.2 <
        placeIn (anchoredRoots finalizingPlan anchorGenesis) link.1 := by
    decide +kernel
  have hsound : SoundRun anchorSsz (anchorOf anchorGenesis) (previewedRun.1 ++
      [⟨previewedRun.2, .block (selfVoting anchorSsz previewedBlock.1) previewedBlock.2⟩]) :=
    ⟨acyclic_of_rank hfalls, by decide +kernel, by decide +kernel⟩
  have hvalid : ∀ step ∈ previewedRun.1, step.isValid anchorSsz noopSignatureVerifier = true := by
    decide +kernel
  have hnewest := slotOf_lt_of_entries (by decide +kernel :
    ∀ entry ∈ previewedRun.2.blocks.entries, entry.2.message.block.slot < previewedBlock.1.slot)
  obtain ⟨parentState, hparent, htransition⟩ := transition_of_isValid (by decide +kernel :
    Step.isValid anchorSsz noopSignatureVerifier
      ⟨previewedRun.2, .block (vouched anchorSsz previewedBlock.1) previewedBlock.2⟩ = true)
  obtain ⟨data, hdata, horder, -⟩ := preview_passesGossip (new_anchoredStore (by decide +kernel))
    (by decide +kernel) hrun (fun step h => Step.valid_of_isValid (hvalid step h)) hparent
    htransition hnewest hsound (by decide +kernel) id
  exact ⟨by decide +kernel, by decide +kernel, data, hdata, horder⟩

end Runs

end Peam
