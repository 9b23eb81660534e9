import Peam.Sample
import Peam.Laws.Ancestry
import Peam.Laws.ForkImport

/-!
# Runs of the fork choice are LMD-GHOST

A run starts from `ForkChoiceStore::new` and makes calls in any order: children before parents,
blocks twice, votes early or late. At every point the weights are counted over the stored links and
active votes, the best child is the heaviest one, and the head is the one a walk from the justified
root finds (`NaiveGhost`).

`Tracked` is the invariant: the store is consistent, and its parent links are those of the imported
blocks, except that the link of a block that history was pruned to is cut. Importing that block
again would write a link that the arena does not have; the runs considered do not.
-/

namespace Peam

open Forests
open ForkChoiceStore (stateMatchesBlockRoot)

variable {blocks' : List Block} {signed : SignedBlockWithAttestation}

/-! ## Runs -/

/-- A call and the store it is made on. -/
structure Step where
  before : ForkChoiceStore
  event : Event

section Steps

variable (ssz : Ssz)

/-- The block a step brings into the tree. -/
def Step.enters (step : Step) : Option SignedBlockWithAttestation :=
  match step.event with
  | .block signed postState =>
    if stateMatchesBlockRoot ssz postState signed.message.block.stateRoot then some signed else none
  | _ => none

/-- The block a step prunes history to: finality moves, and to a block that is stored. -/
def Step.prunes (step : Step) : Option Bytes32 :=
  match step.event with
  | .block signed postState =>
    if stateMatchesBlockRoot ssz postState signed.message.block.stateRoot ∧
        postState.latestFinalized.slot > step.before.latestFinalized.slot ∧
        (postState.latestFinalized.root = signed.message.block.hashTreeRoot ssz ∨
          postState.latestFinalized.root ∈ step.before.blocks) then
      some postState.latestFinalized.root
    else none
  | _ => none

/-- The calls made from the first store on, and the store they lead to. -/
inductive Run (first : ForkChoiceStore) : List Step → ForkChoiceStore → Prop where
  | start : Run first [] first
  | step {steps : List Step} {store next : ForkChoiceStore} {event : Event}
      (run : Run first steps store) (handled : store.handle ssz event = some next) :
      Run first (steps ++ [⟨store, event⟩]) next

/-- The blocks of a run. -/
def blocksOf (anchor : SignedBlockWithAttestation) (steps : List Step) : List Block :=
  anchor.message.block :: (steps.filterMap (·.enters ssz)).map (·.message.block)

/-- The parent links of some blocks. -/
def linksOf (blocks : List Block) : List (Bytes32 × Bytes32) :=
  blocks.map fun block => (block.hashTreeRoot ssz, block.parentRoot)

/-- The parent links form no cycle and roots are free of collisions, with each other and with the
zero root that stands for no block. -/
structure SoundTree (blocks : List Block) : Prop where
  acyclic : ∀ root, ¬ Relation.TransGen (fun r q => (r, q) ∈ linksOf ssz blocks) root root
  collisionFree : CollisionFree ssz (blocks.map (·.header ssz))
  nonzero : ∀ block ∈ blocks, block.hashTreeRoot ssz ≠ Bytes32.zero

/-- No block that history was pruned to is imported again. -/
def PrunedOnce (steps : List Step) : Prop :=
  steps.Pairwise fun earlier later =>
    ∀ signed ∈ later.enters ssz, earlier.prunes ssz ≠ some (signed.message.block.hashTreeRoot ssz)

/-- The calls made one after the other, with the stores they met. -/
def play (store : ForkChoiceStore) : List Event → Option (List Step × ForkChoiceStore)
  | [] => some ([], store)
  | event :: events => do
    let next ← store.handle ssz event
    let (steps, final) ← play next events
    return (⟨store, event⟩ :: steps, final)

end Steps

variable {ssz : Ssz} {rank : Bytes32 → Nat} {first store next : ForkChoiceStore}
variable {steps : List Step} {blocks : List Block} {retired : Bytes32 → Prop}

private theorem Run.append {more : List Event} {steps' : List Step} {final : ForkChoiceStore}
    (run : Run ssz first steps store) (played : play ssz store more = some (steps', final)) :
    Run ssz first (steps ++ steps') final := by
  induction more generalizing steps steps' store with
  | nil =>
    cases played
    rw [List.append_nil]
    exact run
  | cons event events ih =>
    rw [play] at played
    obtain ⟨next, hnext, played⟩ := Option.bind_eq_some_iff.mp played
    obtain ⟨⟨rest, final'⟩, hrest, played⟩ := Option.bind_eq_some_iff.mp played
    cases played
    have hrun := ih (run.step hnext) hrest
    rw [List.append_assoc, List.singleton_append] at hrun
    exact hrun

/-- What is played from a store is a run. -/
theorem Run.of_play {events : List Event} (h : (play ssz first events).isSome = true) :
    Run ssz first ((play ssz first events).getD ([], first)).1
      ((play ssz first events).getD ([], first)).2 := by
  obtain ⟨reached, hreached⟩ := Option.isSome_iff_exists.mp h
  rw [hreached, Option.getD_some]
  exact Run.start.append hreached

/-! ## Naive LMD-GHOST -/

/-- The arena shows what a recount over the stored links and the active votes gives. -/
structure NaiveGhost (store : ForkChoiceStore) : Prop where
  nodes : ∀ root, root ∈ store.blocks ↔ ∃ node ∈ store.nodes, node.root = root
  weight : ∀ node ∈ store.nodes,
    node.weight = support store.storedParent store.activeVote node.root
  leaf : ∀ node ∈ store.nodes,
    node.bestChild = none ↔ ∀ child, store.storedParent child ≠ some node.root
  best : ∀ node ∈ store.nodes, ∀ c, node.bestChild = some c →
    ∃ child, store.nodes[c]? = some child ∧
      BestChild store.storedParent store.activeVote node.root child.root
  returns : ∃ head, store.findHead = some head
  head : store.latestJustified.root ∈ store.blocks → ∀ head, store.findHead = some head ↔
    GhostHead store.storedParent store.activeVote store.latestJustified.root head

/-- **A consistent store is a naive LMD-GHOST.** -/
theorem Consistent.naiveGhost (consistent : Consistent rank store) : NaiveGhost store where
  nodes := by
    intro root
    rw [consistent.skeleton.stored]
    constructor
    · intro hmem
      obtain ⟨i, _, hi⟩ := consistent.skeleton.rootAt_of_mem hmem
      obtain ⟨node, hnode, hroot⟩ := Option.map_eq_some_iff.mp hi
      exact ⟨node, List.mem_of_getElem? hnode, hroot⟩
    · rintro ⟨node, hnode, rfl⟩
      obtain ⟨i, hi⟩ := List.mem_iff_getElem?.mp hnode
      have hroot : rootAt store.nodes i = some node.root := by rw [rootAt, hi]; rfl
      exact mem_of_lookup (consistent.skeleton.index.mpr hroot)
  weight := by
    intro node hnode
    obtain ⟨i, hi⟩ := List.mem_iff_getElem?.mp hnode
    exact consistent.weight_eq hi
  leaf := by
    intro node hnode
    obtain ⟨i, hi⟩ := List.mem_iff_getElem?.mp hnode
    exact consistent.bestChild_none_iff hi
  best := by
    intro node hnode c hc
    obtain ⟨i, hi⟩ := List.mem_iff_getElem?.mp hnode
    obtain ⟨s, hs, _, hbest⟩ := consistent.bestChild_some hi hc
    obtain ⟨child, hchild, rfl⟩ := Option.map_eq_some_iff.mp hs
    exact ⟨child, hchild, hbest⟩
  returns := consistent.findHead_returns
  head := by
    intro hjustified head
    obtain ⟨found, hfound, hghost⟩ :=
      consistent.findHead_spec (consistent.skeleton.stored.mp hjustified)
    rw [hfound, Option.some_inj]
    constructor
    · rintro rfl
      exact hghost
    · exact hghost.unique

/-! ## One call -/

/-- A block import is the import proper, or nothing. -/
theorem handle_block (store : ForkChoiceStore) (signed : SignedBlockWithAttestation)
    (postState : State) :
    store.handle ssz (.block signed postState) =
      if stateMatchesBlockRoot ssz postState signed.message.block.stateRoot then
        store.importMatching ssz signed postState true
      else some store := by
  rw [ForkChoiceStore.handle, ForkChoiceStore.onBlock, ForkChoiceStore.importBlockInternal]
  split
  · rw [Option.map_map]
    exact Option.map_id'
  · rfl

/-- What holds along a run: the store is consistent and headed, and its links are the blocks',
except where history was cut. -/
structure Tracked (ssz : Ssz) (rank : Bytes32 → Nat) (blocks : List Block)
    (retired : Bytes32 → Prop) (store : ForkChoiceStore) : Prop where
  consistent : Consistent rank store
  headed : Headed store
  recorded : ∀ {r q}, store.parents.lookup r = some q → ¬ retired r →
    ∃ block ∈ blocks, block.hashTreeRoot ssz = r ∧ block.parentRoot = q

namespace Tracked

private theorem revoted (tracked : Tracked ssz rank blocks retired store)
    (consistent : Consistent rank next)
    (revoted : Revoted store next) : Tracked ssz rank blocks retired next where
  consistent := consistent
  headed := revoted.headed tracked.headed
  recorded := by
    intro r q
    rw [revoted.tree.parents]
    exact tracked.recorded

private theorem weaken {retired' : Bytes32 → Prop} (tracked : Tracked ssz rank blocks retired store)
    (more : ∀ block ∈ blocks, block ∈ blocks') (old : ∀ r, retired r → retired' r) :
    Tracked ssz rank blocks' retired' store where
  consistent := tracked.consistent
  headed := tracked.headed
  recorded := by
    intro r q hlink hnot
    obtain ⟨block, hblock, h⟩ := tracked.recorded hlink (hnot ∘ old r)
    exact ⟨block, more block hblock, h⟩

/-- What a block must bring to be imported into a tracked store. -/
structure Fits (ssz : Ssz) (rank : Bytes32 → Nat) (blocks : List Block)
    (retired : Bytes32 → Prop) (block : Block) : Prop where
  nonzero : block.hashTreeRoot ssz ≠ Bytes32.zero
  below : block.parentRoot ≠ Bytes32.zero → rank block.parentRoot < rank (block.hashTreeRoot ssz)
  fresh : ¬ retired (block.hashTreeRoot ssz)
  same : ∀ other ∈ blocks, other.hashTreeRoot ssz = block.hashTreeRoot ssz →
    other.parentRoot = block.parentRoot

section

variable (tracked : Tracked ssz rank blocks retired store)

include tracked

/-- The stored link of an imported block is its own. -/
theorem link {block : Block}
    (fits : Fits ssz rank blocks retired block)
    (stored : block.hashTreeRoot ssz ∈ store.nodeIndices) :
    store.parents.lookup (block.hashTreeRoot ssz) = some block.parentRoot := by
  obtain ⟨q, hq⟩ := exists_lookup (tracked.consistent.skeleton.parented.mpr stored)
  obtain ⟨other, hother, hroot, hparent⟩ := tracked.recorded hq fits.fresh
  rw [hq, ← hparent, fits.same other hother hroot]

/-- An import keeps the invariant; the block enters, and what history is pruned to retires. -/
theorem entered (fits : Fits ssz rank blocks retired signed.message.block) (postState : State) :
    ∃ next, store.importMatching ssz signed postState true = some next ∧
      Tracked ssz rank (blocks ++ [signed.message.block])
        (fun r => retired r ∨
          postState.latestFinalized.slot > store.latestFinalized.slot ∧
          r = postState.latestFinalized.root ∧
          (r = signed.message.block.hashTreeRoot ssz ∨ r ∈ store.blocks)) next := by
  obtain ⟨adopted, next, himport, hadopted, _, hsettled, hconsistent, hheaded⟩ :=
    import_spec tracked.consistent fits.nonzero fits.below (tracked.link fits) postState true
      tracked.headed
  refine ⟨next, himport, hconsistent, hheaded, ?_⟩
  -- the links of the adopted store are those of the blocks, the new one included
  have hrecorded : ∀ {r q}, adopted.parents.lookup r = some q → ¬ retired r →
      ∃ block ∈ blocks ++ [signed.message.block],
        block.hashTreeRoot ssz = r ∧ block.parentRoot = q := by
    intro r q hlink hnot
    rw [hadopted.parents] at hlink
    rcases lookup_insert_some.mp hlink with ⟨rfl, rfl⟩ | ⟨-, hlink⟩
    · exact ⟨signed.message.block, by simp, rfl, rfl⟩
    · obtain ⟨block, hblock, h⟩ := tracked.recorded hlink hnot
      exact ⟨block, List.mem_append_left _ hblock, h⟩
  intro r q hlink hnot
  cases hsettled with
  | kept _ hkept =>
    rw [hkept.tree.parents] at hlink
    exact hrecorded hlink (hnot ∘ .inl)
  | pruned hmoved hstored hpruned =>
    have hfinal : adopted.latestFinalized = postState.latestFinalized := by
      rw [hadopted.finalized, higher, if_pos hmoved]
    have hr : r ≠ adopted.latestFinalized.root := by
      rintro rfl
      rw [hfinal] at hnot hstored
      rw [hadopted.blocks, AList.mem_insert] at hstored
      exact hnot (.inr ⟨hmoved, rfl, hstored⟩)
    have hmem : r ∈ next.nodeIndices := hconsistent.skeleton.parented.mp (mem_of_lookup hlink)
    rw [hpruned.trimmed.parents hmem hr] at hlink
    exact hrecorded hlink (hnot ∘ .inl)

/-- Every call returns and keeps the invariant. -/
theorem handle (event : Event)
    (fits : ∀ signed ∈ Step.enters ssz ⟨store, event⟩,
      Fits ssz rank blocks retired signed.message.block) :
    ∃ next, store.handle ssz event = some next ∧
      Tracked ssz rank
        (blocks ++ ((Step.enters ssz ⟨store, event⟩).map (·.message.block)).toList)
        (fun r => retired r ∨ Step.prunes ssz ⟨store, event⟩ = some r) next := by
  have hquiet : ∀ {next}, Tracked ssz rank blocks retired next →
      Tracked ssz rank (blocks ++ ((Step.enters ssz ⟨store, event⟩).map (·.message.block)).toList)
        (fun r => retired r ∨ Step.prunes ssz ⟨store, event⟩ = some r) next :=
    fun h => h.weaken (fun _ => List.mem_append_left _) fun _ => .inl
  cases event with
  | block signed postState =>
    rw [handle_block]
    by_cases hmatch : stateMatchesBlockRoot ssz postState signed.message.block.stateRoot
    · have henters : Step.enters ssz ⟨store, .block signed postState⟩ = some signed :=
        if_pos hmatch
      obtain ⟨next, himport, htracked⟩ := tracked.entered (fits signed henters) postState
      rw [if_pos hmatch, henters]
      refine ⟨next, himport, htracked.weaken (fun _ => id) ?_⟩
      rintro r (hr | ⟨hmoved, hr, hstored⟩)
      · exact .inl hr
      · refine .inr ?_
        rw [hr] at hstored ⊢
        exact if_pos ⟨hmatch, hmoved, hstored⟩
    · rw [if_neg hmatch]
      exact ⟨store, rfl, hquiet tracked⟩
  | attestation attestation =>
    refine ⟨_, applyPending_eq store attestation, hquiet (tracked.revoted ?_ ?_)⟩
    · exact tracked.consistent.stage
        (tracked.consistent.knownVotes_stageVote tracked.consistent.newVotes attestation)
    · exact ⟨⟨rfl, rfl, rfl, rfl, rfl, .refl _⟩, rfl, rfl,
        fun h => h.congr rfl rfl rfl rfl rfl rfl⟩
  | accept =>
    obtain ⟨next, hnext, hconsistent, hrevoted, _⟩ := acceptNewVotes_spec tracked.consistent
    exact ⟨next, hnext, hquiet (tracked.revoted hconsistent hrevoted)⟩
  | propose =>
    obtain ⟨next, hnext, hconsistent, hrevoted, _⟩ := getProposalHead_spec tracked.consistent
    exact ⟨next, hnext, hquiet (tracked.revoted hconsistent hrevoted)⟩
  | proposeWith pendingVotes =>
    obtain ⟨next, hnext, hconsistent, hrevoted, _⟩ :=
      getProposalHeadWithPending_spec tracked.consistent pendingVotes
    exact ⟨next, hnext, hquiet (tracked.revoted hconsistent hrevoted)⟩

end

end Tracked

/-! ## Runs -/

section Runs

variable {anchor : SignedBlockWithAttestation} {anchorState : State}

private theorem blocksOf_concat (anchor : SignedBlockWithAttestation) (steps : List Step)
    (step : Step) : blocksOf ssz anchor (steps ++ [step]) =
      blocksOf ssz anchor steps ++ ((step.enters ssz).map (·.message.block)).toList := by
  rw [blocksOf, blocksOf, List.filterMap_append, List.map_append]
  cases henters : step.enters ssz <;> simp [henters]

theorem blocksOf_subset (anchor : SignedBlockWithAttestation) (steps : List Step) (step : Step) :
    ∀ block ∈ blocksOf ssz anchor steps, block ∈ blocksOf ssz anchor (steps ++ [step]) := by
  rw [blocksOf_concat]
  exact List.subset_append_left _ _

/-- The falling rank a sound tree has. -/
theorem SoundTree.exists_rank (sound : SoundTree ssz blocks) :
    ∃ rank : Bytes32 → Nat,
      ∀ block ∈ blocks, rank block.parentRoot < rank (block.hashTreeRoot ssz) := by
  obtain ⟨rank, hrank⟩ := Forests.exists_rank (linksOf ssz blocks) sound.acyclic
  exact ⟨rank, fun block hblock => hrank _ _ (List.mem_map.mpr ⟨block, hblock, rfl⟩)⟩

/-- What a step of a sound run brings fits the store before it. -/
theorem fits_of_sound {step : Step} (sound : SoundTree ssz (blocksOf ssz anchor (steps ++ [step])))
    (once : PrunedOnce ssz (steps ++ [step]))
    (falls : ∀ block ∈ blocksOf ssz anchor (steps ++ [step]),
      rank block.parentRoot < rank (block.hashTreeRoot ssz))
    (enters : step.enters ssz = some signed) : Tracked.Fits ssz rank (blocksOf ssz anchor steps)
      (fun r => ∃ earlier ∈ steps, earlier.prunes ssz = some r) signed.message.block := by
  have hmem : signed.message.block ∈ blocksOf ssz anchor (steps ++ [step]) := by
    rw [blocksOf_concat, enters]
    simp
  refine ⟨sound.nonzero _ hmem, fun _ => falls _ hmem, ?_, ?_⟩
  · rintro ⟨earlier, hearlier, hprunes⟩
    have hpair := (List.pairwise_append.mp once).2.2 earlier hearlier step (by simp)
    exact hpair signed enters hprunes
  · intro other hother hroot
    have hmem' : other ∈ blocksOf ssz anchor (steps ++ [step]) := by
      rw [blocksOf_concat]
      exact List.mem_append_left _ hother
    have hheader := sound.collisionFree (other.header ssz) (List.mem_map_of_mem hmem')
      (signed.message.block.header ssz) (List.mem_map_of_mem hmem) hroot
    exact congrArg BlockHeader.parentRoot hheader

/-- Fewer blocks are sound too. -/
theorem SoundTree.mono (sound : SoundTree ssz blocks') (sub : ∀ block ∈ blocks, block ∈ blocks') :
    SoundTree ssz blocks where
  acyclic := by
    intro root hcycle
    refine sound.acyclic root (Relation.TransGen.mono ?_ _ _ hcycle)
    intro r q hlink
    obtain ⟨block, hblock, h⟩ := List.mem_map.mp hlink
    exact List.mem_map.mpr ⟨block, sub block hblock, h⟩
  collisionFree header hheader other hother :=
    sound.collisionFree header (List.map_subset _ sub hheader) other (List.map_subset _ sub hother)
  nonzero block hblock := sound.nonzero block (sub block hblock)

/-- A sound run is tracked. -/
theorem Run.tracked (accepted : ForkChoiceStore.new ssz anchor anchorState = .ok first)
    (run : Run ssz first steps store) (sound : SoundTree ssz (blocksOf ssz anchor steps))
    (once : PrunedOnce ssz steps)
    (falls : ∀ block ∈ blocksOf ssz anchor steps,
      rank block.parentRoot < rank (block.hashTreeRoot ssz)) :
    Tracked ssz rank (blocksOf ssz anchor steps)
      (fun r => ∃ earlier ∈ steps, earlier.prunes ssz = some r) store := by
  induction run with
  | start =>
    have hanchor : anchor.message.block ∈ blocksOf ssz anchor [] := List.mem_cons_self
    have hnonzero := sound.nonzero _ hanchor
    have hbelow : anchor.message.block.parentRoot ≠ Bytes32.zero → _ := fun _ => falls _ hanchor
    refine ⟨new_consistent accepted hnonzero hbelow, new_headed accepted hnonzero hbelow, ?_⟩
    intro r q hlink _
    have hparents : first.parents = AList.insert (anchor.message.block.hashTreeRoot ssz)
        anchor.message.block.parentRoot ∅ := by
      rw [new_eq accepted]
      rfl
    rw [hparents, lookup_single] at hlink
    exact ⟨_, hanchor, hlink.1.symm, hlink.2⟩
  | @step steps store next event run handled ih =>
    have hsub := @blocksOf_subset ssz anchor steps ⟨store, event⟩
    have htracked := ih (sound.mono hsub) (List.pairwise_append.mp once).1
      fun block hblock => falls block (hsub block hblock)
    obtain ⟨next', hhandled, hnext⟩ := htracked.handle event
      fun signed henters => fits_of_sound sound once falls henters
    obtain rfl : next = next' := Option.some_inj.mp (handled.symm.trans hhandled)
    rw [blocksOf_concat]
    refine hnext.weaken (fun _ => id) ?_
    rintro r (⟨earlier, hearlier, hprunes⟩ | hprunes)
    · exact ⟨earlier, List.mem_append_left _ hearlier, hprunes⟩
    · exact ⟨_, by simp, hprunes⟩

/-- The proto-array is naive LMD-GHOST: at every point of a run the arena agrees with a recount,
and the next call of the run returns. -/
theorem run_naiveGhost (accepted : ForkChoiceStore.new ssz anchor anchorState = .ok first)
    (run : Run ssz first steps store) (sound : SoundTree ssz (blocksOf ssz anchor steps))
    (once : PrunedOnce ssz steps) :
    NaiveGhost store ∧
      ∀ event, SoundTree ssz (blocksOf ssz anchor (steps ++ [⟨store, event⟩])) →
        PrunedOnce ssz (steps ++ [⟨store, event⟩]) → ∃ next, store.handle ssz event = some next := by
  constructor
  · obtain ⟨rank, hfalls⟩ := sound.exists_rank
    exact (run.tracked accepted sound once hfalls).consistent.naiveGhost
  · intro event sound' once'
    obtain ⟨rank, hfalls⟩ := sound'.exists_rank
    have htracked := run.tracked accepted sound once fun block hblock => hfalls block <| by
      rw [blocksOf_concat]
      exact List.mem_append_left _ hblock
    obtain ⟨next, hhandled, _⟩ := htracked.handle event
      fun signed henters => fits_of_sound sound' once' hfalls henters
    exact ⟨next, hhandled⟩

/-- Two blocks in a row on genesis. -/
def twoBlocks : List PlannedBlock := [⟨1, []⟩, ⟨2, []⟩]

/-- The second block, then the first, then a vote for the second by two of three validators. -/
def lateParent : List Event :=
  (plannedEvents twoBlocks anchorGenesis).reverse ++
    [.attestation (headVote 2 ((plannedRoots twoBlocks anchorGenesis).getD 1 0#256) (voters 3 3#8)),
      .accept]

/-- The steps of the late parent and the store they leave. -/
def lateParentRun : List Step × ForkChoiceStore :=
  (play anchorSsz (anchoredStore anchorGenesis) lateParent).getD ([], anchoredStore anchorGenesis)

theorem lateParent_run :
    Run anchorSsz (anchoredStore anchorGenesis) lateParentRun.1 lateParentRun.2 :=
  Run.of_play (by decide +kernel)

theorem lateParent_sound :
    SoundTree anchorSsz (blocksOf anchorSsz (anchorOf anchorGenesis) lateParentRun.1) ∧
      PrunedOnce anchorSsz lateParentRun.1 := by
  have hfalls : ∀ link ∈ linksOf anchorSsz
      (blocksOf anchorSsz (anchorOf anchorGenesis) lateParentRun.1),
      placeIn (anchoredRoots twoBlocks anchorGenesis) link.2 <
        placeIn (anchoredRoots twoBlocks anchorGenesis) link.1 := by
    decide +kernel
  refine ⟨⟨acyclic_of_rank hfalls, by decide +kernel, by decide +kernel⟩, ?_⟩
  unfold PrunedOnce
  decide +kernel

/-- The law at a child that comes before its parent. -/
theorem run_naiveGhost_lateParent :
    (lateParentRun.2.nodes.map fun node => (node.parent, node.weight, node.bestChild)) =
        [(none, 2, some 2), (some 2, 2, none), (some 0, 2, some 1)] ∧
      NaiveGhost lateParentRun.2 :=
  ⟨by decide +kernel, (run_naiveGhost (new_anchoredStore (by decide +kernel)) lateParent_run
    lateParent_sound.1 lateParent_sound.2).1⟩

end Runs

end Peam
