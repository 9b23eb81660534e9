import Peam.Handler
import Peam.Laws.CheckpointSync
import Peam.Laws.Import
import Peam.Laws.Pool
import Peam.Laws.StoreTree

/-!
# The status of a node

A status names its head and its finalized root from the store and its finalized slot from the live
state. That makes sense as long as the two agree (`Follows`). An import that makes its block the
head of both keeps this (`Follows.promote`), and three things break it: a start from a checkpoint, a
late gossiped block that finalizes, and a fetched chain that the live state does not take over.

What a new block finalizes is the root of a stored block of its slot because every stored state
tells of stored blocks (`Tree`), from genesis on.
-/

namespace Peam

open Calls (Outcome)
open Calls.Attempt (Returns returns_bind returns_pure not_returns_throw)

variable {ssz : Ssz} {verifier : SignatureVerifier} {store' : FileStore} {slot : Nat} {live : State}
  {step : NodeImport}

/-- The status names a stored block of its slot as finalized and one as the head, and is the one the
node sends out itself. -/
structure StoreReqRespHandler.Coherent (ssz : Ssz) (handler : StoreReqRespHandler) : Prop where
  finalized : handler.store.Holds
    ⟨(handler.buildStatus ssz).finalizedRoot, (handler.buildStatus ssz).finalizedSlot⟩
  head : handler.store.Holds
    ⟨(handler.buildStatus ssz).headRoot, (handler.buildStatus ssz).headSlot⟩
  same : handler.buildStatus ssz = buildLocalStatus ssz handler.state

/-! ## The store and a state at its head -/

/-- Stored states tell of stored blocks, and each is under the root of its header. -/
structure FileStore.Rooted (ssz : Ssz) (store : FileStore) : Prop where
  tree : store.Tree 0
  named : ∀ ⦃r state⦄, store.loadStateByBlockRoot r = some state →
    state.latestBlockHeader.hashTreeRoot ssz = r

/-- No stored state is past the slot. -/
def FileStore.Until (store : FileStore) (slot : Nat) : Prop :=
  ∀ ⦃r state⦄, store.loadStateByBlockRoot r = some state → state.slot ≤ slot

/-- The state is that of the store's head, and the two agree on what is finalized. -/
structure Follows (ssz : Ssz) (state : State) (store : FileStore) : Prop where
  tells : store.Tells 0 state
  header_le : state.latestBlockHeader.slot ≤ state.slot
  head : store.live.head = some (state.latestBlockHeader.hashTreeRoot ssz)
  held : store.Holds
    ⟨state.latestBlockHeader.hashTreeRoot ssz, state.latestBlockHeader.slot⟩
  finalized : store.live.finalized = some state.latestFinalized.root

variable {store : FileStore} {state : State}

private theorem Follows.coherent (follows : Follows ssz state store) :
    (⟨state, store⟩ : StoreReqRespHandler).Coherent ssz := by
  obtain ⟨block, hblock, hslot⟩ := follows.held
  have hhead : (⟨state, store⟩ : StoreReqRespHandler).statusHead ssz =
      (state.latestBlockHeader.hashTreeRoot ssz, state.latestBlockHeader.slot) := by
    unfold StoreReqRespHandler.statusHead
    dsimp only at hblock hslot ⊢
    rw [follows.head, Option.bind_some, Option.mem_def.mp hblock, Option.map_some, hslot]
    rfl
  have hsame : (⟨state, store⟩ : StoreReqRespHandler).buildStatus ssz =
      buildLocalStatus ssz state := by
    unfold StoreReqRespHandler.buildStatus
    rw [hhead]
    dsimp only
    rw [follows.finalized]
    rfl
  refine ⟨?_, ?_, hsame⟩
  · rw [hsame]
    exact follows.tells.finalized (Nat.zero_le _)
  · rw [hsame]
    exact follows.held

section Put

variable {store : FileStore} {signed : SignedBlockWithAttestation} {state post : State}
  {justified finalized : Checkpoint} {updateHead : Bool} {out : FileStore}

private theorem root_of_header {header : BlockHeader}
    (h : header = signed.message.block.header ssz) : header.hashTreeRoot ssz = signed.root ssz := by
  rw [h]
  exact header_root _

section

variable (hput : store.persistSignedBlockBundleInner (signed.root ssz) signed post justified
  finalized updateHead = out)

include hput

/-- **A put keeps the store rooted**, with the state its block leads to. -/
theorem FileStore.Rooted.put (rooted : store.Rooted ssz)
    (free : store.NoClash (signed.root ssz) signed.message.block) (tells : out.Tells 0 post)
    (header : post.latestBlockHeader = signed.message.block.header ssz) : out.Rooted ssz := by
  subst hput
  constructor
  · exact rooted.tree.put free tells (congrArg BlockHeader.slot header)
  · intro r state h
    rw [FileStore.loadState_bundle] at h
    split at h
    · next hroot =>
      cases h
      rw [hroot]
      exact root_of_header header
    · exact rooted.named h

private theorem FileStore.Until.put {slot : Nat} (until_ : store.Until slot)
    (le : post.slot ≤ slot) : out.Until slot := by
  intro r state h
  rw [← hput, FileStore.loadState_bundle] at h
  split at h
  · cases h
    exact le
  · exact until_ h

end

private theorem Follows.withJustified (follows : Follows ssz state store) (justified : Checkpoint) :
    Follows ssz { state with latestJustified := justified } store :=
  ⟨⟨follows.tells.length_history, follows.tells.history, follows.tells.finalized_le,
    follows.tells.finalized⟩, follows.header_le, follows.head, follows.held, follows.finalized⟩

/-- **A put that makes its block the head** is followed by the block's state, with any checkpoint
that is stored as its finalized one. -/
theorem Follows.promote (hput : store.persistSignedBlockBundleInner (signed.root ssz) signed post
      justified finalized true = out) (tells : out.Tells 0 post)
    (header : post.latestBlockHeader = signed.message.block.header ssz)
    (slot : post.slot = signed.message.block.slot) (held : out.Holds finalized)
    (le : finalized.slot ≤ signed.message.block.slot) :
    Follows ssz { post with latestFinalized := finalized, latestJustified := justified } out := by
  subst hput
  have hroot := root_of_header header
  have hheader : post.latestBlockHeader.slot = signed.message.block.slot :=
    congrArg BlockHeader.slot header
  refine ⟨⟨tells.length_history, tells.history, ?_, fun _ => held⟩, ?_, ?_, ?_, rfl⟩
  · show finalized.slot ≤ post.latestBlockHeader.slot
    rw [hheader]
    exact le
  · show post.latestBlockHeader.slot ≤ post.slot
    rw [hheader, slot]
  · show some (signed.root ssz) = some (post.latestBlockHeader.hashTreeRoot ssz)
    rw [hroot]
  · show FileStore.Holds _ ⟨post.latestBlockHeader.hashTreeRoot ssz, post.latestBlockHeader.slot⟩
    rw [hroot, hheader]
    exact FileStore.holds_bundle_self

/-- **A put that leaves the head alone.** -/
theorem Follows.file (follows : Follows ssz state store)
    (free : store.NoClash (signed.root ssz) signed.message.block) :
    Follows ssz state
      (store.persistSignedBlockBundleInner (signed.root ssz) signed post justified finalized
        false) :=
  ⟨follows.tells.bundle free, follows.header_le, follows.head, follows.held.bundle free,
    follows.finalized⟩

/-- Setters leave the store rooted, and a state that follows it if they leave head and finalized
root. -/
theorem FileStore.Rooted.congr (rooted : store.Rooted ssz)
    (same : FileStore.SameBlobs store store') : store'.Rooted ssz := by
  refine ⟨rooted.tree.congr same, fun r state h => ?_⟩
  rw [FileStore.loadState_congr same] at h
  exact rooted.named h

private theorem FileStore.Until.congr (until_ : store.Until slot)
    (same : FileStore.SameBlobs store store') : store'.Until slot := by
  intro r state h
  rw [FileStore.loadState_congr same] at h
  exact until_ h

private theorem Follows.congr (follows : Follows ssz state store)
    (same : FileStore.SameBlobs store store') (head : store'.live.head = store.live.head)
    (finalized : store'.live.finalized = store.live.finalized) : Follows ssz state store' :=
  ⟨follows.tells.congr same, follows.header_le, head.trans follows.head, follows.held.congr same,
    finalized.trans follows.finalized⟩

end Put

namespace NodeImport

variable {order : List Attestation → List Attestation} {K : Type} {node : SigningNode K}
  {cells after : ProducerCells}

/-- The invariant of a node: its live state is that of the store's head, and no stored state is
later. -/
structure InStep (ssz : Ssz) (live : State) (store : FileStore) : Prop where
  rooted : store.Rooted ssz
  behind : store.Until live.slot
  follows : Follows ssz live store

variable {signed : SignedBlockWithAttestation} {post : State}

/-- **A put that makes its block the head**, with the later of the two finalized checkpoints. -/
theorem InStep.promote {justified : Checkpoint}
    (inStep : InStep ssz live store)
    (free : store.NoClash (signed.root ssz) signed.message.block) (tells : store.Tells 0 post)
    (header : post.latestBlockHeader = signed.message.block.header ssz)
    (slot : post.slot = signed.message.block.slot) (far : live.slot ≤ post.slot) :
    let finalized := FileStore.laterCheckpoint live.latestFinalized post.latestFinalized
    InStep ssz { post with latestFinalized := finalized, latestJustified := justified }
      (store.persistSignedBlockBundleInner (signed.root ssz) signed post justified finalized
        true) := by
  have hpost : post.latestBlockHeader.slot = signed.message.block.slot :=
    congrArg BlockHeader.slot header
  obtain ⟨held, le⟩ :
      store.Holds (FileStore.laterCheckpoint live.latestFinalized post.latestFinalized) ∧
      (FileStore.laterCheckpoint live.latestFinalized post.latestFinalized).slot ≤
        signed.message.block.slot := by
    rcases (FileStore.laterCheckpoint_cases live.latestFinalized post.latestFinalized).1 with h | h
    · rw [h]
      have := inStep.follows.tells.finalized_le
      have := inStep.follows.header_le
      exact ⟨inStep.follows.tells.finalized (Nat.zero_le _), by omega⟩
    · rw [h, ← hpost]
      exact ⟨tells.finalized (Nat.zero_le _), tells.finalized_le⟩
  refine ⟨inStep.rooted.put rfl free (tells.bundle free) header, ?_,
    Follows.promote rfl (tells.bundle free) header slot (held.bundle free) le⟩
  exact FileStore.Until.put rfl (fun _ _ hstored => (inStep.behind hstored).trans far) (Nat.le_refl _)

/-! ## Gossip -/

/-- Neither the state of its parent nor its votes let the block finalize past the slot. -/
def FinalizesUpTo (store : FileStore) (signed : SignedBlockWithAttestation) (bound : Nat) : Prop :=
  (∀ parent ∈ store.loadStateByBlockRoot signed.message.block.parentRoot,
    parent.latestFinalized.slot ≤ bound) ∧
  ∀ vote ∈ signed.message.block.body.attestations.items, vote.data.source.slot ≤ bound
  deriving Decidable

private theorem FinalizesUpTo.replay
    {bound : Nat} (bounded : FinalizesUpTo store signed bound)
    (h : store.replaySignedBlockFromParent ssz verifier signed = .ok post) :
    post.latestFinalized.slot ≤ bound := by
  obtain ⟨parent, hparent, hrun⟩ := FileStore.replaySignedBlockFromParent_ok.mp h
  exact stateTransitionInner_finalized_le (processSignedBlock_transition hrun)
    (bounded.1 parent hparent) bounded.2

private theorem InStep.gossip
    (inStep : InStep ssz cells.live cells.store)
    (free : cells.store.NoClash (signed.root ssz) signed.message.block)
    (late : cells.live.slot ≤ signed.message.block.slot ∨
      FinalizesUpTo cells.store signed cells.live.latestFinalized.slot) :
    InStep ssz (cells.handleGossipBlock ssz verifier signed).live
      (cells.handleGossipBlock ssz verifier signed).store := by
  unfold ProducerCells.handleGossipBlock
  dsimp only
  split
  · exact inStep
  · next store live h =>
    obtain ⟨replayed, hreplay, hcases⟩ := FileStore.putSignedBlockInner_ok h
    obtain ⟨tells, hslot, hheader⟩ := inStep.rooted.tree.replay hreplay
    rcases hcases with ⟨hfar, rfl, rfl⟩ | ⟨hnear, rfl, rfl⟩
    · exact inStep.promote free tells hheader hslot hfar
    · -- the block stays off the head: its checkpoint must not be the later one
      have hbound := (late.resolve_left (by omega)).replay hreplay
      have hsame : ¬ (FileStore.laterCheckpoint cells.live.latestFinalized
          replayed.latestFinalized).slot > cells.live.latestFinalized.slot := by
        rcases (FileStore.laterCheckpoint_cases cells.live.latestFinalized
          replayed.latestFinalized).1 with h | h
        · rw [h]
          exact Nat.lt_irrefl _
        · rw [h]
          exact Nat.not_lt.mpr hbound
      rw [if_neg hsame]
      exact ⟨inStep.rooted.put rfl free (tells.bundle free) hheader, inStep.behind.put rfl hnear.le,
        (inStep.follows.file free).withJustified _⟩

/-! ## Production -/

/-- What a pass does to state and store: nothing, or the import of the block produced first. -/
theorem attempts_cells (left slot : Nat) :
    ((cells.attempts ssz order node slot left).2.live = cells.live ∧
      (cells.attempts ssz order node slot left).2.store = cells.store) ∨
    ∃ signed post, cells.produced ssz order node slot = some (signed, post) ∧
      cells.OneParent ssz slot ∧
      cells.store.putPrevalidatedSignedBlock ssz (signed.root ssz) signed cells.live post =
        .ok ((cells.attempts ssz order node slot left).2.store,
          (cells.attempts ssz order node slot left).2.live) := by
  induction left generalizing cells with
  | zero => exact .inl ⟨rfl, rfl⟩
  | succ left ih =>
    rcases ProducerCells.attempt_cases ssz order node cells slot with
      ⟨-, hrun⟩ | ⟨signed, post, -, hother, hrun⟩ | ⟨signed, post, hsome, hparent, hrun, -⟩
    · have hskip : cells.attempts ssz order node slot (left + 1) =
          (none, { cells with pending := [] }) := by
        simp only [ProducerCells.attempts, hrun]
      rw [hskip]
      exact .inl ⟨rfl, rfl⟩
    · -- the retry has other votes, and the same two parents
      have hretry : cells.attempts ssz order node slot (left + 1) =
          (({ cells with pending := [] } : ProducerCells).requeueBlockAttestations
            signed.message.block.body.attestations.items).attempts ssz order node slot left := by
        simp only [ProducerCells.attempts, hrun, if_true]
      rw [hretry]
      refine (@ih _).imp_right ?_
      rintro ⟨_, _, -, hparent, -⟩
      exact absurd hparent hother
    · right
      refine ⟨signed, post, hsome, hparent, ?_⟩
      have hafter : (cells.attempts ssz order node slot (left + 1)).2 =
          (cells.attempt ssz order node slot).2 := by
        unfold ProducerCells.attempts
        generalize cells.attempt ssz order node slot = result at hrun ⊢
        obtain ⟨result, next⟩ := result
        cases hrun
        rfl
      rw [hafter]
      unfold ProducerCells.produced at hsome
      unfold ProducerCells.attempt at hrun ⊢
      rw [hsome] at hrun ⊢
      dsimp only at hrun ⊢
      show cells.store.putPrevalidatedSignedBlock ssz (signed.message.block.hashTreeRoot ssz) signed
        cells.live post = _
      cases hput : cells.store.putPrevalidatedSignedBlock ssz
        (signed.message.block.hashTreeRoot ssz) signed cells.live post with
      | error e =>
        rw [hput] at hrun
        cases hrun
      | ok result => rfl

private theorem headRootAt_of_filled
    (filled : state.latestBlockHeader.stateRoot ≠ Bytes32.zero) :
    headRootAt ssz slot state = state.latestBlockHeader.hashTreeRoot ssz := by
  unfold headRootAt advanceTo
  split
  · rw [processSlotLoop_header filled]
  · rfl

private theorem preState_cases (cells : ProducerCells) :
    cells.preState = cells.live ∨
      ∃ r, cells.store.loadStateByBlockRoot r = some cells.preState := by
  unfold ProducerCells.preState FileStore.loadProposalPreState
  cases h : ((cells.forkChoice.map (·.head)) <|> cells.store.live.head).bind
      cells.store.getState with
  | none => exact .inl rfl
  | some state =>
    obtain ⟨root, -, hstate⟩ := Option.bind_eq_some_iff.mp h
    exact .inr ⟨_, hstate⟩

/-- What a node in step builds on: a state at most as far as the live one, whose block is stored. -/
theorem InStep.preState (inStep : InStep ssz cells.live cells.store) :
    cells.store.Tells 0 cells.preState ∧ cells.preState.slot ≤ cells.live.slot ∧
      cells.store.Holds ⟨cells.preState.latestBlockHeader.hashTreeRoot ssz,
        cells.preState.latestBlockHeader.slot⟩ := by
  rcases preState_cases cells with hlive | ⟨r, hstored⟩
  · rw [hlive]
    exact ⟨inStep.follows.tells, Nat.le_refl _, inStep.follows.held⟩
  · refine ⟨inStep.rooted.tree.tells hstored, inStep.behind hstored, ?_⟩
    rw [inStep.rooted.named hstored]
    exact inStep.rooted.tree.slotted hstored

/-- The import of the node's own block. -/
theorem InStep.own
    (inStep : InStep ssz cells.live cells.store) (ahead : cells.live.slot < slot)
    (filled : cells.preState.latestBlockHeader.stateRoot ≠ Bytes32.zero)
    (made : cells.produced ssz order node slot = some (signed, post))
    (free : cells.store.NoClash (signed.root ssz) signed.message.block)
    (h : cells.store.putPrevalidatedSignedBlock ssz (signed.root ssz) signed cells.live post =
      .ok (store, live)) : InStep ssz live store := by
  obtain ⟨htells, hpre, hheld⟩ := inStep.preState
  obtain ⟨hsignedSlot, hparent, -⟩ := produced_spec made
  have hrun : stateTransitionInner ssz signed.message.block cells.preState = .ok () post := by
    obtain ⟨attestations, proofs, block, data, signature, -, hfinish, -, -, -, rfl⟩ :=
      produceBlockWithSignatures_iff.mp made
    exact finishBlock_transition (hpre.trans_lt ahead) hfinish
  have tells : cells.store.Tells 0 post := by
    refine htells.advance ?_ hrun
    rw [hparent, headRootAt_of_filled filled]
    exact hheld
  obtain ⟨hslot, hheader⟩ := stateTransitionInner_header hrun
  obtain ⟨rfl, rfl⟩ := FileStore.putPrevalidatedSignedBlock_ok h
  exact inStep.promote free tells hheader hslot (by omega)

private theorem InStep.produce {now : Option Nat} (inStep : InStep ssz cells.live cells.store)
    (safe : ∀ slot ∈ cells.proposalSlot node now,
      cells.preState.latestBlockHeader.stateRoot ≠ Bytes32.zero ∧
      ∀ made ∈ cells.produced ssz order node slot,
        cells.store.NoClash (made.1.root ssz) made.1.message.block) :
    InStep ssz (cells.pass ssz order node now).2.live (cells.pass ssz order node now).2.store := by
  rw [ProducerCells.pass_eq]
  cases htry : cells.proposalSlot node now with
  | none => exact inStep
  | some slot =>
    obtain ⟨filled, free⟩ := safe slot htry
    dsimp only
    rcases @attempts_cells ssz order K node cells 2 slot with
      ⟨hlive, hstore⟩ | ⟨signed, post, made, -, hput⟩
    · rw [hlive, hstore]
      exact inStep
    · have ahead : cells.live.slot < slot := by
        obtain ⟨time, -, htry⟩ := Option.bind_eq_some_iff.mp htry
        dsimp only at htry
        split at htry
        · next hguard =>
          cases htry
          exact hguard.2.1.symm ▸ Nat.lt_succ_self _
        · cases htry
      exact inStep.own ahead filled made (free (signed, post) made) hput

/-! ## Fetched chains -/

/-- A block that is not stored goes in on top of its parent's stored state. -/
theorem backfilled
    (rooted : store.Rooted ssz) (unstored : store.getBlock (signed.root ssz) = none)
    (h : store.replaySignedBlockFromParent ssz verifier signed = .ok post) :
    let put := store.persistSignedBlockBundleFromState (signed.root ssz) signed post
      post.latestJustified post.latestFinalized
    put.Rooted ssz ∧ Follows ssz post put := by
  obtain ⟨tells, hslot, hheader⟩ := rooted.tree.replay h
  have free := @FileStore.noClash_of_none store _ signed.message.block unstored
  refine ⟨rooted.put rfl free (tells.bundle free) hheader, ?_⟩
  refine Follows.promote rfl (tells.bundle free) hheader hslot
    ((tells.finalized (Nat.zero_le _)).bundle free) ?_
  rw [← show post.latestBlockHeader.slot = signed.message.block.slot from
    congrArg BlockHeader.slot hheader]
  exact tells.finalized_le

private theorem InStep.range {blocks : List SignedBlockWithAttestation} {views after : Views}
    {completed : Bool} (inStep : InStep ssz views.live views.store)
    (h : Returns (importRangeLoop ssz verifier blocks views) (completed, after)) :
    InStep ssz after.live after.store := by
  induction blocks generalizing views with
  | nil =>
    cases returns_pure.mp h
    exact inStep
  | cons signed rest ih =>
    unfold importRangeLoop at h
    dsimp only at h
    split at h
    · exact ih inStep h
    · next unstored =>
      split at h
      · cases returns_pure.mp h
        exact inStep
      · exact absurd h not_returns_throw
      · next store live hput =>
        obtain ⟨forkChoice, -, h⟩ := returns_bind.mp h
        obtain ⟨hreplay, hslot, rfl⟩ := putBackfill_ok.mp hput
        obtain ⟨rooted, follows⟩ := backfilled inStep.rooted
          (Option.not_isSome_iff_eq_none.mp unstored) hreplay
        refine ih ⟨rooted, ?_, follows⟩ h
        exact FileStore.Until.put rfl (fun _ _ hstored => (inStep.behind hstored).trans hslot)
          (Nat.le_refl _)

/-- Every block to come that is not stored builds on states that finalize the slot. -/
def OnFinalized (ssz : Ssz) (store : FileStore) (slot : Nat)
    (blocks : List SignedBlockWithAttestation) : Prop :=
  ∀ signed ∈ blocks, store.getBlock (signed.root ssz) = none →
    ∀ parent ∈ store.loadStateByBlockRoot signed.message.block.parentRoot,
      slot ≤ parent.latestFinalized.slot

/-- **The loop of a backfill**: what it wrote last is followed by the replay state. -/
theorem importLoop_follows {blocks : List SignedBlockWithAttestation} {replay final : Replay}
    {completed : Bool} {slot bound : Nat}
    (h : Returns (importLoop ssz verifier blocks replay) (final, completed))
    (rooted : replay.store.Rooted ssz) (behind : replay.store.Until (max bound replay.state.slot))
    (onward : OnFinalized ssz replay.store slot blocks) :
    final.store.Rooted ssz ∧ final.store.Until (max bound final.state.slot) ∧
      (final = replay ∨
        Follows ssz final.state final.store ∧ slot ≤ final.state.latestFinalized.slot) := by
  induction blocks generalizing replay with
  | nil =>
    cases returns_pure.mp h
    exact ⟨rooted, behind, .inl rfl⟩
  | cons signed rest ih =>
    have onward' : OnFinalized ssz replay.store slot rest :=
      fun other hother => onward other (List.mem_cons_of_mem _ hother)
    obtain ⟨turn, hturn, h⟩ := returns_bind.mp h
    cases importTurn_cases hturn with
    | passed _ => exact ih h rooted behind onward'
    | refused _ _ =>
      cases returns_pure.mp h
      exact ⟨rooted, behind, .inl rfl⟩
    | put post forkChoice notPassed later hreplay _ =>
      have unstored : replay.store.getBlock (signed.root ssz) = none :=
        Option.not_isSome_iff_eq_none.mp fun stored => notPassed (.inl stored)
      obtain ⟨rooted', follows⟩ := backfilled rooted unstored hreplay
      obtain ⟨parent, hparent, hrun⟩ := FileStore.replaySignedBlockFromParent_ok.mp hreplay
      have hfinal : slot ≤ post.latestFinalized.slot :=
        (onward signed List.mem_cons_self unstored parent hparent).trans
          (stateTransitionInner_finalized (processSignedBlock_transition hrun)).1
      have hslot := (replay_header hreplay).1
      have behind' : (replay.put ssz signed post forkChoice).store.Until
          (max bound (replay.put ssz signed post forkChoice).state.slot) := by
        refine FileStore.Until.put rfl (fun _ _ hstored => (behind hstored).trans ?_)
          (Nat.le_max_right _ _)
        show max bound replay.state.slot ≤ max bound post.slot
        omega
      have onward'' : OnFinalized ssz (replay.put ssz signed post forkChoice).store slot rest := by
        intro other hother hnone parent' hparent'
        have hparent'' := (FileStore.loadState_bundle _).symm.trans hparent'
        have hnone' := (FileStore.getBlock_bundle _).symm.trans hnone
        split at hparent''
        · cases hparent''
          exact hfinal
        · split at hnone'
          · cases hnone'
          · exact onward' other hother hnone' parent' hparent''
      obtain ⟨hrooted, hbehind, hlast⟩ := ih h rooted' behind' onward''
      refine ⟨hrooted, hbehind, .inr ?_⟩
      rcases hlast with rfl | hlast
      · exact ⟨follows, hfinal⟩
      · exact hlast

private theorem InStep.backfill {fetched : List SignedBlockWithAttestation} {views after : Views}
    {result : Option Nat} (inStep : InStep ssz views.live views.store)
    (safe : Idle ssz verifier views.store (replaySlot ssz views fetched) fetched.reverse ∨
      (∃ reached, ReplaysTo ssz verifier views.store (replaySlot ssz views fetched)
        fetched.reverse reached ∧ views.live.slot < reached) ∧
      OnFinalized ssz views.store views.live.latestFinalized.slot fetched.reverse)
    (h : Returns (importBackfillChain ssz verifier views fetched) (result, after)) :
    InStep ssz after.live after.store := by
  unfold importBackfillChain at h
  unfold replaySlot at safe
  split at h
  · cases returns_pure.mp h
    exact inStep
  · next oldest holdest =>
    obtain ⟨⟨final, completed⟩, hloop, h⟩ := returns_bind.mp h
    obtain ⟨-, idle, busy, replays⟩ := importLoop_spec hloop
    rw [holdest] at safe
    dsimp only at h safe idle busy replays
    by_cases hidle : Idle ssz verifier views.store
        (replayStart ssz views.live views.store oldest.message.block).value.slot fetched.reverse
    · rw [idle hidle] at h
      dsimp only at h
      split at h
      · cases returns_pure.mp h
        exact inStep
      · cases returns_pure.mp h
        exact inStep
    · obtain ⟨⟨reached, hreplays, hlater⟩, onward⟩ := safe.resolve_left hidle
      obtain ⟨hcompleted, hreached⟩ := (replays reached).mp hreplays
      obtain ⟨signed, wrote⟩ := busy hidle
      rw [if_neg (not_not.mpr hcompleted), if_neg wrote.counted.ne'] at h
      cases returns_pure.mp h
      obtain ⟨rooted, behind, hlast⟩ := @importLoop_follows ssz verifier _ _ _ _ _ views.live.slot
        hloop inStep.rooted (fun _ _ hstored => (inStep.behind hstored).trans (Nat.le_max_left _ _))
        onward
      obtain ⟨follows, hfinal⟩ : Follows ssz final.state final.store ∧
          views.live.latestFinalized.slot ≤ final.state.latestFinalized.slot := by
        rcases hlast with rfl | hlast
        · exact absurd wrote.counted (Nat.lt_irrefl _)
        · exact hlast
      have later : views.live.slot < final.state.slot := hreached ▸ hlater
      dsimp only
      rw [mergeReplay_of_later later, if_neg (Nat.not_lt.mpr hfinal)]
      refine ⟨rooted, fun _ _ hstored => ?_, ?_⟩
      · have := behind hstored
        show _ ≤ final.state.slot
        omega
      · exact follows.withJustified _

/-! ## The start -/

/-- A genesis state: nothing before it, and a header that is that of its anchor block. -/
structure GenesisAnchor (ssz : Ssz) (state : State) : Prop where
  slot : state.slot = 0
  header_slot : state.latestBlockHeader.slot = 0
  history : state.historicalBlockHashes.items = []
  finalized : state.latestFinalized = ⟨Bytes32.zero, 0⟩
  filled : state.latestBlockHeader.stateRoot ≠ Bytes32.zero
  body : state.latestBlockHeader.bodyRoot = (⟨SszList.empty⟩ : BlockBody).hashTreeRoot ssz

/-- `generate_genesis` makes one, if the root it has built in is that of the empty body. -/
theorem genesisAnchor_generateGenesis {genesisTime : Nat}
    {validators : Validators}
    (empty : emptyBlockBodyRoot = (⟨SszList.empty⟩ : BlockBody).hashTreeRoot ssz)
    (filled : (generateGenesis ssz genesisTime validators).latestBlockHeader.stateRoot ≠
      Bytes32.zero) : GenesisAnchor ssz (generateGenesis ssz genesisTime validators) :=
  ⟨rfl, rfl, rfl, rfl, filled, empty⟩

/-- The state a genesis seed leaves: the anchor is finalized, and the header is its header. -/
theorem GenesisAnchor.normalized (genesis : GenesisAnchor ssz state) :
    let anchor := buildAnchorBlock ssz state
    let live := normalizeGenesisAnchorRoots state (anchor.hashTreeRoot ssz)
    live.latestBlockHeader = anchor.header ssz ∧ live.slot = 0 ∧
      live.historicalBlockHashes.items = [] ∧
      live.latestFinalized = ⟨anchor.hashTreeRoot ssz, anchor.slot⟩ := by
  have hheader : state.latestBlockHeader = (buildAnchorBlock ssz state).header ssz := by
    unfold buildAnchorBlock Block.header
    dsimp only
    rw [if_neg genesis.filled, ← genesis.body]
  have hslot : (buildAnchorBlock ssz state).slot = 0 := genesis.header_slot
  dsimp only
  unfold normalizeGenesisAnchorRoots
  rw [if_neg (not_not.mpr genesis.slot), hslot]
  dsimp only
  rw [genesis.finalized, if_pos ⟨rfl, rfl⟩]
  exact ⟨hheader, genesis.slot, genesis.history, rfl⟩

/-- The put of a genesis anchor, with the state that names it as finalized. -/
theorem inStep_anchor {signed : SignedBlockWithAttestation} {live : State}
    (header : live.latestBlockHeader = signed.message.block.header ssz) (slot : live.slot = 0)
    (block_slot : signed.message.block.slot = 0)
    (history : live.historicalBlockHashes.items = [])
    (finalized : live.latestFinalized = ⟨signed.root ssz, signed.message.block.slot⟩) :
    InStep ssz live (FileStore.fresh.putAnchorSignedBlock (signed.root ssz) signed live) := by
  have held : (FileStore.fresh.putAnchorSignedBlock (signed.root ssz) signed live).Holds
      live.latestFinalized := by
    rw [finalized]
    exact FileStore.holds_bundle_self
  have tells : (FileStore.fresh.putAnchorSignedBlock (signed.root ssz) signed live).Tells 0
      live := by
    refine ⟨?_, ?_, ?_, fun _ => held⟩
    · rw [history, header]
      exact block_slot.symm
    · intro i x _ hget
      rw [history] at hget
      cases hget
    · rw [finalized, header]
      exact Nat.le_refl _
  have rooted : FileStore.fresh.Rooted ssz :=
    ⟨⟨nofun, nofun⟩, nofun⟩
  refine ⟨rooted.put rfl (FileStore.noClash_of_none rfl) tells header, ?_, ?_⟩
  · exact FileStore.Until.put rfl nofun (Nat.le_refl _)
  · refine Follows.promote rfl tells header (slot.trans block_slot.symm) held ?_
    rw [finalized]

/-- **A node that starts from genesis is in step.** -/
theorem GenesisAnchor.inStep (genesis : GenesisAnchor ssz state)
    (h : start ssz state = .ok cells) : InStep ssz cells.live cells.store := by
  obtain ⟨⟨store, live, forkChoice⟩, hseed, h⟩ := Outcome.bind_ok.mp h
  cases h
  dsimp only
  have hmeta := seedAnchor_live hseed
  have hblobs := seedAnchor_blobs hseed
  obtain ⟨hheader, hslot, hhistory, hfinal⟩ := genesis.normalized
  rw [← (seedAnchor_ok hseed).1] at hheader hslot hhistory hfinal
  obtain ⟨rooted, behind, follows⟩ := @inStep_anchor ssz
    (selfVoting ssz (buildAnchorBlock ssz state)) live hheader hslot genesis.header_slot hhistory
    hfinal
  obtain ⟨hhead, hfinalized, -⟩ := hmeta (by rw [hfinal]; exact Nat.le_refl _)
  refine ⟨rooted.congr hblobs, behind.congr hblobs, follows.congr hblobs hhead ?_⟩
  rw [hfinalized, follows.finalized, hfinal]

/-! ## Runs -/

/-- What an import finds, for the status to stay coherent. A gossiped block, or one of the node's
own, is not put over a stored block of another slot. A gossiped block is not behind the live state,
unless it cannot finalize more than that has. The state a proposal is built on has its state root.
A fetched chain changes nothing, or replays to its end and past the live state on states that
finalize at least what the live one does. -/
def Safe (ssz : Ssz) (verifier : SignatureVerifier) (order : List Attestation → List Attestation)
    (node : SigningNode K) (cells : ProducerCells) : NodeImport → Prop
  | .gossip signed =>
    cells.store.NoClash (signed.root ssz) signed.message.block ∧
      (cells.live.slot ≤ signed.message.block.slot ∨
        FinalizesUpTo cells.store signed cells.live.latestFinalized.slot)
  | .produce now =>
    ∀ slot ∈ cells.proposalSlot node now,
      cells.preState.latestBlockHeader.stateRoot ≠ Bytes32.zero ∧
      ∀ made ∈ cells.produced ssz order node slot,
        cells.store.NoClash (made.1.root ssz) made.1.message.block
  | .backfill fetched =>
    Idle ssz verifier cells.store (replaySlot ssz cells.views fetched) fetched.reverse ∨
      (∃ reached, ReplaysTo ssz verifier cells.store (replaySlot ssz cells.views fetched)
        fetched.reverse reached ∧ cells.live.slot < reached) ∧
      OnFinalized ssz cells.store cells.live.latestFinalized.slot fetched.reverse
  | .range _ => True
  | .others _ _ => True

/-- **A safe import keeps a node in step.** -/
theorem InStep.apply (inStep : InStep ssz cells.live cells.store)
    (safe : Safe ssz verifier order node cells step)
    (h : Returns (apply ssz verifier order node cells step) after) :
    InStep ssz after.live after.store := by
  cases step with
  | gossip signed =>
    cases returns_pure.mp h
    exact inStep.gossip safe.1 safe.2
  | produce now =>
    cases returns_pure.mp h
    exact inStep.produce safe
  | backfill fetched =>
    obtain ⟨⟨result, views⟩, himport, h⟩ := returns_bind.mp h
    cases returns_pure.mp h
    exact @InStep.backfill ssz verifier fetched cells.views views result inStep safe himport
  | range fetched =>
    obtain ⟨⟨completed, views⟩, himport, h⟩ := returns_bind.mp h
    cases returns_pure.mp h
    exact @InStep.range ssz verifier fetched cells.views views completed inStep himport
  | others forkChoice pending =>
    cases returns_pure.mp h
    exact inStep

/-- Every import of the run is safe where it is made. -/
def SafeRun (ssz : Ssz) (verifier : SignatureVerifier) (order : List Attestation → List Attestation)
    (node : SigningNode K) : List NodeImport → ProducerCells → Prop
  | [], _ => True
  | step :: rest, cells =>
    Safe ssz verifier order node cells step ∧
      ∀ next, Returns (apply ssz verifier order node cells step) next →
        SafeRun ssz verifier order node rest next

private theorem InStep.run {steps : List NodeImport} (inStep : InStep ssz cells.live cells.store)
    (safe : SafeRun ssz verifier order node steps cells)
    (h : Returns (run ssz verifier order node steps cells) after) :
    InStep ssz after.live after.store := by
  induction steps generalizing cells with
  | nil =>
    cases returns_pure.mp h
    exact inStep
  | cons step rest ih =>
    obtain ⟨next, hstep, h⟩ := returns_bind.mp h
    exact ih (inStep.apply safe.1 hstep) (safe.2 next hstep) h

/-- **The status of a node is coherent** after every run of safe imports from genesis. -/
theorem status_coherent (ssz : Ssz) (verifier : SignatureVerifier)
    (order : List Attestation → List Attestation) (node : SigningNode K) (state : State)
    (genesis : GenesisAnchor ssz state) (cells after : ProducerCells)
    (started : start ssz state = .ok cells) (steps : List NodeImport)
    (safe : SafeRun ssz verifier order node steps cells)
    (returns : Returns (run ssz verifier order node steps cells) after) :
    after.handler.Coherent ssz :=
  ((genesis.inStep started).run safe returns).follows.coherent

/-! ## Three imports, and three ways out of step -/

/-- The cells after a run of imports, from the cells of a node that started from genesis. -/
def sampleCells (steps : List NodeImport) : ProducerCells :=
  (run anchorSsz noopSignatureVerifier id sampleNode steps ProducerCells.started).value?.getD
    ProducerCells.started

/-- A block of slot 2 by gossip, one of slot 3 by the node itself, and a fetched branch with blocks
at slots 1 and 5. -/
def threeImports : List NodeImport :=
  [.gossip (PlannedBlock.build anchorSsz ⟨2, []⟩ anchorGenesis), .produce (some 12000),
    .backfill (fetchedPlan [⟨1, []⟩, ⟨5, []⟩])]

private theorem start_started : start anchorSsz anchorGenesis = .ok ProducerCells.started := by
  have hok : (seedAnchorStoreAndForkChoice anchorSsz FileStore.fresh anchorGenesis).isOk =
      true := by
    decide +kernel
  unfold start ProducerCells.started
  cases hseed : seedAnchorStoreAndForkChoice anchorSsz FileStore.fresh anchorGenesis with
  | error e =>
    rw [hseed] at hok
    cases hok
  | ok seeded => rfl

private theorem safeRun_cons {rest : List NodeImport}
    (safe : Safe ssz verifier order node cells step)
    (rest_safe : SafeRun ssz verifier order node rest
      ((apply ssz verifier order node cells step).value?.getD cells)) :
    SafeRun ssz verifier order node (step :: rest) cells := by
  refine ⟨safe, fun next hnext => ?_⟩
  rw [Calls.Attempt.value?_eq_some.mpr hnext] at rest_safe
  exact rest_safe

private theorem replaysTo_of_loop {reached : Nat}
    {blocks : List SignedBlockWithAttestation} (state : State)
    (h : (importLoop ssz verifier blocks ⟨store, none, { state with slot }, 0⟩).value?.map
      (fun (final, completed) => (completed, final.state.slot)) = some (true, reached)) :
    ReplaysTo ssz verifier store slot blocks reached := by
  obtain ⟨⟨final, completed⟩, hloop, heq⟩ := Option.map_eq_some_iff.mp h
  cases heq
  obtain ⟨-, -, -, replays⟩ := importLoop_spec (Calls.Attempt.value?_eq_some.mp hloop)
  exact (replays _).mpr ⟨rfl, rfl⟩

/-- The node passes slot 3 and ends at slot 5, with the status it sends out itself. -/
theorem status_coherent_threeImports :
    (sampleCells (threeImports.take 2)).live.slot = 3 ∧
      (sampleCells threeImports).live.slot = 5 ∧
      (sampleCells threeImports).handler.Coherent anchorSsz := by
  have genesis : GenesisAnchor anchorSsz anchorGenesis :=
    genesisAnchor_generateGenesis (by decide +kernel) (by decide +kernel)
  have safe : SafeRun anchorSsz noopSignatureVerifier id sampleNode threeImports
      ProducerCells.started := by
    refine safeRun_cons ?_ (safeRun_cons ?_ (safeRun_cons (.inr ⟨⟨5, ?_, ?_⟩, ?_⟩) trivial))
    · refine ⟨?_, .inl ?_⟩
      · decide +kernel
      · decide +kernel
    · show ∀ slot ∈ ProducerCells.proposalSlot _ _ _, _ ∧
        ∀ made ∈ ProducerCells.produced _ _ _ _ _, _
      decide +kernel
    · exact replaysTo_of_loop anchorGenesis (by decide +kernel)
    · decide +kernel
    · unfold OnFinalized
      decide +kernel
  have returns : (run anchorSsz noopSignatureVerifier id sampleNode threeImports
      ProducerCells.started).value?.isSome = true := by decide +kernel
  refine ⟨by decide +kernel, by decide +kernel, ?_⟩
  exact status_coherent anchorSsz noopSignatureVerifier id sampleNode anchorGenesis genesis
    ProducerCells.started _ start_started threeImports safe (Calls.Attempt.returns_getD returns)

/-- The blocks of a plan, by gossip. -/
def gossiped (plan : List PlannedBlock) : List NodeImport :=
  (buildBlocks anchorSsz noopSignatureVerifier plan anchorGenesis).map .gossip

/-- The slot of the block a status names as finalized, and the slot it names. -/
def finalizedSlots (handler : StoreReqRespHandler) : Option Nat × Nat :=
  ((handler.store.getBlock (handler.buildStatus anchorSsz).finalizedRoot).map (·.slot),
    (handler.buildStatus anchorSsz).finalizedSlot)

private theorem not_coherent_of_slots {handler : StoreReqRespHandler} {stored named : Nat}
    (h : finalizedSlots handler = (some stored, named)) (ne : stored ≠ named) :
    ¬ handler.Coherent anchorSsz := by
  intro coherent
  obtain ⟨block, hblock, hslot⟩ := coherent.finalized
  obtain ⟨hstored, hnamed⟩ := Prod.mk.inj h
  rw [Option.mem_def.mp hblock, Option.map_some, Option.some_inj] at hstored
  exact ne (hstored.symm.trans (hslot.trans hnamed))

/-- **Statuses that name no block.** Right after a start from a checkpoint at slot 3, and after late
blocks that finalize slot 2, the finalized slot is not that of the finalized root. After a fetched
block beside the head, the head is not the one the node sends out itself. -/
theorem status_out_of_step :
    (verifyCheckpointState anchorSsz (fun _ => "") (plannedEnd emptyPlan).2 anchorGenesis =
        .ok () ∧
      ∃ cells, start anchorSsz (plannedEnd emptyPlan).2 = .ok cells ∧
        finalizedSlots cells.handler = (some 3, 0) ∧ ¬ cells.handler.Coherent anchorSsz) ∧
    (finalizedSlots (sampleCells (gossiped [⟨9, []⟩] ++ gossiped twoFinalized)).handler =
        (some 0, 2) ∧
      ¬ (sampleCells (gossiped [⟨9, []⟩] ++ gossiped twoFinalized)).handler.Coherent anchorSsz) ∧
    ¬ (sampleCells (gossiped aheadPlan ++ [.backfill besideBlock])).handler.Coherent
      anchorSsz := by
  refine ⟨⟨by decide +kernel, ?_⟩, ?_, ?_⟩
  · have hstart : (start anchorSsz (plannedEnd emptyPlan).2).toOption.map
        (fun cells => finalizedSlots cells.handler) = some (some 3, 0) := by decide +kernel
    obtain ⟨cells, hcells, hslots⟩ := Option.map_eq_some_iff.mp hstart
    cases hrun : start anchorSsz (plannedEnd emptyPlan).2 with
    | error e =>
      rw [hrun] at hcells
      cases hcells
    | ok started =>
      rw [hrun] at hcells
      cases hcells
      exact ⟨_, rfl, hslots, not_coherent_of_slots hslots (by decide)⟩
  · have hslots : finalizedSlots (sampleCells
        (gossiped [⟨9, []⟩] ++ gossiped twoFinalized)).handler = (some 0, 2) := by decide +kernel
    exact ⟨hslots, not_coherent_of_slots hslots (by decide)⟩
  · exact fun coherent => absurd coherent.same (by decide +kernel)

end NodeImport

end Peam
