import Peam.Laws.SlotIndex
import Peam.Laws.Status

/-!
# What a node imports and what it answers with

Each import of a node is a run of calls on its store (`run_calls`). A call leaves the blocks or puts
one under its own root, with its signatures. So, if what it has is legible, a node answers a request
for blocks by root with the blocks it has of those asked for, and one for a range with every block
it has for the slots (`requests_answered`).
-/

namespace Peam

open Calls.Attempt (Returns returns_bind returns_pure)

variable {ssz : Ssz} {codec : SszEncoder} {digest : List Packed.Byte → Bytes32}
  {verifier : SignatureVerifier}

/-! ## Answers -/

/-- A stored block has its signed block beside it, under its own root. -/
def FileStore.Paired (ssz : Ssz) (store : FileStore) : Prop :=
  ∀ root, store.getBlock root = (store.signedRow root).map (·.message.block) ∧
    ∀ signed ∈ store.signedRow root, signed.root ssz = root

namespace FileStore.Paired

variable (verifier) {store store' : FileStore} (paired : store.Paired ssz)

include paired

private theorem congr (same : SameBlobs store store') : store'.Paired ssz := by
  intro root
  rw [getBlock, signedRow, same.blocks, same.signed]
  exact paired root

private theorem put {root : Bytes32} {signed : SignedBlockWithAttestation}
    (put : store.PutSigned ssz verifier root signed store') (own : signed.root ssz = root) :
    store'.Paired ssz := by
  obtain ⟨state, justified, finalized, updateHead, rfl⟩ := put.bundle
  intro r
  simp only [getBlock, signedRow, persistSignedBlockBundleInner, lookup_insert_eq]
  split
  · next hr => exact ⟨rfl, fun _ h => by cases h; exact own.trans hr.symm⟩
  · exact paired r

private theorem signed_of_block {root : Bytes32} {block : Block}
    (h : store.getBlock root = some block) :
    block.hashTreeRoot ssz = root ∧
      ∃ signed, store.signedRow root = some signed ∧ signed.message.block = block := by
  obtain ⟨signed, hsigned, rfl⟩ := Option.map_eq_some_iff.mp ((paired root).1.symm.trans h)
  exact ⟨(paired root).2 signed hsigned, signed, hsigned, rfl⟩

private theorem signed_of_slot {slot : Nat} {block : Block}
    (h : store.getBlockBySlot slot = some block) :
    ∃ signed, store.signedRow (block.hashTreeRoot ssz) = some signed ∧
      signed.message.block = block := by
  obtain ⟨root, hblock⟩ : ∃ root, store.getBlock root = some block := by
    unfold getBlockBySlot at h
    split at h
    · exact ⟨_, h⟩
    · obtain ⟨root, -, hblock⟩ := Option.bind_eq_some_iff.mp h
      exact ⟨root, hblock⟩
  obtain ⟨rfl, hsigned⟩ := paired.signed_of_block hblock
  exact hsigned

/-- A read of a legible store gives the block stored under the root. -/
theorem readSignedBlock (legible : store.Legible codec digest) (root : Bytes32) :
    ∃ found, store.readSignedBlock codec digest root = .ok found ∧
      found.map (·.message.block) = store.getBlock root := by
  rw [(paired root).1]
  cases hrow : store.signedRow root with
  | none => exact ⟨none, by rw [FileStore.readSignedBlock, hrow], rfl⟩
  | some signed =>
    obtain ⟨found, hfound, hblock⟩ :=
      FileStore.readSignedBlock_legible hrow (legible root signed hrow)
    exact ⟨some found, hfound, congrArg some hblock⟩

private theorem mapM_blocks (legible : store.Legible codec digest) (roots : List Bytes32) :
    ∃ found, roots.mapM (store.readSignedBlock codec digest) = .ok found ∧
      found.reduceOption.map (·.message.block) = roots.filterMap store.getBlock := by
  induction roots with
  | nil => exact ⟨[], rfl, rfl⟩
  | cons root rest ih =>
    obtain ⟨found, hfound, hblock⟩ := paired.readSignedBlock legible root
    obtain ⟨others, hothers, hblocks⟩ := ih
    refine ⟨found :: others, ?_, ?_⟩
    · rw [List.mapM_cons, hfound, hothers]
      rfl
    · rw [List.filterMap_cons, ← hblock, ← hblocks]
      cases found <;> rfl

end FileStore.Paired

/-- The loop of a `BlocksByRange` request. -/
theorem FileStore.Paired.rangeLoop_blocks {store : FileStore} (paired : store.Paired codec.toSsz)
    (legible : store.Legible codec digest) (startSlot step : Nat) (offsets : List Nat) :
    ∃ blocks, StoreReqRespHandler.rangeLoop codec digest store startSlot step offsets =
        .ok blocks ∧
      blocks.map (·.message.block) =
        (offsets.takeWhile (startSlot + · * step < 2 ^ 64)).filterMap
          (store.getBlockBySlot <| startSlot + · * step) := by
  induction offsets with
  | nil => exact ⟨[], rfl, rfl⟩
  | cons offset rest ih =>
    rw [StoreReqRespHandler.rangeLoop, List.takeWhile_cons]
    split
    · rw [if_neg (by simp; omega)]
      exact ⟨[], rfl, rfl⟩
    · rw [if_pos (by simp; omega), List.filterMap_cons]
      cases hblock : store.getBlockBySlot (startSlot + offset * step) with
      | none => exact ih
      | some block =>
        obtain ⟨signed, hsigned, rfl⟩ := paired.signed_of_slot hblock
        obtain ⟨found, hfound, hsame⟩ :=
          FileStore.readSignedBlock_legible hsigned (legible _ signed hsigned)
        obtain ⟨others, hothers, hblocks⟩ := ih
        refine ⟨found :: others, ?_, ?_⟩
        · simp only [hfound, hothers, bind, Except.bind]
          rfl
        · rw [List.map_cons, hsame, hblocks]

namespace NodeStore

/-- **Every call on the store keeps the blocks paired.** -/
theorem paired_call {node : NodeStore} (paired : node.store.Paired ssz)
    (call : NodeCall) : (node.call ssz verifier call).store.Paired ssz := by
  unfold NodeStore.call afterPut FileStore.setFinalized
  cases call with
  | seed state =>
    dsimp only
    split
    · exact paired
    · next h =>
      exact (paired.put verifier (.anchor _) (by rfl)).congr (seedAnchor_blobs h)
  | setFinalized root =>
    dsimp only
    split
    · exact paired
    · exact paired.congr (FileStore.sameBlobs_setFinalizedCheckpoint _ _)
  | setFinalizedCheckpoint checkpoint =>
    exact paired.congr (FileStore.sameBlobs_setFinalizedCheckpoint _ _)
  | mergeReplay =>
    dsimp only
    split <;> exact paired
  | dropReplay => exact paired
  | _ =>
    -- the puts, by the constructor of `PutSigned` that takes the call's result
    dsimp only
    split
    · exact paired
    · next h =>
      first
      | exact paired.put verifier (.signedBlock h) rfl
      | exact paired.put verifier (.prevalidated h) rfl
      | exact paired.put verifier (.backfill h) rfl

section Run

variable (ssz : Ssz) (verifier : SignatureVerifier) (live : State) (calls : List NodeCall)

private theorem paired_run : ((initial live).run ssz verifier calls).store.Paired ssz :=
  List.foldlRecOn (motive := fun node : NodeStore => node.store.Paired ssz) calls _
    (fun _ => ⟨rfl, fun _ h => by cases h⟩) fun _ paired call _ => paired_call paired call

/-- **A node answers with the blocks it has**, after every run of calls on its store, if what it has
is legible: for a list of roots with those of the blocks that it has, and for a range with every
block it has for the slots, in their order. -/
theorem requests_answered (codec : SszEncoder) (digest : List Packed.Byte → Bytes32)
    (legible : ((initial live).run codec.toSsz verifier calls).store.Legible codec digest) :
    let node := (initial live).run codec.toSsz verifier calls
    (∀ roots, ∃ blocks : List SignedBlockWithAttestation,
        StoreReqRespHandler.onRequest codec digest ⟨node.live, node.store⟩
          (.blocksByRoot roots) = .ok (blocks.map .blocksByRoot) ∧
        blocks.map (·.message.block) =
          (roots.items.take maxBlocksPerRootRequest).filterMap node.store.getBlock ∧
        ∀ found ∈ blocks, found.root codec.toSsz ∈ roots.items) ∧
      ∀ request, ∃ blocks : List SignedBlockWithAttestation,
        StoreReqRespHandler.onRequest codec digest ⟨node.live, node.store⟩
          (.blocksByRange request) = .ok (blocks.map .blocksByRange) ∧
        blocks.map (·.message.block) =
          ((List.range (min request.count maxBlocksPerRequest)).takeWhile
            (request.startSlot + · * max request.step 1 < 2 ^ 64)).filterMap
              (node.store.getBlockBySlot <| request.startSlot + · * max request.step 1) := by
  intro node
  have paired := paired_run codec.toSsz verifier live calls
  constructor
  · intro roots
    obtain ⟨found, hfound, hblocks⟩ :=
      paired.mapM_blocks legible (roots.items.take maxBlocksPerRootRequest)
    refine ⟨found.reduceOption, ?_, hblocks, fun signed hsigned => ?_⟩
    · rw [StoreReqRespHandler.onRequest, StoreReqRespHandler.blocksByRoot, hfound]
      rfl
    · -- the block is one that is stored under a root of the request, and that root is its own
      have hmem := List.mem_map_of_mem (f := (·.message.block)) hsigned
      rw [hblocks] at hmem
      obtain ⟨root, hroot, hblock⟩ := List.mem_filterMap.mp hmem
      rw [SignedBlockWithAttestation.root, (paired.signed_of_block hblock).1]
      exact List.mem_of_mem_take hroot
  · intro request
    obtain ⟨blocks, hblocks, hslots⟩ := paired.rangeLoop_blocks legible request.startSlot
      (max request.step 1) (List.range (min request.count maxBlocksPerRequest))
    refine ⟨blocks, ?_, hslots⟩
    rw [StoreReqRespHandler.onRequest, StoreReqRespHandler.blocksByRange, hblocks]
    rfl

/-- The first block of the plan, imported after the start. -/
def oneImported : NodeStore :=
  sampleRun (.seed anchorGenesis ::
    gossipCalls ((buildBlocks anchorSsz noopSignatureVerifier twoFinalized anchorGenesis).take 1))

/-- The block is sent for its root, and after the anchor for its slot. -/
theorem requests_answered_oneImported :
    (∃ blocks : List SignedBlockWithAttestation,
      StoreReqRespHandler.onRequest anchorEncoder (fun _ => 0#256)
          ⟨oneImported.live, oneImported.store⟩
          (.blocksByRoot ⟨[oneImported.live.latestBlockHeader.hashTreeRoot anchorSsz, 0#256]⟩) =
        .ok (blocks.map .blocksByRoot) ∧ blocks.map (·.message.block.slot) = [1]) ∧
      ∃ blocks : List SignedBlockWithAttestation,
        StoreReqRespHandler.onRequest anchorEncoder (fun _ => 0#256)
            ⟨oneImported.live, oneImported.store⟩ (.blocksByRange ⟨0, 4, 1⟩) =
          .ok (blocks.map .blocksByRange) ∧ blocks.map (·.message.block.slot) = [0, 1] := by
  obtain ⟨roots, range⟩ := requests_answered noopSignatureVerifier anchorGenesis
    (.seed anchorGenesis ::
      gossipCalls ((buildBlocks anchorSsz noopSignatureVerifier twoFinalized anchorGenesis).take 1))
    anchorEncoder (fun _ => 0#256) (by decide +kernel)
  constructor
  · obtain ⟨blocks, hanswer, hblocks, -⟩ :=
      roots ⟨[oneImported.live.latestBlockHeader.hashTreeRoot anchorSsz, 0#256]⟩
    refine ⟨blocks, hanswer, ?_⟩
    have hslots := congrArg (List.map Block.slot) hblocks
    rw [List.map_map] at hslots
    exact hslots.trans (by decide +kernel)
  · obtain ⟨blocks, hanswer, hblocks⟩ := range ⟨0, 4, 1⟩
    refine ⟨blocks, hanswer, ?_⟩
    have hslots := congrArg (List.map Block.slot) hblocks
    rw [List.map_map] at hslots
    exact hslots.trans (by decide +kernel)

end Run

end NodeStore

/-! ## Imports -/

/-- The store of a node between two imports. -/
def ProducerCells.nodeStore (cells : ProducerCells) : NodeStore := ⟨cells.store, cells.live, none⟩

namespace NodeImport

variable {order : List Attestation → List Attestation} {K : Type} {node : SigningNode K}
  {cells after : ProducerCells}

/-- **An import is a run of calls.** -/
theorem apply_calls {step : NodeImport}
    (h : Returns (apply ssz verifier order node cells step) after) :
    ∃ calls, cells.nodeStore.run ssz verifier calls = after.nodeStore := by
  cases step with
  | gossip signed =>
    cases returns_pure.mp h
    exact ⟨[.putSignedBlock signed], NodeStore.handleGossipBlock_call cells signed⟩
  | produce now =>
    cases returns_pure.mp h
    rw [ProducerCells.pass_eq]
    cases cells.proposalSlot node now with
    | none => exact ⟨[], rfl⟩
    | some slot =>
      rcases @attempts_cells ssz order K node cells 2 slot with
        ⟨hlive, hstore⟩ | ⟨signed, post, -, -, hput⟩
      · exact ⟨[], by rw [ProducerCells.nodeStore, ← hlive, ← hstore]; rfl⟩
      · exact ⟨[.putPrevalidatedSignedBlock signed post],
          congrArg cells.nodeStore.afterPut hput⟩
  | backfill fetched =>
    obtain ⟨⟨result, views⟩, himport, h⟩ := returns_bind.mp h
    cases returns_pure.mp h
    exact NodeStore.importBackfillChain_calls himport
  | range fetched =>
    obtain ⟨⟨completed, views⟩, himport, h⟩ := returns_bind.mp h
    cases returns_pure.mp h
    exact NodeStore.importStreamedRangeChain_calls himport
  | others forkChoice pending =>
    cases returns_pure.mp h
    exact ⟨[], rfl⟩

/-- **Whatever a node imports, its store sees a run of calls.** -/
theorem run_calls {steps : List NodeImport}
    (h : Returns (run ssz verifier order node steps cells) after) :
    ∃ calls, cells.nodeStore.run ssz verifier calls = after.nodeStore := by
  induction steps generalizing cells with
  | nil =>
    cases returns_pure.mp h
    exact ⟨[], rfl⟩
  | cons step rest ih =>
    obtain ⟨next, hstep, h⟩ := returns_bind.mp h
    obtain ⟨first, hfirst⟩ := apply_calls hstep
    obtain ⟨others, hothers⟩ := ih h
    exact ⟨first ++ others, by rw [NodeStore.run_append, hfirst, hothers]⟩

/-- The law at three imports. -/
theorem run_calls_threeImports :
    ∃ calls, ProducerCells.started.nodeStore.run anchorSsz noopSignatureVerifier calls =
      (sampleCells threeImports).nodeStore :=
  run_calls (Calls.Attempt.returns_getD (by decide +kernel))

end NodeImport

end Peam
