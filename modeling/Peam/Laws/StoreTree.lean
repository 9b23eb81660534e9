import Peam.Laws.FileStore
import Peam.Laws.Identity
import Peam.Laws.Lineage

/-!
# What stored states say of stored blocks

A state names earlier blocks in its history, and one of them as finalized. `Tells base`: from slot
`base` on, a history entry is the root of a stored block of its slot, and so is the finalized
checkpoint. A block that is run on a stored state keeps this (`Tells.advance`), because a checkpoint
can only be finalized as an entry of the history.

`Tree base` says it of all states of a store. Every put of a block with the state that its parent's
stored state leads to keeps it (`Tree.put`), if the block is not put over one of another slot.
-/

namespace Peam

variable {ssz : Ssz} {verifier : SignatureVerifier} {state' : State} {checkpoint : Checkpoint}
  {block : Block} {base' : Nat}

/-! ## The finalized checkpoint of a transition -/

private theorem InHistory.congr {state : State}
    (same : state'.historicalBlockHashes = state.historicalBlockHashes)
    (entry : InHistory state checkpoint) : InHistory state' checkpoint := by
  rw [InHistory, same]
  exact entry

/-- A loop moves the finalized slot forward only, and to sources of votes that are entries of the
history. -/
theorem attestationLoop_finalized {n : Nat} {latestRoot : Bytes32} {slots : RapidHashMap Nat}
    {attestations : List Attestation} {loop loop' : AttestationLoop n}
    (sync : loop.finalizedSlot = loop.state.latestFinalized.slot)
    (run : attestationLoop latestRoot slots attestations loop = .ok () loop') :
    loop.state.latestFinalized.slot ≤ loop'.state.latestFinalized.slot ∧
      (loop'.state.latestFinalized = loop.state.latestFinalized ∨
        InHistory loop'.state loop'.state.latestFinalized ∧
          ∃ vote ∈ attestations, vote.data.source = loop'.state.latestFinalized) := by
  have h := @attestationLoop_rule n latestRoot slots
    (fun _ now => now.finalizedSlot = now.state.latestFinalized.slot ∧
      loop.state.latestFinalized.slot ≤ now.state.latestFinalized.slot ∧
      (now.state.latestFinalized = loop.state.latestFinalized ∨
        InHistory now.state now.state.latestFinalized ∧
          ∃ vote ∈ attestations, vote.data.source = now.state.latestFinalized))
    attestations loop loop' History.empty ?_ ⟨sync, Nat.le_refl _, .inl rfl⟩ run
  · exact h.2
  · intro _ attestation before after _ hmem hbefore step
    obtain ⟨hsync, hle, hentry⟩ := hbefore
    have hmoved := step.finalized_le hsync
    cases step with
    | skipped => exact ⟨hsync, hle, hentry⟩
    | counted => exact ⟨hsync, hle, hentry⟩
    | justified => exact ⟨hsync, hle, hentry⟩
    | finalized eligible =>
      refine ⟨rfl, hle.trans hmoved, .inr ⟨?_, attestation, hmem, rfl⟩⟩
      exact ⟨eligible.source_root_ne, eligible.source_matches⟩

/-- The finalized checkpoint a header is staged with: the first one after genesis gives it the root
of its parent. -/
def stagedFinalized (block : Block) (state : State) : Checkpoint :=
  if state.latestBlockHeader.slot = 0 then ⟨block.parentRoot, state.latestFinalized.slot⟩
  else state.latestFinalized

private theorem stagedFinalized_slot (block : Block) (state : State) :
    (stagedFinalized block state).slot = state.latestFinalized.slot := by
  unfold stagedFinalized
  split <;> rfl

/-- **What a transition finalizes**, from any state. -/
theorem stateTransitionInner_finalized {state : State}
    (h : stateTransitionInner ssz block state = .ok () state') :
    state.latestFinalized.slot ≤ state'.latestFinalized.slot ∧
      (state'.latestFinalized = stagedFinalized block state ∨
        InHistory state' state'.latestFinalized ∧
          ∃ vote ∈ block.body.attestations.items, vote.data.source = state'.latestFinalized) := by
  obtain ⟨staged, loop, hstage, hrun, hfinish⟩ := stateTransitionInner_ok h
  have hstaged : staged.latestFinalized = stagedFinalized block state :=
    (stageBlock_ok hstage).finalized_eq
  have hsame := hfinish.sameCheckpoints
  obtain ⟨hle, hentry⟩ := attestationLoop_finalized rfl hrun
  have hstart : (AttestationLoop.start staged).state.latestFinalized =
      stagedFinalized block state := hstaged
  rw [hstart] at hle hentry
  rw [hsame.finalized_eq]
  rw [stagedFinalized_slot] at hle
  exact ⟨hle, hentry.imp_right (And.imp_left (InHistory.congr hsame.history_eq))⟩

/-- A block none of whose votes has a later source finalizes nothing later. -/
theorem stateTransitionInner_finalized_le {state : State} {bound : Nat}
    (h : stateTransitionInner ssz block state = .ok () state')
    (before : state.latestFinalized.slot ≤ bound)
    (votes : ∀ vote ∈ block.body.attestations.items, vote.data.source.slot ≤ bound) :
    state'.latestFinalized.slot ≤ bound := by
  rcases (stateTransitionInner_finalized h).2 with hstaged | ⟨-, vote, hvote, hsource⟩
  · rw [hstaged, stagedFinalized_slot]
    exact before
  · rw [← hsource]
    exact votes vote hvote

namespace FileStore

/-! ## Checkpoints the store has -/

/-- The checkpoint is a stored block of its slot. -/
def Holds (store : FileStore) (checkpoint : Checkpoint) : Prop :=
  ∃ block ∈ store.getBlock checkpoint.root, block.slot = checkpoint.slot
  deriving Decidable

/-- Whatever is stored under the root has the block's slot. -/
def NoClash (store : FileStore) (root : Bytes32) (block : Block) : Prop :=
  ∀ old ∈ store.getBlock root, old.slot = block.slot
  deriving Decidable

variable {store store' : FileStore} {base : Nat} {root : Bytes32}
  {signed : SignedBlockWithAttestation} {state post : State} {justified finalized : Checkpoint}
  {updateHead : Bool}

/-- A block that is not stored clashes with none. -/
theorem noClash_of_none {block : Block} (h : store.getBlock root = none) :
    store.NoClash root block := by
  intro old hold
  rw [h] at hold
  cases hold

/-- A bundle adds its block. -/
theorem getBlock_bundle (r : Bytes32) :
    (store.persistSignedBlockBundleInner root signed state justified finalized updateHead).getBlock
      r = if r = root then some signed.message.block else store.getBlock r :=
  lookup_insert_eq

/-- A bundle adds its state, as it reads back. -/
theorem loadState_bundle (r : Bytes32) :
    (store.persistSignedBlockBundleInner root signed state justified finalized
      updateHead).loadStateByBlockRoot r =
        if r = root then some state.readBack else store.loadStateByBlockRoot r :=
  lookup_insert_eq

/-- A bundle leaves every checkpoint it held. -/
theorem Holds.bundle (free : store.NoClash root signed.message.block)
    (held : store.Holds checkpoint) :
    (store.persistSignedBlockBundleInner root signed state justified finalized updateHead).Holds
      checkpoint := by
  obtain ⟨block, hblock, hslot⟩ := held
  rw [Holds, getBlock_bundle]
  split
  · next hroot =>
    refine ⟨_, rfl, ?_⟩
    rw [← free block (hroot ▸ hblock), hslot]
  · exact ⟨block, hblock, hslot⟩

/-- The block of a bundle is held. -/
theorem holds_bundle_self :
    (store.persistSignedBlockBundleInner root signed state justified finalized updateHead).Holds
      ⟨root, signed.message.block.slot⟩ := by
  rw [Holds, getBlock_bundle, if_pos rfl]
  exact ⟨_, rfl, rfl⟩

theorem loadState_congr (same : SameBlobs store store') (r : Bytes32) :
    store'.loadStateByBlockRoot r = store.loadStateByBlockRoot r := by
  rw [loadStateByBlockRoot, same.states]
  rfl

/-- What is stored is read off the blobs. -/
theorem Holds.congr (same : SameBlobs store store') (held : store.Holds checkpoint) :
    store'.Holds checkpoint := by
  rw [Holds, getBlock, same.blocks]
  exact held

/-! ## States -/

/-- What a state says of the blocks of a store, from slot `base` on. -/
structure Tells (store : FileStore) (base : Nat) (state : State) : Prop where
  length_history : state.historicalBlockHashes.items.length = state.latestBlockHeader.slot
  history : ∀ ⦃i x⦄, base ≤ i → state.historicalBlockHashes.items[i]? = some x →
    x ≠ Bytes32.zero → store.Holds ⟨x, i⟩
  finalized_le : state.latestFinalized.slot ≤ state.latestBlockHeader.slot
  finalized : base ≤ state.latestFinalized.slot → store.Holds state.latestFinalized

namespace Tells

section

variable (tells : store.Tells base state)

include tells

/-- A store that holds more tells as much. -/
theorem mono
    (grows : ∀ ⦃checkpoint⦄, store.Holds checkpoint → store'.Holds checkpoint) :
    store'.Tells base state where
  length_history := tells.length_history
  history _ _ hbase hget hne := grows (tells.history hbase hget hne)
  finalized_le := tells.finalized_le
  finalized hbase := grows (tells.finalized hbase)

theorem weaken (le : base ≤ base') : store.Tells base' state where
  length_history := tells.length_history
  history _ _ hbase := tells.history (le.trans hbase)
  finalized_le := tells.finalized_le
  finalized hbase := tells.finalized (le.trans hbase)

private theorem readBack : store.Tells base state.readBack :=
  ⟨tells.length_history, tells.history, tells.finalized_le, tells.finalized⟩

/-- A put that clashes with nothing tells as much. -/
theorem bundle {other : State}
    (free : store.NoClash root signed.message.block) :
    (store.persistSignedBlockBundleInner root signed other justified finalized updateHead).Tells
      base state :=
  tells.mono fun _ => Holds.bundle free

theorem congr (same : SameBlobs store store') :
    store'.Tells base state :=
  tells.mono fun _ => Holds.congr same

/-- **Running a block keeps it**, if the parent's root is that of a block of its slot. -/
theorem advance (parent : store.Holds ⟨block.parentRoot, state.latestBlockHeader.slot⟩)
    (h : stateTransitionInner ssz block state = .ok () post) : store.Tells base post := by
  have hext := stateTransitionInner_extends h
  obtain ⟨-, hfinal⟩ := stateTransitionInner_finalized h
  have hlength : post.historicalBlockHashes.items.length = post.latestBlockHeader.slot := by
    have hlt := hext.slot_lt
    rw [hext.history_eq, hext.slot_eq, List.length_append, List.length_cons,
      List.length_replicate, tells.length_history]
    omega
  have hhistory : ∀ ⦃i x⦄, base ≤ i → post.historicalBlockHashes.items[i]? = some x →
      x ≠ Bytes32.zero → store.Holds ⟨x, i⟩ := by
    intro i x hbase hget hne
    rcases hext.entry hget hne with hold | ⟨hend, rfl⟩
    · exact tells.history hbase hold hne
    · rw [hend, tells.length_history]
      exact parent
  refine ⟨hlength, hhistory, ?_, ?_⟩
  · rcases hfinal with hstaged | ⟨hentry, -⟩
    · rw [hstaged, stagedFinalized_slot, hext.slot_eq]
      exact tells.finalized_le.trans hext.slot_lt.le
    · rw [← hlength]
      exact (List.getElem?_eq_some_iff.mp hentry.2).1.le
  · intro hbase
    rcases hfinal with hstaged | ⟨hentry, -⟩
    · rw [hstaged] at hbase ⊢
      rw [stagedFinalized_slot] at hbase
      unfold stagedFinalized
      split
      · next hzero =>
        have hle := tells.finalized_le
        have hslot : state.latestFinalized.slot = state.latestBlockHeader.slot := by omega
        rw [hslot]
        exact parent
      · exact tells.finalized hbase
    · exact hhistory hbase hentry.2 hentry.1

end

end Tells

/-! ## The tree -/

/-- Every stored state is under the root of a block of its header's slot, and tells of stored
blocks. -/
structure Tree (store : FileStore) (base : Nat) : Prop where
  slotted : ∀ ⦃r state⦄, store.loadStateByBlockRoot r = some state →
    store.Holds ⟨r, state.latestBlockHeader.slot⟩
  tells : ∀ ⦃r state⦄, store.loadStateByBlockRoot r = some state → store.Tells base state

namespace Tree

theorem congr (tree : store.Tree base) (same : SameBlobs store store') : store'.Tree base := by
  constructor
  · intro r state h
    rw [loadState_congr same] at h
    exact (tree.slotted h).congr same
  · intro r state h
    rw [loadState_congr same] at h
    exact (tree.tells h).congr same

theorem weaken (tree : store.Tree base) (le : base ≤ base') : store.Tree base' :=
  ⟨tree.slotted, fun _ _ h => (tree.tells h).weaken le⟩

/-- **A put keeps the tree.** -/
theorem put (tree : store.Tree base) (free : store.NoClash root signed.message.block)
    (tells : (store.persistSignedBlockBundleInner root signed post justified finalized
      updateHead).Tells base post)
    (slot : post.latestBlockHeader.slot = signed.message.block.slot) :
    (store.persistSignedBlockBundleInner root signed post justified finalized updateHead).Tree
      base := by
  constructor
  · intro r state h
    rw [loadState_bundle] at h
    split at h
    · next hroot =>
      cases h
      rw [hroot, show post.readBack.latestBlockHeader.slot = signed.message.block.slot from slot]
      exact holds_bundle_self
    · exact (tree.slotted h).bundle free
  · intro r state h
    rw [loadState_bundle] at h
    split at h
    · cases h
      exact tells.readBack
    · exact (tree.tells h).bundle free

/-- A block run on the state stored for its parent. -/
theorem advance (tree : store.Tree base)
    (parent : store.loadStateByBlockRoot block.parentRoot = some state)
    (h : stateTransitionInner ssz block state = .ok () post) : store.Tells base post :=
  (tree.tells parent).advance (tree.slotted parent) h

end Tree

/-- A replay is an import on the parent's stored state. -/
theorem replaySignedBlockFromParent_ok :
    store.replaySignedBlockFromParent ssz verifier signed = .ok post ↔
      ∃ parent, store.loadStateByBlockRoot signed.message.block.parentRoot = some parent ∧
        processSignedBlock ssz verifier signed parent = .ok () post := by
  unfold replaySignedBlockFromParent
  cases hload : store.loadStateByBlockRoot signed.message.block.parentRoot with
  | none => simp
  | some parent =>
    cases hrun : processSignedBlock ssz verifier signed parent with
    | error e _ => simp [hrun]
    | ok _ replayed => simp [hrun]

/-- A replayed block runs on the state stored for its parent. -/
theorem Tree.replay (tree : store.Tree base)
    (h : store.replaySignedBlockFromParent ssz verifier signed = .ok post) :
    store.Tells base post ∧ post.slot = signed.message.block.slot ∧
      post.latestBlockHeader = signed.message.block.header ssz := by
  obtain ⟨parent, hparent, hrun⟩ := replaySignedBlockFromParent_ok.mp h
  have htransition := processSignedBlock_transition hrun
  exact ⟨tree.advance hparent htransition, stateTransitionInner_header htransition⟩

end FileStore

end Peam
