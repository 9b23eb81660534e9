import Peam.FileStore

/-!
# Laws of the file store
-/

namespace Peam

open Calls (Outcome)

namespace FileStore

variable {store store' store'' : FileStore}

/-- The blobs stay. -/
structure SameBlobs (store store' : FileStore) : Prop where
  states : store'.canonicalDb.stateBlobs = store.canonicalDb.stateBlobs
  blocks : store'.canonicalDb.blockBlobs = store.canonicalDb.blockBlobs
  signed : store'.canonicalDb.signedBlobs = store.canonicalDb.signedBlobs

theorem SameBlobs.trans (h : SameBlobs store store') (h' : SameBlobs store' store'') :
    SameBlobs store store'' :=
  ⟨h'.states.trans h.states, h'.blocks.trans h.blocks, h'.signed.trans h.signed⟩

/-- Setters and flushes write no blob. -/
theorem sameBlobs_setHead (store : FileStore) (root : Bytes32) :
    SameBlobs store (store.setHead root) := ⟨rfl, rfl, rfl⟩

theorem sameBlobs_setJustified (store : FileStore) (root : Bytes32) :
    SameBlobs store (store.setJustified root) := ⟨rfl, rfl, rfl⟩

theorem sameBlobs_flushCanonical (store : FileStore) : SameBlobs store store.flushCanonical := by
  unfold flushCanonical
  split <;> exact ⟨rfl, rfl, rfl⟩

/-- A flush leaves what is in memory. -/
theorem flushCanonical_memory (store : FileStore) :
    store.flushCanonical.stateBySlot = store.stateBySlot ∧
      store.flushCanonical.blockBySlot = store.blockBySlot ∧
      store.flushCanonical.stateRootToBlockRoot = store.stateRootToBlockRoot ∧
      store.flushCanonical.pendingBlocks = store.pendingBlocks ∧
      store.flushCanonical.live = store.live := by
  unfold flushCanonical
  split <;> exact ⟨rfl, rfl, rfl, rfl, rfl⟩

theorem sameBlobs_setFinalizedCheckpoint (store : FileStore) (checkpoint : Checkpoint) :
    SameBlobs store (store.setFinalizedCheckpoint checkpoint) := by
  unfold setFinalizedCheckpoint
  split
  · exact ⟨rfl, rfl, rfl⟩
  · refine SameBlobs.trans ?_ (sameBlobs_flushCanonical _)
    exact ⟨rfl, rfl, rfl⟩

/-! ## Puts -/

section Inversion

variable {ssz : Ssz} {verifier : SignatureVerifier} {root : Bytes32}
  {signed : SignedBlockWithAttestation} {state state' post : State}

/-- The later of two checkpoints, the old one if they are even. -/
theorem laterCheckpoint_cases (old new : Checkpoint) :
    (laterCheckpoint old new = old ∨ laterCheckpoint old new = new) ∧
      old.slot ≤ (laterCheckpoint old new).slot := by
  unfold laterCheckpoint
  split
  · exact ⟨.inl rfl, Nat.le_refl _⟩
  · next hle => exact ⟨.inr rfl, Nat.not_lt.mp hle⟩

/-- What `put_signed_block` writes, and the live state it leaves: a block as far as the live state
becomes the head. -/
theorem putSignedBlockInner_ok
    (h : store.putSignedBlockInner ssz verifier root signed state = .ok (store', state')) :
    ∃ replayed, store.replaySignedBlockFromParent ssz verifier signed = .ok replayed ∧
      let finalized := laterCheckpoint state.latestFinalized replayed.latestFinalized
      let justified := laterCheckpoint state.latestJustified replayed.latestJustified
      (state.slot ≤ replayed.slot ∧
        store' = store.persistSignedBlockBundleInner root signed replayed justified finalized true ∧
        state' = { replayed with latestFinalized := finalized, latestJustified := justified }) ∨
      (replayed.slot < state.slot ∧
        store' = store.persistSignedBlockBundleInner root signed replayed justified finalized
          false ∧
        state' = { state with
          latestJustified :=
            if justified.slot > state.latestJustified.slot then justified
            else state.latestJustified
          latestFinalized :=
            if finalized.slot > state.latestFinalized.slot then finalized
            else state.latestFinalized }) := by
  obtain ⟨replayed, hreplay, h⟩ := Outcome.bind_ok.mp h
  refine ⟨replayed, hreplay, ?_⟩
  dsimp only at h ⊢
  split at h
  · next hfar =>
    rw [decide_eq_true_eq] at hfar
    cases h
    rw [decide_eq_true (p := replayed.slot ≥ state.slot) hfar]
    exact .inl ⟨hfar, rfl, rfl⟩
  · next hnear =>
    rw [decide_eq_true_eq] at hnear
    cases h
    rw [decide_eq_false (p := replayed.slot ≥ state.slot) hnear]
    exact .inr ⟨Nat.not_le.mp hnear, rfl, rfl⟩

/-- What `put_prevalidated_signed_block_with_metrics` writes, and the live state it leaves. -/
theorem putPrevalidatedSignedBlock_ok
    (h : store.putPrevalidatedSignedBlock ssz root signed state post = .ok (store', state')) :
    let finalized := laterCheckpoint state.latestFinalized post.latestFinalized
    let justified := laterCheckpoint state.latestJustified post.latestJustified
    store' = store.persistSignedBlockBundleInner root signed post justified finalized true ∧
      state' = { post with latestFinalized := finalized, latestJustified := justified } := by
  obtain ⟨⟨⟩, -, h⟩ := Outcome.bind_ok.mp h
  obtain ⟨⟨⟩, -, h⟩ := Outcome.bind_ok.mp h
  cases h
  exact ⟨rfl, rfl⟩

end Inversion

/-- A successful put of a signed block under `root`. -/
inductive PutSigned (ssz : Ssz) (verifier : SignatureVerifier) (store : FileStore)
    (root : Bytes32) (signed : SignedBlockWithAttestation) : FileStore → Prop
  | signedBlock {state state' : State} {after : FileStore} :
      store.putSignedBlockInner ssz verifier root signed state = .ok (after, state') →
        PutSigned ssz verifier store root signed after
  | backfill {state state' : State} {after : FileStore} :
      store.putBackfillSignedBlock ssz verifier root signed state = .ok (after, state') →
        PutSigned ssz verifier store root signed after
  | prevalidated {state postState state' : State} {after : FileStore} :
      store.putPrevalidatedSignedBlock ssz root signed state postState = .ok (after, state') →
        PutSigned ssz verifier store root signed after
  | anchor (state : State) :
      PutSigned ssz verifier store root signed (store.putAnchorSignedBlock root signed state)

/-- Every put of a signed block is one bundle. -/
theorem PutSigned.bundle {ssz : Ssz} {verifier : SignatureVerifier} {after : FileStore}
    {root : Bytes32} {signed : SignedBlockWithAttestation}
    (put : store.PutSigned ssz verifier root signed after) :
    ∃ state justified finalized updateHead, after =
      store.persistSignedBlockBundleInner root signed state justified finalized updateHead := by
  cases put with
  | signedBlock h =>
    obtain ⟨replayed, -, h⟩ := Outcome.bind_ok.mp h
    dsimp only at h
    split at h
    · cases h
      exact ⟨_, _, _, _, rfl⟩
    · cases h
      exact ⟨_, _, _, _, rfl⟩
  | backfill h =>
    obtain ⟨replayed, -, h⟩ := Outcome.bind_ok.mp h
    obtain ⟨-, -, h⟩ := Outcome.bind_ok.mp h
    cases h
    exact ⟨_, _, _, _, rfl⟩
  | prevalidated h =>
    obtain ⟨-, -, h⟩ := Outcome.bind_ok.mp h
    obtain ⟨-, -, h⟩ := Outcome.bind_ok.mp h
    cases h
    exact ⟨_, _, _, _, rfl⟩
  | anchor state => exact ⟨_, _, _, _, rfl⟩

end FileStore

end Peam
