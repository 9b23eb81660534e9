import Peam.Transition

/-!
# The file store

`src/storage/file_store.rs` over `canonical_db.rs` and `pending.rs`. Blobs are keyed by block root:
the state table holds, under a block's root, the state that block leads to. The slot indexes and the
pending ring live in memory and are written out with the metadata, by a bundle write or when a flush
finds them dirty.

A transaction of the database is atomic and succeeds. A blob is stored as the value it reads back
as: a validator's encoding leaves its balance out, so a state reads back with balances of zero
(`State.readBack`). A signed block is kept as the value that was put; `Peam.Encode` has the bytes of
its blob, and not every one of them reads back.

The put functions write last, so a failed put leaves store and state alone, and is an `Outcome` of
the pair.
-/

namespace Peam

open Calls (Outcome)

/-! ## Blobs -/

/-- A validator as its encoding reads back. -/
def Validator.readBack (validator : Validator) : Validator := { validator with balance := 0 }

/-- A state as its blob reads back. -/
def State.readBack (state : State) : State :=
  { state with
    validators :=
      ⟨state.validators.items.map Validator.readBack,
        (List.length_map Validator.readBack).trans_le state.validators.bounded⟩ }

/-! ## The pending ring -/

structure PendingEntry where
  slot : Nat
  blockRoot : Bytes32
  deriving DecidableEq

/-- `PendingSlotCache`: buckets addressed by `slot % capacity`. -/
structure PendingSlotCache where
  entries : List (Option PendingEntry)
  count : Nat
  deriving DecidableEq

namespace PendingSlotCache

def new (capacity : Nat) : PendingSlotCache := ⟨List.replicate capacity none, 0⟩

/-- `insert`: the bucket is overwritten, whatever slot it held. -/
def insert (cache : PendingSlotCache) (slot : Nat) (blockRoot : Bytes32) : PendingSlotCache :=
  let idx := slot % cache.entries.length
  { entries := cache.entries.set idx (some ⟨slot, blockRoot⟩)
    count := if (cache.entries.getD idx none).isNone then cache.count + 1 else cache.count }

/-- `get`: a bucket of another slot is no hit. -/
def get (cache : PendingSlotCache) (slot : Nat) : Option PendingEntry :=
  (cache.entries.getD (slot % cache.entries.length) none).filter (·.slot = slot)

/-- `roots`. -/
def roots (cache : PendingSlotCache) : List Bytes32 :=
  (cache.entries.filterMap id).map (·.blockRoot)

/-- `entries_leq`. -/
def entriesLeq (cache : PendingSlotCache) (upperInclusive : Nat) : List PendingEntry :=
  (cache.entries.filterMap id).filter (·.slot ≤ upperInclusive)

/-- `len`. -/
def len (cache : PendingSlotCache) : Nat := cache.count

/-- The loop of `drain_leq_with` and of `retain`: buckets whose entry is to go are emptied and
counted off, and the entries are handed out. -/
def clear (gone : PendingEntry → Bool) : List (Option PendingEntry) → Nat →
    List (Option PendingEntry) × Nat × List PendingEntry
  | [], count => ([], count, [])
  | none :: rest, count =>
    let cleared := clear gone rest count
    (none :: cleared.1, cleared.2)
  | some value :: rest, count =>
    if gone value then
      let cleared := clear gone rest (count - 1)
      (none :: cleared.1, cleared.2.1, value :: cleared.2.2)
    else
      let cleared := clear gone rest count
      (some value :: cleared.1, cleared.2)

/-- `drain_leq_with`, with the entries it visits. -/
def drainLeqWith (cache : PendingSlotCache) (upperInclusive : Nat) :
    PendingSlotCache × List PendingEntry :=
  let cleared := clear (·.slot ≤ upperInclusive) cache.entries cache.count
  (⟨cleared.1, cleared.2.1⟩, cleared.2.2)

/-- `retain`. -/
def retain (cache : PendingSlotCache) (keep : Nat → Bytes32 → Bool) : PendingSlotCache :=
  let cleared := clear (fun entry => !keep entry.slot entry.blockRoot) cache.entries cache.count
  ⟨cleared.1, cleared.2.1⟩

end PendingSlotCache

/-! ## Tables -/

/-- A slot index: slot to block root. -/
abbrev SlotIndex := AList (fun _ : Nat => Bytes32)

/-- Insert the rows in order; a later row of a slot overwrites. -/
def SlotIndex.upsert (index : SlotIndex) (rows : List PendingEntry) : SlotIndex :=
  rows.foldl (fun index row => index.insert row.slot row.blockRoot) index

/-- The metadata rows. -/
structure StoreMeta where
  head : Option Bytes32
  justified : Option Bytes32
  finalized : Option Bytes32
  finalizedSlot : Option Nat
  deriving DecidableEq

/-- The tables of `canonical.redb`. -/
structure CanonicalDb where
  stateBlobs : RapidHashMap State
  blockBlobs : RapidHashMap Block
  signedBlobs : RapidHashMap SignedBlockWithAttestation
  stateSlots : SlotIndex
  blockSlots : SlotIndex
  stateRootIndex : RapidHashMap Bytes32
  stored : StoreMeta

structure FileStore where
  canonicalDb : CanonicalDb
  stateBySlot : SlotIndex
  stateRootToBlockRoot : RapidHashMap Bytes32
  blockBySlot : SlotIndex
  pendingBlocks : PendingSlotCache
  live : StoreMeta
  indexDirty : Bool
  metaDirty : Bool

/-- `PENDING_WINDOW_CAP`. -/
def pendingWindowCap : Nat := 2048

namespace FileStore

/-- `open` on a fresh directory. -/
def fresh : FileStore where
  canonicalDb := ⟨∅, ∅, ∅, ∅, ∅, ∅, ⟨none, none, none, none⟩⟩
  stateBySlot := ∅
  stateRootToBlockRoot := ∅
  blockBySlot := ∅
  pendingBlocks := PendingSlotCache.new pendingWindowCap
  live := ⟨none, none, none, none⟩
  indexDirty := false
  metaDirty := false

/-! ## Reads -/

/-- `load_state_by_block_root`. -/
def loadStateByBlockRoot (store : FileStore) (root : Bytes32) : Option State :=
  store.canonicalDb.stateBlobs.lookup root

/-- `get_state`: a state root is translated to its block root first. -/
def getState (store : FileStore) (root : Bytes32) : Option State :=
  store.loadStateByBlockRoot ((store.stateRootToBlockRoot.lookup root).getD root)

/-- `get_block`. -/
def getBlock (store : FileStore) (root : Bytes32) : Option Block :=
  store.canonicalDb.blockBlobs.lookup root

/-- The signed block a put has written under the root. -/
def signedRow (store : FileStore) (root : Bytes32) : Option SignedBlockWithAttestation :=
  store.canonicalDb.signedBlobs.lookup root

/-- `get_block_by_slot`: the pending window first, then the index. -/
def getBlockBySlot (store : FileStore) (slot : Nat) : Option Block :=
  match store.pendingBlocks.get slot with
  | some entry => store.getBlock entry.blockRoot
  | none => (store.blockBySlot.lookup slot).bind store.getBlock

/-! ## Metadata -/

/-- `flush_canonical`: rewrite indexes and metadata if something is dirty. -/
def flushCanonical (store : FileStore) : FileStore :=
  if store.indexDirty = false ∧ store.metaDirty = false then store
  else
    { store with
      canonicalDb :=
        { store.canonicalDb with
          stateSlots := store.stateBySlot
          blockSlots := store.blockBySlot
          stateRootIndex := store.stateRootToBlockRoot
          stored := store.live }
      indexDirty := false
      metaDirty := false }

/-- `promote_finalized_slot_in_memory`: pending rows up to the slot become canonical. -/
def promoteFinalizedSlotInMemory (store : FileStore) (finalizedSlot : Nat) : FileStore :=
  let drained := store.pendingBlocks.drainLeqWith finalizedSlot
  { store with
    blockBySlot := store.blockBySlot.upsert drained.2
    stateBySlot := store.stateBySlot.upsert drained.2
    pendingBlocks := drained.1 }

/-- `set_head`. -/
def setHead (store : FileStore) (root : Bytes32) : FileStore :=
  { store with live := { store.live with head := some root }, metaDirty := true }

/-- `set_justified`. -/
def setJustified (store : FileStore) (root : Bytes32) : FileStore :=
  { store with live := { store.live with justified := some root }, metaDirty := true }

/-- `set_finalized_checkpoint`: a lower slot than the current one is ignored. -/
def setFinalizedCheckpoint (store : FileStore) (checkpoint : Checkpoint) : FileStore :=
  if ∃ current ∈ store.live.finalizedSlot, checkpoint.slot < current then store
  else
    let store :=
      { store with
        live :=
          { store.live with
            finalized := some checkpoint.root, finalizedSlot := some checkpoint.slot }
        metaDirty := true }
    (store.promoteFinalizedSlotInMemory checkpoint.slot).flushCanonical

/-- `set_finalized`: an unknown root is ignored, a known one gives the slot. -/
def setFinalized (store : FileStore) (root : Bytes32) : FileStore :=
  match store.getBlock root with
  | none => store
  | some block => store.setFinalizedCheckpoint ⟨root, block.slot⟩

/-- `promote_finalized`. The promotion itself marks nothing dirty. -/
def promoteFinalized (store : FileStore) (finalizedSlot : Nat) : FileStore :=
  (store.promoteFinalizedSlotInMemory finalizedSlot).flushCanonical

/-! ## Opening and dropping -/

/-- `open`, once the tables exist: indexes and metadata as they are on disk, and no pending rows. A
finalized root without its slot gets the slot of its block. -/
def openOn (db : CanonicalDb) : FileStore where
  canonicalDb := db
  stateBySlot := db.stateSlots
  stateRootToBlockRoot := db.stateRootIndex
  blockBySlot := db.blockSlots
  pendingBlocks := PendingSlotCache.new pendingWindowCap
  live :=
    { db.stored with
      finalizedSlot := db.stored.finalizedSlot.orElse fun _ =>
        db.stored.finalized.bind fun root => (db.blockBlobs.lookup root).map (·.slot) }
  indexDirty := false
  metaDirty := false

/-- `Drop`: what it leaves on disk. -/
def dropped (store : FileStore) : CanonicalDb :=
  if store.indexDirty ∨ store.metaDirty then store.flushCanonical.canonicalDb
  else store.canonicalDb

/-- Dropping the store and opening it again. -/
def reopened (store : FileStore) : FileStore := openOn store.dropped

/-! ## Single puts -/

/-- `index_block_slot`: past the finalized slot a block goes to the pending window. -/
def indexBlockSlot (store : FileStore) (slot : Nat) (root : Bytes32) : FileStore :=
  if ∃ finalizedSlot ∈ store.live.finalizedSlot, slot > finalizedSlot then
    { store with pendingBlocks := store.pendingBlocks.insert slot root }
  else
    { store with blockBySlot := store.blockBySlot.insert slot root, indexDirty := true }

/-- `put_block`. -/
def putBlock (store : FileStore) (root : Bytes32) (block : Block) : FileStore :=
  { store with
    canonicalDb :=
      { store.canonicalDb with
        blockBlobs := store.canonicalDb.blockBlobs.insert root block } }.indexBlockSlot
    block.slot root

/-- `put_state`: the blob and the row of its state root are written at once, the slot row later. -/
def putState (ssz : Ssz) (store : FileStore) (root : Bytes32) (state : State) : FileStore :=
  let stateRoot := state.hashTreeRoot ssz
  { store with
    canonicalDb :=
      { store.canonicalDb with
        stateBlobs := store.canonicalDb.stateBlobs.insert root state.readBack
        stateRootIndex := store.canonicalDb.stateRootIndex.insert stateRoot root }
    stateRootToBlockRoot := store.stateRootToBlockRoot.insert stateRoot root
    stateBySlot := store.stateBySlot.insert state.slot root
    indexDirty := true }

/-! ## Bundles -/

/-- `persist_signed_block_bundle_inner`: the three blobs under the block's root, the slot rows and
the metadata, in one transaction and then in memory. -/
def persistSignedBlockBundleInner (store : FileStore) (root : Bytes32)
    (signed : SignedBlockWithAttestation) (persistedState : State)
    (metaJustified metaFinalized : Checkpoint) (updateHead : Bool) : FileStore :=
  let block := signed.message.block
  let next : StoreMeta :=
    if updateHead then
      ⟨some root, some metaJustified.root, some metaFinalized.root, some metaFinalized.slot⟩
    else store.live
  let finSlot := next.finalizedSlot.getD 0
  let blockCanonical : Bool := ¬ ∃ finalizedSlot ∈ next.finalizedSlot, block.slot > finalizedSlot
  let own : PendingEntry := ⟨block.slot, root⟩
  let promotions := store.pendingBlocks.entriesLeq finSlot
  let pendingBlocks :=
    if blockCanonical then store.pendingBlocks else store.pendingBlocks.insert block.slot root
  let drained := pendingBlocks.drainLeqWith finSlot
  { canonicalDb :=
      { stateBlobs := store.canonicalDb.stateBlobs.insert root persistedState.readBack
        blockBlobs := store.canonicalDb.blockBlobs.insert root block
        signedBlobs := store.canonicalDb.signedBlobs.insert root signed
        stateSlots := store.canonicalDb.stateSlots.upsert (own :: promotions)
        blockSlots := store.canonicalDb.blockSlots.upsert
          (if blockCanonical then own :: promotions else promotions)
        stateRootIndex := store.canonicalDb.stateRootIndex.insert block.stateRoot root
        stored := next }
    stateRootToBlockRoot := store.stateRootToBlockRoot.insert block.stateRoot root
    blockBySlot :=
      (if blockCanonical then store.blockBySlot.upsert [own] else store.blockBySlot).upsert
        drained.2
    stateBySlot := (store.stateBySlot.upsert [own]).upsert drained.2
    pendingBlocks := drained.1
    live := next
    indexDirty := false
    metaDirty := false }

/-- `persist_signed_block_bundle_from_state`. -/
def persistSignedBlockBundleFromState (store : FileStore) (root : Bytes32)
    (signed : SignedBlockWithAttestation) (persistedState : State)
    (metaJustified metaFinalized : Checkpoint) : FileStore :=
  store.persistSignedBlockBundleInner root signed persistedState metaJustified metaFinalized true

/-- `put_anchor_signed_block`. -/
def putAnchorSignedBlock (store : FileStore) (root : Bytes32)
    (signed : SignedBlockWithAttestation) (state : State) : FileStore :=
  store.persistSignedBlockBundleFromState root signed state state.latestJustified
    state.latestFinalized

section Imports

variable (ssz : Ssz) (verifier : SignatureVerifier)

/-- `replay_signed_block_from_parent`. -/
def replaySignedBlockFromParent (store : FileStore) (signed : SignedBlockWithAttestation) :
    Outcome State :=
  match store.loadStateByBlockRoot signed.message.block.parentRoot with
  | none => .error (.err "parent state root missing in store")
  | some parentState =>
    match processSignedBlock ssz verifier signed parentState with
    | .error e _ => .error e
    | .ok () replayed => .ok replayed

/-- The later of two checkpoints, the new one on a tie. -/
def laterCheckpoint (old new : Checkpoint) : Checkpoint :=
  if new.slot < old.slot then old else new

/-- `put_signed_block_inner`. -/
def putSignedBlockInner (store : FileStore) (root : Bytes32) (signed : SignedBlockWithAttestation)
    (state : State) : Outcome (FileStore × State) := do
  let replayed ← store.replaySignedBlockFromParent ssz verifier signed
  let metaFinalized := laterCheckpoint state.latestFinalized replayed.latestFinalized
  let metaJustified := laterCheckpoint state.latestJustified replayed.latestJustified
  let promotesHead : Bool := replayed.slot ≥ state.slot
  let store := store.persistSignedBlockBundleInner root signed replayed metaJustified metaFinalized
    promotesHead
  if promotesHead then
    return (store,
      { replayed with latestFinalized := metaFinalized, latestJustified := metaJustified })
  else
    return (store,
      { state with
        latestJustified :=
          if metaJustified.slot > state.latestJustified.slot then metaJustified
          else state.latestJustified
        latestFinalized :=
          if metaFinalized.slot > state.latestFinalized.slot then metaFinalized
          else state.latestFinalized })

/-- `put_backfill_signed_block`. -/
def putBackfillSignedBlock (store : FileStore) (root : Bytes32)
    (signed : SignedBlockWithAttestation) (state : State) : Outcome (FileStore × State) := do
  let replayed ← store.replaySignedBlockFromParent ssz verifier signed
  Outcome.failIf (replayed.slot < state.slot) "imported block would regress local state slot"
  return (store.persistSignedBlockBundleFromState root signed replayed replayed.latestJustified
    replayed.latestFinalized, replayed)

/-- `put_prevalidated_signed_block_with_metrics`: the block is not run again, only its parent is
compared with the live state's latest header and its state root with the given post-state. -/
def putPrevalidatedSignedBlock (store : FileStore) (root : Bytes32)
    (signed : SignedBlockWithAttestation) (state postState : State) :
    Outcome (FileStore × State) := do
  let block := signed.message.block
  Outcome.failIf (block.parentRoot ≠ headRootAt ssz block.slot state)
    "block parent root does not match latest header root"
  Outcome.failIf (postState.latestBlockHeader.stateRoot ≠ block.stateRoot ∧
      postState.hashTreeRoot ssz ≠ block.stateRoot)
    "post_state root does not match block.state_root"
  let metaFinalized := laterCheckpoint state.latestFinalized postState.latestFinalized
  let metaJustified := laterCheckpoint state.latestJustified postState.latestJustified
  return (store.persistSignedBlockBundleFromState root signed postState metaJustified metaFinalized,
    { postState with latestFinalized := metaFinalized, latestJustified := metaJustified })

end Imports

end FileStore

end Peam
