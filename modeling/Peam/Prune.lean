import Peam.FileStore

/-!
# Pruning

`src/storage/prune.rs`, with the garbage collection of `canonical_db.rs` and the rebuild of the
state-root lookup. What a prune keeps is decided by slot rows: the rows from the cut on, the pinned
roots and the pending window. Whether a block is an ancestor of the head is not looked at.

The live roots are collected in a hash set, and the rebuilt lookup is filled in the order in which
the set is iterated: of two live blocks with one state root the last one stays. That order is a
parameter (`SetOrder`).
-/

namespace Peam

/-- The iteration order of a hash set of roots. -/
structure SetOrder where
  enumerate : List Bytes32 → List Bytes32
  mem_enumerate : ∀ {roots : List Bytes32} {root : Bytes32}, root ∈ enumerate roots ↔ root ∈ roots

/-- The roots a slot index names. -/
def SlotIndex.roots (index : SlotIndex) : List Bytes32 := index.entries.map (·.2)

/-- `retain` on a slot index. -/
def SlotIndex.retain (index : SlotIndex) (keep : Nat → Bytes32 → Bool) : SlotIndex :=
  ⟨index.entries.filter fun row => keep row.1 row.2, index.nodupKeys.sublist List.filter_sublist⟩

structure PruneReport where
  removedStates : Nat
  removedBlocks : Nat
  removedStateBlobs : Nat
  removedBlockBlobs : Nat
  removedSignedBlocks : Nat
  keptPinned : Nat
  deriving DecidableEq

/-- `gc_unreferenced_blobs`: state blobs go by the first set, block and signed blobs by the
second. -/
def CanonicalDb.gcUnreferencedBlobs (db : CanonicalDb)
    (keepStateBlockRoots keepBlockRoots : List Bytes32) :
    CanonicalDb :=
  { db with
    stateBlobs := db.stateBlobs.retain (· ∈ keepStateBlockRoots)
    blockBlobs := db.blockBlobs.retain (· ∈ keepBlockRoots)
    signedBlobs := db.signedBlobs.retain (· ∈ keepBlockRoots) }

namespace FileStore

/-- `pinned_roots`, those that are set. -/
def pinnedRoots (store : FileStore) : List Bytes32 :=
  [store.live.head, store.live.justified, store.live.finalized].filterMap id

/-- The roots `rebuild_live_state_root_index` goes through. -/
def liveBlockRoots (store : FileStore) : List Bytes32 :=
  store.stateBySlot.roots ++ store.pendingBlocks.roots ++ store.pinnedRoots

/-- One root of the rebuild: a block gives its state root; a state without a block is entered under
the root it was put with. -/
def indexLiveRoot (store : FileStore) (index : RapidHashMap Bytes32) (blockRoot : Bytes32) :
    RapidHashMap Bytes32 :=
  match store.getBlock blockRoot with
  | some block => index.insert block.stateRoot blockRoot
  | none =>
    if (store.loadStateByBlockRoot blockRoot).isSome then index.insert blockRoot blockRoot
    else index

/-- `rebuild_live_state_root_index`. -/
def rebuildLiveStateRootIndex (order : SetOrder) (store : FileStore) : RapidHashMap Bytes32 :=
  (order.enumerate store.liveBlockRoots).foldl store.indexLiveRoot ∅

/-- A row a prune keeps: from the cut on, or with a pinned root. -/
def keepsRow (store : FileStore) (pruneBefore slot : Nat) (root : Bytes32) : Bool :=
  pruneBefore ≤ slot || root ∈ store.pinnedRoots

/-- The rows that only their pinned root keeps. -/
def pinnedRows (store : FileStore) (pruneBefore : Nat) (index : SlotIndex) : Nat :=
  index.entries.countP fun row => ¬ pruneBefore ≤ row.1 ∧ row.2 ∈ store.pinnedRoots

/-- The store once the rows are cut, the lookup is rebuilt and both are flushed. -/
def withRowsPruned (order : SetOrder) (store : FileStore) (pruneBefore : Nat) : FileStore :=
  let cut :=
    { store with
      stateBySlot := store.stateBySlot.retain (store.keepsRow pruneBefore)
      blockBySlot := store.blockBySlot.retain (store.keepsRow pruneBefore) }
  { cut with
    stateRootToBlockRoot := cut.rebuildLiveStateRootIndex order
    indexDirty := true }.flushCanonical

/-- The roots whose state blobs are referenced. -/
def keepStateBlockRoots (store : FileStore) : List Bytes32 :=
  store.stateBySlot.roots ++ store.pinnedRoots ++ store.pendingBlocks.roots

/-- The roots whose block and signed-block blobs are referenced. -/
def keepBlockRoots (store : FileStore) : List Bytes32 :=
  store.blockBySlot.roots ++ store.pinnedRoots ++ store.pendingBlocks.roots

/-- `prune`. -/
def prune (order : SetOrder) (store : FileStore) (finalizedSlot keepRecentSlots : Nat) :
    FileStore × PruneReport :=
  let pruneBefore := finalizedSlot - keepRecentSlots
  let cut := store.withRowsPruned order pruneBefore
  let db := cut.canonicalDb.gcUnreferencedBlobs cut.keepStateBlockRoots cut.keepBlockRoots
  ({ cut with canonicalDb := db },
    { removedStates := store.stateBySlot.entries.length - cut.stateBySlot.entries.length
      removedBlocks := store.blockBySlot.entries.length - cut.blockBySlot.entries.length
      removedStateBlobs :=
        cut.canonicalDb.stateBlobs.entries.length - db.stateBlobs.entries.length
      removedBlockBlobs :=
        cut.canonicalDb.blockBlobs.entries.length - db.blockBlobs.entries.length
      removedSignedBlocks :=
        cut.canonicalDb.signedBlobs.entries.length - db.signedBlobs.entries.length
      keptPinned := store.pinnedRows pruneBefore store.stateBySlot +
        store.pinnedRows pruneBefore store.blockBySlot })

end FileStore

end Peam
