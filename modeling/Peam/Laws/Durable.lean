import Peam.Laws.FileStore
import Peam.Laws.PendingRing
import Peam.Lib.WriteBehind
import Peam.Sample
import Peam.StoreCalls

/-!
# What a clean store has on disk

The store is two write-behind cells: the indexes under `index_dirty` and the metadata under
`meta_dirty`. `Settled` says that both are coherent. Most calls raise a flag or write both cells
out. Two do neither: a bundle writes a change of the indexes and lowers both flags, and
`promote_finalized` changes the indexes under no flag. There clean flags can lie (`clean_lies`).
`SafeCall` is the premise under which they do not, and under it a run of any length ends settled.
-/

namespace Peam

open WriteBehind
open Calls (Outcome)

variable {signed : SignedBlockWithAttestation}

/-! ## The pending ring -/

private theorem filterMap_set_of_none {α β : Type} {f : α → Option β} {items : List α} {i : Nat}
    {x : α} (hnew : f x = none) (hold : ∀ y, items[i]? = some y → f y = none) :
    (items.set i x).filterMap f = items.filterMap f := by
  induction items generalizing i with
  | nil => rfl
  | cons y rest ih =>
    cases i with
    | zero =>
      have hy : f y = none := hold y rfl
      rw [List.set_cons_zero, List.filterMap_cons_none hnew, List.filterMap_cons_none hy]
    | succ i =>
      rw [List.set_cons_succ, List.filterMap_cons, List.filterMap_cons, ih hold]

namespace PendingSlotCache

variable {cache : PendingSlotCache} {slot upper : Nat}

/-- The bucket of a slot is empty or holds an entry of that slot. -/
def Free (cache : PendingSlotCache) (slot : Nat) : Prop :=
  ∀ entry ∈ cache.entries.getD (slot % cache.entries.length) none, entry.slot = slot

instance : Decidable (cache.Free slot) := by
  unfold Free
  infer_instance

private theorem entriesLeq_insert (free : cache.Free slot) (past : upper < slot) (root : Bytes32) :
    (cache.insert slot root).entriesLeq upper = cache.entriesLeq upper := by
  unfold entriesLeq insert
  rw [List.filter_filterMap, List.filter_filterMap]
  refine filterMap_set_of_none ?_ fun old hold => ?_
  · simp [Option.filter, past]
  · cases old with
    | none => rfl
    | some entry =>
      have hslot : entry.slot = slot := free entry (bucket_eq_some.mpr hold)
      simp [Option.filter, hslot, past]

end PendingSlotCache

/-! ## The cells -/

/-- The maps under `index_dirty`. -/
structure Indexes where
  stateBySlot : SlotIndex
  blockBySlot : SlotIndex
  stateRootToBlockRoot : RapidHashMap Bytes32

namespace FileStore

variable {store : FileStore}

def indexCell (store : FileStore) : Cell Indexes where
  memory := ⟨store.stateBySlot, store.blockBySlot, store.stateRootToBlockRoot⟩
  disk :=
    ⟨store.canonicalDb.stateSlots, store.canonicalDb.blockSlots, store.canonicalDb.stateRootIndex⟩
  dirty := store.indexDirty

def metaCell (store : FileStore) : Cell StoreMeta where
  memory := store.live
  disk := store.canonicalDb.stored
  dirty := store.metaDirty

/-- Both cells are coherent, and a finalized root comes with its slot. -/
structure Settled (store : FileStore) : Prop where
  index : store.indexCell.Coherent
  metadata : store.metaCell.Coherent
  finalized : store.live.finalizedSlot = none → store.live.finalized = none

private theorem settled_fresh : fresh.Settled :=
  ⟨Cell.coherent_of_eq rfl, Cell.coherent_of_eq rfl, fun _ => rfl⟩

/-- A flush settles a store in which something is dirty, and keeps a settled one. -/
theorem settled_flushCanonical
    (start : store.indexDirty = true ∨ store.metaDirty = true ∨ store.Settled)
    (finalized : store.live.finalizedSlot = none → store.live.finalized = none) :
    store.flushCanonical.Settled := by
  unfold flushCanonical
  split
  · rename_i clean
    rcases start with h | h | settled
    · exact absurd (clean.1.symm.trans h) Bool.false_ne_true
    · exact absurd (clean.2.symm.trans h) Bool.false_ne_true
    · exact settled
  · exact ⟨Cell.coherent_flush store.indexCell, Cell.coherent_flush store.metaCell, finalized⟩

private theorem Settled.setFinalizedCheckpoint (settled : store.Settled) (checkpoint : Checkpoint) :
    (store.setFinalizedCheckpoint checkpoint).Settled := by
  unfold FileStore.setFinalizedCheckpoint
  split
  · exact settled
  · exact settled_flushCanonical (.inr (.inl rfl)) fun h => by cases h

private theorem Settled.setFinalized (settled : store.Settled) (root : Bytes32) :
    (store.setFinalized root).Settled := by
  unfold FileStore.setFinalized
  split
  · exact settled
  · exact settled.setFinalizedCheckpoint _

private theorem indexCell_promote (store : FileStore) (finalizedSlot : Nat) :
    (store.promoteFinalizedSlotInMemory finalizedSlot).indexCell =
      store.indexCell.unflagged fun indexes =>
        let promoted := store.pendingBlocks.entriesLeq finalizedSlot
        { indexes with
          stateBySlot := indexes.stateBySlot.upsert promoted
          blockBySlot := indexes.blockBySlot.upsert promoted } := by
  rw [← PendingSlotCache.drainLeqWith_snd]
  rfl

private theorem Settled.promoteFinalized (settled : store.Settled) {finalizedSlot : Nat}
    (seen : store.indexDirty = true ∨ store.metaDirty = true ∨
      store.pendingBlocks.entriesLeq finalizedSlot = []) :
    (store.promoteFinalized finalizedSlot).Settled := by
  refine settled_flushCanonical ?_ settled.finalized
  rcases seen with h | h | empty
  · exact .inl h
  · exact .inr (.inl h)
  · refine .inr (.inr ⟨?_, settled.metadata, settled.finalized⟩)
    rw [indexCell_promote, Cell.coherent_unflagged_iff settled.index, empty]
    exact .inr rfl

private theorem Settled.putState (settled : store.Settled) (ssz : Ssz) (root : Bytes32)
    (state : State) : (store.putState ssz root state).Settled :=
  ⟨Cell.coherent_of_dirty rfl, settled.metadata, settled.finalized⟩

private theorem Settled.putBlock (settled : store.Settled) (root : Bytes32) (block : Block) :
    (store.putBlock root block).Settled := by
  unfold FileStore.putBlock indexBlockSlot
  split
  · exact ⟨settled.index, settled.metadata, settled.finalized⟩
  · exact ⟨Cell.coherent_of_dirty rfl, settled.metadata, settled.finalized⟩

/-! ## Bundles -/

/-- The metadata a bundle leaves. -/
def bundleMeta (store : FileStore) (root : Bytes32) (justified finalized : Checkpoint)
    (updateHead : Bool) : StoreMeta :=
  if updateHead then ⟨some root, some justified.root, some finalized.root, some finalized.slot⟩
  else store.live

/-- The ring once a bundle has entered its block. -/
def ringWith (cache : PendingSlotCache) (slot : Nat) (root : Bytes32) (finalizedSlot : Option Nat) :
    PendingSlotCache :=
  if decide (¬ ∃ current ∈ finalizedSlot, slot > current) then cache else cache.insert slot root

/-- A block past the finalized slot takes a bucket. If the bucket was free, what the ring hands out
afterwards is what was promoted on disk. -/
theorem drained_eq_promotions {cache : PendingSlotCache} {slot : Nat} (free : cache.Free slot)
    (root : Bytes32) (finalizedSlot : Option Nat) :
    ((ringWith cache slot root finalizedSlot).drainLeqWith (finalizedSlot.getD 0)).2 =
      cache.entriesLeq (finalizedSlot.getD 0) := by
  rw [PendingSlotCache.drainLeqWith_snd, ringWith]
  split
  · rfl
  · rename_i routed
    obtain ⟨current, hcurrent, past⟩ := not_not.mp (of_decide_eq_false (Bool.not_eq_true _ ▸ routed))
    cases hcurrent
    exact PendingSlotCache.entriesLeq_insert free past root

/-- A bundle writes its own rows and the promoted ones to disk, and in memory its own rows and what
the ring then hands out. -/
theorem indexCell_bundle (store : FileStore) (root : Bytes32) (signed : SignedBlockWithAttestation)
    (state : State) (justified finalized : Checkpoint) (updateHead : Bool) :
    let slot := signed.message.block.slot
    let finalizedSlot := (store.bundleMeta root justified finalized updateHead).finalizedSlot
    let promotions := store.pendingBlocks.entriesLeq (finalizedSlot.getD 0)
    let drained :=
      ((ringWith store.pendingBlocks slot root finalizedSlot).drainLeqWith (finalizedSlot.getD 0)).2
    let canonical : Bool := ¬ ∃ current ∈ finalizedSlot, slot > current
    (store.persistSignedBlockBundleInner root signed state justified finalized
        updateHead).indexCell =
      store.indexCell.delta
        (fun disk =>
          { stateBySlot := disk.stateBySlot.upsert (⟨slot, root⟩ :: promotions)
            blockBySlot := disk.blockBySlot.upsert
              (if canonical then ⟨slot, root⟩ :: promotions else promotions)
            stateRootToBlockRoot :=
              disk.stateRootToBlockRoot.insert signed.message.block.stateRoot root })
        (fun memory =>
          { stateBySlot := (memory.stateBySlot.upsert [⟨slot, root⟩]).upsert drained
            blockBySlot :=
              (if canonical then memory.blockBySlot.upsert [⟨slot, root⟩]
                else memory.blockBySlot).upsert drained
            stateRootToBlockRoot :=
              memory.stateRootToBlockRoot.insert signed.message.block.stateRoot root }) := rfl

/-- **A bundle on clean indexes and a free bucket leaves a settled store.** -/
theorem Settled.bundle (settled : store.Settled) (clean : store.indexDirty = false)
    (free : store.pendingBlocks.Free signed.message.block.slot) (root : Bytes32) (state : State)
    (justified finalized : Checkpoint) (updateHead : Bool) :
    (store.persistSignedBlockBundleInner root signed state justified finalized
      updateHead).Settled := by
  refine ⟨?_, Cell.coherent_of_eq rfl, ?_⟩
  · rw [indexCell_bundle]
    refine Cell.coherent_delta settled.index clean ?_
    rw [drained_eq_promotions free]
    split <;> rfl
  · intro h
    change (store.bundleMeta root justified finalized updateHead).finalized = none
    change (store.bundleMeta root justified finalized updateHead).finalizedSlot = none at h
    cases updateHead with
    | true => cases h
    | false => exact settled.finalized h

private theorem Settled.put (settled : store.Settled) (clean : store.indexDirty = false) {ssz : Ssz}
    {verifier : SignatureVerifier} {root : Bytes32} {signed : SignedBlockWithAttestation}
    (free : store.pendingBlocks.Free signed.message.block.slot) {after : FileStore}
    (put : store.PutSigned ssz verifier root signed after) : after.Settled := by
  obtain ⟨state, justified, finalized, updateHead, rfl⟩ := put.bundle
  exact settled.bundle clean free ..

/-! ## Dropping and opening -/

/-- The tables of the database are the maps in memory. -/
structure OnDisk (store : FileStore) (db : CanonicalDb) : Prop where
  stateSlots : db.stateSlots = store.stateBySlot
  blockSlots : db.blockSlots = store.blockBySlot
  stateRootIndex : db.stateRootIndex = store.stateRootToBlockRoot
  stored : db.stored = store.live

/-- In a settled store with clean flags everything is on disk. -/
theorem Settled.onDisk (settled : store.Settled) (index : store.indexDirty = false)
    (metadata : store.metaDirty = false) : store.OnDisk store.canonicalDb := by
  have hindex := settled.index index
  exact ⟨congrArg Indexes.stateBySlot hindex, congrArg Indexes.blockBySlot hindex,
    congrArg Indexes.stateRootToBlockRoot hindex, settled.metadata metadata⟩

private theorem Settled.onDisk_dropped (settled : store.Settled) : store.OnDisk store.dropped := by
  unfold dropped
  split
  · rename_i dirty
    have unclean : ¬ (store.indexDirty = false ∧ store.metaDirty = false) := by
      rintro ⟨index, metadata⟩
      rcases dirty with h | h
      · exact absurd (index.symm.trans h) Bool.false_ne_true
      · exact absurd (metadata.symm.trans h) Bool.false_ne_true
    unfold flushCanonical
    rw [if_neg unclean]
    exact ⟨rfl, rfl, rfl, rfl⟩
  · rename_i clean
    obtain ⟨index, metadata⟩ := not_or.mp clean
    exact settled.onDisk (Bool.eq_false_iff.mpr index) (Bool.eq_false_iff.mpr metadata)

/-- The values a store opened on the tables of another has of it. -/
structure Restores (store again : FileStore) : Prop where
  stateBySlot : again.stateBySlot = store.stateBySlot
  blockBySlot : again.blockBySlot = store.blockBySlot
  stateRootToBlockRoot : again.stateRootToBlockRoot = store.stateRootToBlockRoot
  live : again.live = store.live

/-- **A settled store comes back as it was.** -/
theorem Settled.restores (settled : store.Settled) : store.Restores store.reopened := by
  have left := settled.onDisk_dropped
  refine ⟨left.stateSlots, left.blockSlots, left.stateRootIndex, ?_⟩
  have hslot : (store.live.finalizedSlot.orElse fun _ =>
      store.live.finalized.bind fun root =>
        (store.dropped.blockBlobs.lookup root).map (·.slot)) = store.live.finalizedSlot := by
    cases hsome : store.live.finalizedSlot with
    | some slot => rfl
    | none => rw [settled.finalized hsome]; rfl
  unfold reopened openOn
  rw [left.stored]
  simp only [hslot]

private theorem Settled.reopened (settled : store.Settled) : store.reopened.Settled := by
  have left := settled.onDisk_dropped
  have restored := settled.restores
  refine ⟨Cell.coherent_of_eq rfl, Cell.coherent_of_eq ?_, ?_⟩
  · exact left.stored.trans restored.live.symm
  · rw [restored.live]
    exact settled.finalized

/-! ## Runs -/

section Runs

variable {ssz : Ssz} {verifier : SignatureVerifier} {order : SetOrder}

private theorem Settled.prune (settled : store.Settled) (finalizedSlot keepRecentSlots : Nat) :
    (store.prune order finalizedSlot keepRecentSlots).1.Settled := by
  have cut : (store.withRowsPruned order (finalizedSlot - keepRecentSlots)).Settled :=
    settled_flushCanonical (.inl rfl) settled.finalized
  exact ⟨cut.index, cut.metadata, cut.finalized⟩

/-- What a put of a signed block asks of the store: no index row is waiting to be written, and the
block's pending bucket is empty or already holds its slot. -/
def TakesBundle (store : FileStore) (signed : SignedBlockWithAttestation) : Prop :=
  store.indexDirty = false ∧ store.pendingBlocks.Free signed.message.block.slot
  deriving Decidable

/-- The calls after which clean flags still mean that disk and memory agree. A promotion needs a
flag that is up, so that it flushes, or nothing to promote. -/
def SafeCall (store : FileStore) : StoreCall → Prop
  | .putSignedBlock _ signed _ => store.TakesBundle signed
  | .putBackfillSignedBlock _ signed _ => store.TakesBundle signed
  | .putPrevalidatedSignedBlock _ signed _ _ => store.TakesBundle signed
  | .putAnchorSignedBlock _ signed _ => store.TakesBundle signed
  | .promoteFinalized finalizedSlot =>
    store.indexDirty = true ∨ store.metaDirty = true ∨
      store.pendingBlocks.entriesLeq finalizedSlot = []
  | _ => True

instance (store : FileStore) (call : StoreCall) : Decidable (store.SafeCall call) := by
  cases call <;> (unfold SafeCall; infer_instance)

/-- Every call of a run is safe in the store it is made on. -/
def SafeRun (ssz : Ssz) (verifier : SignatureVerifier) (order : SetOrder) (store : FileStore)
    (calls : List StoreCall) : Prop :=
  Loops.Along (fun store call => store.call ssz verifier order call) SafeCall store calls
  deriving Decidable

private theorem Settled.afterPut (settled : store.Settled) (takes : store.TakesBundle signed)
    {root : Bytes32} {result : Outcome (FileStore × State)}
    (put : ∀ after state', result = .ok (after, state') →
      store.PutSigned ssz verifier root signed after) : (store.afterPut result).Settled := by
  cases result with
  | error e => exact settled
  | ok pair => exact settled.put takes.1 takes.2 (put pair.1 pair.2 rfl)

/-- **A safe call keeps the store settled.** -/
theorem Settled.call (settled : store.Settled) {call : StoreCall} (safe : store.SafeCall call) :
    (store.call ssz verifier order call).Settled := by
  cases call with
  | putState root state => exact settled.putState ssz root state
  | putBlock root block => exact settled.putBlock root block
  | putSignedBlock root signed state =>
    have put : ∀ after state', store.putSignedBlockInner ssz verifier root signed state =
        .ok (after, state') → store.PutSigned ssz verifier root signed after :=
      fun _ _ => .signedBlock
    exact settled.afterPut safe put
  | putBackfillSignedBlock root signed state =>
    have put : ∀ after state', store.putBackfillSignedBlock ssz verifier root signed state =
        .ok (after, state') → store.PutSigned ssz verifier root signed after :=
      fun _ _ => .backfill
    exact settled.afterPut safe put
  | putPrevalidatedSignedBlock root signed state postState =>
    have put : ∀ after state', store.putPrevalidatedSignedBlock ssz root signed state postState =
        .ok (after, state') → store.PutSigned ssz verifier root signed after :=
      fun _ _ => .prevalidated
    exact settled.afterPut safe put
  | putAnchorSignedBlock root signed state => exact settled.bundle safe.1 safe.2 ..
  | setHead root => exact ⟨settled.index, Cell.coherent_of_dirty rfl, settled.finalized⟩
  | setJustified root => exact ⟨settled.index, Cell.coherent_of_dirty rfl, settled.finalized⟩
  | setFinalized root => exact settled.setFinalized root
  | setFinalizedCheckpoint checkpoint => exact settled.setFinalizedCheckpoint checkpoint
  | promoteFinalized finalizedSlot => exact settled.promoteFinalized safe
  | prune finalizedSlot keepRecentSlots => exact settled.prune finalizedSlot keepRecentSlots
  | reopen => exact settled.reopened

private theorem Settled.run {calls : List StoreCall} (settled : store.Settled)
    (safe : SafeRun ssz verifier order store calls) :
    (store.run ssz verifier order calls).Settled :=
  safe.keeps Settled (fun _ _ settled safe => settled.call safe) settled

/-- **Clean flags mean that disk equals memory**, after every safe run of a store that started
empty, and dropping the store at its end and opening it again restores indexes and metadata. -/
theorem safeRun_durable {calls : List StoreCall} (safe : SafeRun ssz verifier order fresh calls) :
    let store := fresh.run ssz verifier order calls
    (store.indexDirty = false → store.metaDirty = false → store.OnDisk store.canonicalDb) ∧
      store.Restores store.reopened := by
  have settled := settled_fresh.run safe
  exact ⟨settled.onDisk, settled.restores⟩

end Runs

/-! ## Three stores whose clean flags lie -/

/-- An iteration order: as the roots were collected. -/
def listOrder : SetOrder := ⟨id, Iff.rfl⟩

def seedState : State := generateGenesis sampleSsz 0 threeValidators

/-- A block without votes, as it may stand at a slot. -/
def blockAt (slot : Nat) : SignedBlockWithAttestation where
  message :=
    { block :=
        { slot, proposerIndex := 0, parentRoot := 0#256, stateRoot := 0#256
          body := ⟨SszList.empty⟩ }
      proposerAttestation :=
        { aggregationBits := singleBit 0
          data := ⟨0, ⟨0#256, 0⟩, ⟨0#256, 0⟩, ⟨0#256, 0⟩⟩ } }
  signature := { attestationSignatures := SszList.empty, proposerSignature := 0#24896 }

/-- A run on an empty store. -/
def runOf (calls : List StoreCall) : FileStore :=
  fresh.run sampleSsz noopSignatureVerifier listOrder calls

/-- Puts, metadata, a promotion under a raised flag, a prune and a restart. -/
def busyRun : List StoreCall :=
  [.putAnchorSignedBlock 1#256 (blockAt 1) seedState, .setHead 1#256,
    .setFinalizedCheckpoint ⟨1#256, 1⟩, .putAnchorSignedBlock 2#256 (blockAt 2) seedState,
    .putState 3#256 seedState, .promoteFinalized 2, .setJustified 2#256, .prune 2 1, .reopen,
    .putBlock 4#256 (blockAt 3).message.block, .setFinalized 2#256]

/-- The law at `busyRun`. -/
theorem safeRun_durable_busyRun : (runOf busyRun).Restores (runOf busyRun).reopened := by
  have safe : SafeRun sampleSsz noopSignatureVerifier listOrder fresh busyRun := by decide +kernel
  exact (safeRun_durable safe).2

/-- A state's row waits when a bundle lowers the flag. -/
def waitingRow : List StoreCall :=
  [.putState 1#256 seedState, .putAnchorSignedBlock 2#256 (blockAt 1) seedState]

/-- A promotion moves a block's row and raises no flag. -/
def promotedRow : List StoreCall :=
  [.putAnchorSignedBlock 1#256 (blockAt 1) seedState, .promoteFinalized 1]

/-- A block 2048 slots later evicts a row that its own bundle promotes on disk. -/
def evictedRow : List StoreCall :=
  [.putAnchorSignedBlock 1#256 (blockAt 1) seedState,
    .putAnchorSignedBlock 2#256 (blockAt 2049) { seedState with latestFinalized := ⟨1#256, 1⟩ }]

/-- **Clean flags over a disk that differs.** None of the three stores comes back as it was: the
first two lose a row, the third gains one. -/
theorem clean_lies :
    (∀ calls ∈ [waitingRow, promotedRow, evictedRow],
      (runOf calls).indexDirty = false ∧ (runOf calls).metaDirty = false) ∧
    ((runOf waitingRow).stateBySlot.lookup 0 = some 1#256 ∧
      (runOf waitingRow).canonicalDb.stateSlots.lookup 0 = none ∧
      (runOf waitingRow).reopened.stateBySlot.lookup 0 = none) ∧
    ((runOf promotedRow).blockBySlot.lookup 1 = some 1#256 ∧
      (runOf promotedRow).canonicalDb.blockSlots.lookup 1 = none ∧
      (runOf promotedRow).reopened.blockBySlot.lookup 1 = none) ∧
    ((runOf evictedRow).blockBySlot.lookup 1 = none ∧
      (runOf evictedRow).canonicalDb.blockSlots.lookup 1 = some 1#256 ∧
      (runOf evictedRow).reopened.blockBySlot.lookup 1 = some 1#256) := by
  have clean : ∀ calls ∈ [waitingRow, promotedRow, evictedRow],
      (runOf calls).indexDirty = false ∧ (runOf calls).metaDirty = false := by
    intro calls hcalls
    simp only [List.mem_cons, List.not_mem_nil, or_false] at hcalls
    rcases hcalls with rfl | rfl | rfl <;> exact ⟨rfl, rfl⟩
  exact ⟨clean, by decide +kernel, by decide +kernel, by decide +kernel⟩

end FileStore

end Peam
