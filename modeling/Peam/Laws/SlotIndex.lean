import Mathlib.Data.List.Chain
import Peam.Handler
import Peam.Laws.Encode
import Peam.Laws.NodeStore
import Peam.Laws.Retention

/-!
# The slot index as the finalized chain

The two slot indexes hold one root a slot, the ring of pending blocks one root a bucket, and none of
them asks which branch a block is on. So a rival can take the row of a finalized block, or its
bucket on the way there (`rival_takes_row`).

As long as every import is a block on the store's head that finds its bucket free, the stored blocks
are one line (`Line`), and the indexes and the ring hold exactly these (`Indexed`). Then the rows up
to the finalized slot are the finalized block and its ancestors, and a range request over them is
answered with a chain, if each block reads back from its bytes (`slotIndex_canonical`).
-/

namespace Peam

open Forests (Climbs)
open Packed (Byte)
open Calls (Outcome)

variable {index : SlotIndex} {s : Nat} {r : Bytes32} {checkpoint : Checkpoint}
  {parent state : State} {forkChoice : ForkChoiceStore}

/-! ## Ring and index -/

namespace PendingSlotCache

variable {cache : PendingSlotCache} {entry : PendingEntry} {slot upper : Nat}

private theorem mem_entriesLeq :
    entry ∈ cache.entriesLeq upper ↔ some entry ∈ cache.entries ∧ entry.slot ≤ upper := by
  simp [entriesLeq]

private theorem mem_drainLeqWith :
    some entry ∈ (cache.drainLeqWith upper).1.entries ↔
      some entry ∈ cache.entries ∧ upper < entry.slot := by
  simp [drainLeqWith_eq, Option.filter_eq_some_iff, and_comm]

private theorem length_drainLeqWith :
    (cache.drainLeqWith upper).1.entries.length = cache.entries.length := by
  rw [drainLeqWith_eq, List.length_map]

private theorem length_insert (root : Bytes32) :
    (cache.insert slot root).entries.length = cache.entries.length :=
  List.length_set

private theorem mem_insert (pos : 0 < cache.entries.length) (free : cache.Free slot)
    {root : Bytes32}
    (same : ∀ old, some old ∈ cache.entries → old.slot = slot → old.blockRoot = root) :
    some entry ∈ (cache.insert slot root).entries ↔
      entry = ⟨slot, root⟩ ∨ some entry ∈ cache.entries := by
  rw [mem_insert_iff pos]
  constructor
  · exact Or.imp_right fun ⟨i, _, hi⟩ => List.mem_of_getElem? hi
  · refine fun h => or_iff_not_imp_left.mpr fun hne => ?_
    obtain ⟨i, hi⟩ := List.getElem?_of_mem (h.resolve_left hne)
    refine ⟨i, fun hi' => hne ?_, hi⟩
    -- the bucket is empty, or has the entry already
    have hslot : entry.slot = slot := free entry (bucket_eq_some.mpr (hi' ▸ hi))
    have hroot := same entry (List.mem_of_getElem? hi) hslot
    obtain ⟨oldSlot, oldRoot⟩ := entry
    cases hslot
    cases hroot
    rfl

end PendingSlotCache

/-- Rows of a relation that gives each slot one root, entered over rows of that relation. -/
theorem SlotIndex.lookup_upsert {P : Nat → Bytes32 → Prop}
    (one : ∀ ⦃s r r'⦄, P s r → P s r' → r = r') {rows : List PendingEntry}
    (old : ∀ ⦃s r⦄, index.lookup s = some r → P s r)
    (new : ∀ row ∈ rows, P row.slot row.blockRoot) :
    (index.upsert rows).lookup s = some r ↔ index.lookup s = some r ∨ ⟨s, r⟩ ∈ rows := by
  induction rows generalizing index with
  | nil => simp [SlotIndex.upsert]
  | cons row rest ih =>
    have hrow := new row List.mem_cons_self
    have hlookup : ∀ ⦃s r⦄, (index.insert row.slot row.blockRoot).lookup s = some r ↔
        index.lookup s = some r ∨ (⟨s, r⟩ : PendingEntry) = row := by
      intro s r
      by_cases hs : s = row.slot
      · subst hs
        rw [AList.lookup_insert, Option.some_inj]
        constructor
        · rintro rfl
          exact .inr rfl
        · rintro (h | h)
          · exact one hrow (old h)
          · rw [← h]
      · rw [AList.lookup_insert_ne hs]
        refine ⟨.inl, fun h => h.resolve_right ?_⟩
        rintro rfl
        exact hs rfl
    have hold : ∀ ⦃s r⦄, (index.insert row.slot row.blockRoot).lookup s = some r → P s r := by
      intro s r h
      rcases hlookup.mp h with h | rfl
      · exact old h
      · exact hrow
    show (SlotIndex.upsert (index.insert row.slot row.blockRoot) rest).lookup s = some r ↔ _
    rw [ih hold fun row' h => new row' (List.mem_cons_of_mem _ h), hlookup, List.mem_cons, or_assoc]

/-- Two slot indexes and a ring have the rows of a relation that gives each slot one root: the state
index has them all, and so have block index and ring together. -/
structure Covers (P : Nat → Bytes32 → Prop) (states blocks : SlotIndex) (ring : PendingSlotCache) :
    Prop where
  one : ∀ ⦃s r r'⦄, P s r → P s r' → r = r'
  buckets : 0 < ring.entries.length
  state_iff : ∀ ⦃s r⦄, states.lookup s = some r ↔ P s r
  block_row : ∀ ⦃s r⦄, blocks.lookup s = some r → P s r
  pending : ∀ ⦃entry⦄, some entry ∈ ring.entries → P entry.slot entry.blockRoot
  covered : ∀ ⦃s r⦄, P s r → blocks.lookup s = some r ∨ some ⟨s, r⟩ ∈ ring.entries

namespace Covers

variable {P : Nat → Bytes32 → Prop} {states blocks : SlotIndex} {ring : PendingSlotCache}

/-- Rows that are covered are covered for an equivalent relation. -/
theorem congr {Q : Nat → Bytes32 → Prop} (covers : Covers P states blocks ring)
    (same : ∀ s r, Q s r ↔ P s r) : Covers Q states blocks ring := by
  have hsame : Q = P := funext fun s => funext fun r => propext (same s r)
  rw [hsame]
  exact covers

/-- **A promotion moves rows from the ring to the index.** -/
theorem promote (covers : Covers P states blocks ring) (upper : Nat) :
    Covers P (states.upsert (ring.entriesLeq upper)) (blocks.upsert (ring.entriesLeq upper))
      (ring.drainLeqWith upper).1 := by
  have hrows : ∀ row ∈ ring.entriesLeq upper, P row.slot row.blockRoot :=
    fun row hrow => covers.pending (PendingSlotCache.mem_entriesLeq.mp hrow).1
  refine ⟨covers.one, ?_, ?_, ?_, ?_, ?_⟩
  · rw [PendingSlotCache.length_drainLeqWith]
    exact covers.buckets
  · intro s r
    rw [SlotIndex.lookup_upsert covers.one (fun _ _ h => covers.state_iff.mp h) hrows,
      covers.state_iff]
    exact ⟨fun h => h.elim id (hrows _), .inl⟩
  · intro s r h
    rcases (SlotIndex.lookup_upsert covers.one covers.block_row hrows).mp h with h | h
    · exact covers.block_row h
    · exact hrows _ h
  · intro entry h
    exact covers.pending (PendingSlotCache.mem_drainLeqWith.mp h).1
  · -- what left the ring is in the index
    intro s r h
    rw [SlotIndex.lookup_upsert covers.one covers.block_row hrows, PendingSlotCache.mem_drainLeqWith,
      PendingSlotCache.mem_entriesLeq]
    rcases covers.covered h with hrow | hpending
    · exact .inl (.inl hrow)
    · rcases Nat.lt_or_ge upper s with hlt | hle
      · exact .inr ⟨hpending, hlt⟩
      · exact .inl (.inr ⟨hpending, hle⟩)

section Enter

variable {slot : Nat} {root : Bytes32}
  (one : ∀ ⦃s r r'⦄, (P s r ∨ s = slot ∧ r = root) → (P s r' ∨ s = slot ∧ r' = root) → r = r')

include one

private theorem lookup_enter (known : ∀ ⦃s r⦄, index.lookup s = some r → P s r) :
    (index.upsert [⟨slot, root⟩]).lookup s = some r ↔
      index.lookup s = some r ∨ s = slot ∧ r = root := by
  have hrow : ∀ row ∈ [(⟨slot, root⟩ : PendingEntry)],
      P row.slot row.blockRoot ∨ row.slot = slot ∧ row.blockRoot = root := by
    intro row hrow
    cases List.mem_singleton.mp hrow
    exact .inr ⟨rfl, rfl⟩
  rw [SlotIndex.lookup_upsert one (fun _ _ h => .inl (known h)) hrow, List.mem_singleton,
    PendingEntry.mk.injEq]

/-- **A row is entered** into both indexes. -/
theorem enterIndex (covers : Covers P states blocks ring) :
    Covers (fun s r => P s r ∨ s = slot ∧ r = root) (states.upsert [⟨slot, root⟩])
      (blocks.upsert [⟨slot, root⟩]) ring := by
  refine ⟨one, covers.buckets, ?_, ?_, fun _ h => .inl (covers.pending h), ?_⟩
  · intro s r
    rw [lookup_enter one fun _ _ h => covers.state_iff.mp h, covers.state_iff]
  · intro s r h
    exact ((lookup_enter one covers.block_row).mp h).imp_left fun h => covers.block_row h
  · intro s r h
    rw [lookup_enter one covers.block_row]
    rcases h with h | h
    · exact (covers.covered h).imp_left .inl
    · exact .inl (.inr h)

/-- **A row is entered** into the state index and into a free bucket of the ring. -/
theorem enterRing (covers : Covers P states blocks ring) (free : ring.Free slot) :
    Covers (fun s r => P s r ∨ s = slot ∧ r = root) (states.upsert [⟨slot, root⟩]) blocks
      (ring.insert slot root) := by
  have hsame : ∀ old, some old ∈ ring.entries → old.slot = slot → old.blockRoot = root :=
    fun old hold hslot => one (.inl (covers.pending hold)) (.inr ⟨hslot, rfl⟩)
  have hmem {entry : PendingEntry} := @PendingSlotCache.mem_insert ring entry slot covers.buckets
    free root hsame
  refine ⟨one, ?_, ?_, fun _ _ h => .inl (covers.block_row h), ?_, ?_⟩
  · rw [PendingSlotCache.length_insert]
    exact covers.buckets
  · intro s r
    rw [lookup_enter one fun _ _ h => covers.state_iff.mp h, covers.state_iff]
  · intro entry h
    rcases hmem.mp h with rfl | h
    · exact .inr ⟨rfl, rfl⟩
    · exact .inl (covers.pending h)
  · intro s r h
    rw [hmem]
    rcases h with h | ⟨rfl, rfl⟩
    · exact (covers.covered h).imp_right .inr
    · exact .inr (.inl rfl)

end Enter

end Covers

namespace FileStore

variable {ssz : Ssz} {verifier : SignatureVerifier} {store store' : FileStore} {base : Nat}

/-! ## One line of blocks -/

/-- The stored blocks are one line from slot `base` on: each is on the one before it, and the head
is the last. Each is stored under its own root, with its signatures. -/
structure Line (ssz : Ssz) (base : Nat) (store : FileStore) : Prop where
  start : ∀ ⦃r s⦄, store.Holds ⟨r, s⟩ → base ≤ s
  parents : ∀ ⦃r block⦄, store.getBlock r = some block → base < block.slot →
    ∃ s < block.slot, store.Holds ⟨block.parentRoot, s⟩ ∧
      ∀ ⦃r' s'⦄, store.Holds ⟨r', s'⟩ → s' < block.slot → s' ≤ s
  head : ∃ root slot, store.live.head = some root ∧ store.Holds ⟨root, slot⟩ ∧
    ∀ ⦃r s⦄, store.Holds ⟨r, s⟩ → s ≤ slot
  signed : ∀ ⦃r block⦄, store.getBlock r = some block → block.hashTreeRoot ssz = r ∧
    ∃ signed, store.signedRow r = some signed ∧ signed.message.block = block

/-- Indexes and ring have the stored blocks, one a slot, and the ring is past the finalized slot. -/
structure Indexed (store : FileStore) : Prop where
  covers : Covers (fun s r => store.Holds ⟨r, s⟩) store.stateBySlot store.blockBySlot
    store.pendingBlocks
  past : ∀ ⦃entry⦄, some entry ∈ store.pendingBlocks.entries →
    ∀ current ∈ store.live.finalizedSlot, current < entry.slot

private theorem Holds.slot_unique {s' : Nat} (h : store.Holds ⟨r, s⟩) (h' : store.Holds ⟨r, s'⟩) :
    s = s' := by
  obtain ⟨block, hblock, rfl⟩ := h
  obtain ⟨block', hblock', rfl⟩ := h'
  rw [Option.mem_unique hblock hblock']

section Put

variable {signed : SignedBlockWithAttestation} {post : State} {justified finalized : Checkpoint}
  {updateHead : Bool} {root : Bytes32} {out : FileStore}
  (hput : store.persistSignedBlockBundleInner root signed post justified finalized updateHead = out)

include hput

private theorem holds_bundle_iff (free : store.NoClash root signed.message.block)
    {checkpoint : Checkpoint} : out.Holds checkpoint ↔
      store.Holds checkpoint ∨ checkpoint = ⟨root, signed.message.block.slot⟩ := by
  subst hput
  constructor
  · rintro ⟨block, hblock, hslot⟩
    rw [getBlock_bundle] at hblock
    split at hblock
    · next hroot =>
      cases hblock
      exact .inr (by rw [← hroot, hslot])
    · exact .inl ⟨block, hblock, hslot⟩
  · rintro (h | rfl)
    · exact h.bundle free
    · exact holds_bundle_self

section Line

variable (hroot : signed.root ssz = root)

include hroot

/-- After a put every stored block is under its own root and has its signatures. -/
theorem signed_bundle
    (stored : ∀ ⦃r block⦄, store.getBlock r = some block → block.hashTreeRoot ssz = r ∧
      ∃ signed, store.signedRow r = some signed ∧ signed.message.block = block)
    {block : Block} (h : out.getBlock r = some block) : block.hashTreeRoot ssz = r ∧
      ∃ found, out.signedRow r = some found ∧ found.message.block = block := by
  subst hput
  rw [getBlock_bundle] at h
  split at h
  · next hr =>
    cases h
    exact ⟨hroot.trans hr.symm, signed, hr ▸ AList.lookup_insert _, rfl⟩
  · next hr =>
    obtain ⟨hhash, other, hother, hmessage⟩ := stored h
    exact ⟨hhash, other, (AList.lookup_insert_ne hr).trans hother, hmessage⟩

variable (line : store.Line ssz base)

include line

/-- **A put on the head keeps the line.** -/
theorem Line.put (unstored : store.getBlock root = none)
    (later : ∀ ⦃r s⦄, store.Holds ⟨r, s⟩ → s < signed.message.block.slot)
    (onHead : store.live.head = some signed.message.block.parentRoot)
    (head : out.live.head = some root) : out.Line ssz base := by
  obtain ⟨parentRoot, slot, hparent, hheld, hlast⟩ := line.head
  cases Option.some_inj.mp (hparent.symm.trans onHead)
  have hiff {checkpoint : Checkpoint} : out.Holds checkpoint ↔ _ :=
    holds_bundle_iff hput (noClash_of_none unstored)
  constructor
  · intro r s h
    rcases hiff.mp h with h | h
    · exact line.start h
    · cases h
      exact (line.start hheld).trans (later hheld).le
  · intro r block hblock hbase
    rw [← hput, getBlock_bundle] at hblock
    split at hblock
    · -- the new block is on the head, the last block before it
      cases hblock
      refine ⟨slot, later hheld, hiff.mpr (.inl hheld), fun r' s' h hlt => ?_⟩
      rcases hiff.mp h with h | h
      · exact hlast h
      · cases h
        exact absurd hlt (Nat.lt_irrefl _)
    · obtain ⟨s, hlt, hparent, hbetween⟩ := line.parents hblock hbase
      refine ⟨s, hlt, hiff.mpr (.inl hparent), fun r' s' h hlt' => ?_⟩
      rcases hiff.mp h with h | h
      · exact hbetween h hlt'
      · cases h
        have hself : store.Holds ⟨r, block.slot⟩ := ⟨block, hblock, rfl⟩
        exact absurd (later hself) (Nat.not_lt.mpr hlt'.le)
  · refine ⟨root, signed.message.block.slot, head, hiff.mpr (.inr rfl), fun r s h => ?_⟩
    rcases hiff.mp h with h | h
    · exact (later h).le
    · cases h
      exact Nat.le_refl _
  · exact fun _ _ => signed_bundle hput hroot line.signed

/-- A put of a stored block again, with the head where it is. -/
theorem Line.reput (stored : store.getBlock root = some signed.message.block)
    (head : out.live.head = store.live.head) : out.Line ssz base := by
  have hblocks : ∀ r, out.getBlock r = store.getBlock r := by
    intro r
    rw [← hput, getBlock_bundle]
    split
    · next hr => rw [hr, stored]
    · rfl
  have hholds : ∀ checkpoint, out.Holds checkpoint ↔ store.Holds checkpoint := by
    intro checkpoint
    rw [Holds, hblocks]
    rfl
  constructor
  · simpa only [hholds] using line.start
  · simpa only [hholds, hblocks] using line.parents
  · simpa only [hholds, head] using line.head
  · exact fun _ _ => signed_bundle hput hroot line.signed

end Line

section Rows

variable {finalizedSlot : Nat} (h : out.live.finalizedSlot = some finalizedSlot)

include h

/-- The rows a bundle leaves: its own is entered, and then the rows up to the finalized slot are
promoted. -/
theorem bundle_rows :
    let slot := signed.message.block.slot
    let ring :=
      if slot ≤ finalizedSlot then store.pendingBlocks else store.pendingBlocks.insert slot root
    out.stateBySlot =
        (store.stateBySlot.upsert [⟨slot, root⟩]).upsert (ring.entriesLeq finalizedSlot) ∧
      out.blockBySlot =
        (if slot ≤ finalizedSlot then store.blockBySlot.upsert [⟨slot, root⟩]
        else store.blockBySlot).upsert (ring.entriesLeq finalizedSlot) ∧
      out.pendingBlocks = (ring.drainLeqWith finalizedSlot).1 := by
  have hcanonical : (¬ ∃ current ∈ some finalizedSlot, signed.message.block.slot > current) ↔
      signed.message.block.slot ≤ finalizedSlot := by
    simp
  subst hput
  dsimp only [persistSignedBlockBundleInner] at h ⊢
  simp only [h, hcanonical, decide_eq_true_eq, Option.getD_some, and_self,
    PendingSlotCache.drainLeqWith_snd]

/-- **A put into a free bucket keeps the indexes**, if no other block is stored for its slot. -/
theorem Indexed.put (indexed : store.Indexed) (noClash : store.NoClash root signed.message.block)
    (alone : ∀ ⦃r⦄, store.Holds ⟨r, signed.message.block.slot⟩ → r = root)
    (free : store.pendingBlocks.Free signed.message.block.slot) : out.Indexed := by
  obtain ⟨hstates, hblocks, hring⟩ := bundle_rows hput h
  have hone : ∀ ⦃s r r'⦄, (store.Holds ⟨r, s⟩ ∨ s = signed.message.block.slot ∧ r = root) →
      (store.Holds ⟨r', s⟩ ∨ s = signed.message.block.slot ∧ r' = root) → r = r' := by
    rintro s r r' (hr | ⟨rfl, rfl⟩) (hr' | ⟨hs, rfl⟩)
    · exact indexed.covers.one hr hr'
    · exact alone (hs ▸ hr)
    · exact (alone hr').symm
    · rfl
  constructor
  · rw [hstates, hblocks, hring]
    refine Covers.promote (Covers.congr (P := fun s r =>
      store.Holds ⟨r, s⟩ ∨ s = signed.message.block.slot ∧ r = root) ?_ ?_) finalizedSlot
    · split
      · exact indexed.covers.enterIndex hone
      · exact indexed.covers.enterRing hone free
    · intro s r
      rw [holds_bundle_iff hput noClash, Checkpoint.mk.injEq, and_comm]
  · intro entry hentry current hcurrent
    rw [h] at hcurrent
    cases hcurrent
    rw [hring] at hentry
    exact (PendingSlotCache.mem_drainLeqWith.mp hentry).2

end Rows

end Put

section Set

private theorem holds_congr_iff (same : SameBlobs store store') :
    store'.Holds checkpoint ↔ store.Holds checkpoint := by
  rw [Holds, getBlock, same.blocks]
  rfl

private theorem Line.congr (line : store.Line ssz base) (same : SameBlobs store store')
    (head : store'.live.head = store.live.head) : store'.Line ssz base := by
  have hblocks : ∀ r, store'.getBlock r = store.getBlock r := by
    intro r
    rw [getBlock, same.blocks]
    rfl
  have hsigned : ∀ r, store'.signedRow r = store.signedRow r := by
    intro r
    rw [signedRow, same.signed]
    rfl
  constructor
  · simpa only [holds_congr_iff same] using line.start
  · simpa only [holds_congr_iff same, hblocks] using line.parents
  · simpa only [holds_congr_iff same, head] using line.head
  · simpa only [hblocks, hsigned] using line.signed

private theorem Indexed.setHead (indexed : store.Indexed) (root : Bytes32) :
    (store.setHead root).Indexed :=
  ⟨indexed.covers, indexed.past⟩

private theorem Indexed.setJustified (indexed : store.Indexed) (root : Bytes32) :
    (store.setJustified root).Indexed :=
  ⟨indexed.covers, indexed.past⟩

/-- **A setter keeps line and indexes.** -/
theorem Indexed.setFinalizedCheckpoint (indexed : store.Indexed) (checkpoint : Checkpoint) :
    (store.setFinalizedCheckpoint checkpoint).Indexed := by
  rcases store.setFinalizedCheckpoint_cases checkpoint with
    ⟨hsame, -⟩ | ⟨-, hlive, hstates, hblocks, hring⟩
  · exact hsame.symm ▸ indexed
  · have hblobs := sameBlobs_setFinalizedCheckpoint store checkpoint
    constructor
    · rw [hstates, hblocks, hring]
      exact (indexed.covers.congr fun s r => holds_congr_iff hblobs).promote checkpoint.slot
    · intro entry hentry current hcurrent
      rw [hlive] at hcurrent
      cases hcurrent
      rw [hring] at hentry
      exact (PendingSlotCache.mem_drainLeqWith.mp hentry).2

private theorem setFinalizedCheckpoint_head (store : FileStore) (checkpoint : Checkpoint) :
    (store.setFinalizedCheckpoint checkpoint).live.head = store.live.head := by
  rcases store.setFinalizedCheckpoint_cases checkpoint with ⟨hsame, -⟩ | ⟨-, hlive, -⟩
  · rw [hsame]
  · rw [hlive]

end Set

/-! ## What the indexes say -/

/-- A stored block of the slot that is the root's block or an ancestor of it. -/
def AncestorAt (store : FileStore) (root : Bytes32) (s : Nat) (r : Bytes32) : Prop :=
  Climbs store.parentOf root r ∧ store.Holds ⟨r, s⟩

/-- The blocks stored for the slots from `start` up to `stop` are legible. -/
def LegibleFrom (codec : SszEncoder) (digest : List Byte → Bytes32) (store : FileStore)
    (start stop : Nat) : Prop :=
  ∀ ⦃r s⦄, store.Holds ⟨r, s⟩ → start ≤ s → s < stop →
    ∀ signed ∈ store.signedRow r, signed.Legible codec digest

/-- **The slot indexes are the finalized chain** from slot `base` on, and a request for a range of
finalized slots is answered with a chain, if the blocks in it are legible. -/
structure CanonicalIndex (codec : SszEncoder) (digest : List Byte → Bytes32) (base : Nat)
    (store : FileStore) : Prop where
  blocks : ∀ root ∈ store.live.finalized, ∀ slot ∈ store.live.finalizedSlot, ∀ s r,
    base ≤ s → s ≤ slot → (store.blockBySlot.lookup s = some r ↔ store.AncestorAt root s r)
  states : ∀ root ∈ store.live.finalized, ∀ slot ∈ store.live.finalizedSlot, ∀ s r,
    base ≤ s → s ≤ slot → (store.stateBySlot.lookup s = some r ↔ store.AncestorAt root s r)
  range : ∀ slot ∈ store.live.finalizedSlot, ∀ request : BlocksByRangeRequest,
    request.step ≤ 1 → base ≤ request.startSlot →
    request.startSlot + request.count ≤ slot + 1 →
    store.LegibleFrom codec digest request.startSlot (request.startSlot + request.count) →
      ∃ blocks, StoreReqRespHandler.blocksByRange codec digest store request = .ok blocks ∧
        blocks.IsChain fun earlier later =>
          later.message.block.parentRoot = earlier.message.block.hashTreeRoot codec.toSsz

private theorem Line.climbs (line : store.Line ssz base) (indexed : store.Indexed) {root : Bytes32}
    {slot : Nat} (hroot : store.Holds ⟨root, slot⟩) (hr : store.Holds ⟨r, s⟩) (le : s ≤ slot) :
    Climbs store.parentOf root r := by
  induction slot using Nat.strongRecOn generalizing root with
  | ind slot ih =>
    rcases le.eq_or_lt with rfl | hlt
    · rw [indexed.covers.one hroot hr]
      exact .refl _ _
    · obtain ⟨block, hblock, rfl⟩ := hroot
      obtain ⟨parentSlot, hbelow, hparent, hbetween⟩ :=
        line.parents hblock ((line.start hr).trans_lt hlt)
      refine Climbs.step ?_ (ih parentSlot hbelow hparent (hbetween hr hlt))
      rw [parentOf, Option.mem_def.mp hblock, Option.map_some]

private theorem Indexed.block_iff (indexed : store.Indexed) {slot : Nat}
    (hslot : slot ∈ store.live.finalizedSlot) (le : s ≤ slot) :
    store.blockBySlot.lookup s = some r ↔ store.Holds ⟨r, s⟩ := by
  refine ⟨fun h => indexed.covers.block_row h, fun h => ?_⟩
  rcases indexed.covers.covered h with hrow | hpending
  · exact hrow
  · exact absurd (indexed.past hpending slot hslot) (Nat.not_lt.mpr le)

private theorem Indexed.getBlockBySlot (indexed : store.Indexed) {slot s : Nat} {block : Block}
    (hslot : slot ∈ store.live.finalizedSlot) (le : s ≤ slot) :
    store.getBlockBySlot s = some block ↔ ∃ r, store.getBlock r = some block ∧ block.slot = s := by
  have hnone : store.pendingBlocks.get s = none := by
    cases hget : store.pendingBlocks.get s with
    | none => rfl
    | some entry =>
      obtain ⟨hmem, rfl⟩ := PendingSlotCache.get_eq_some.mp hget
      have hmem := List.mem_of_getElem? hmem
      exact absurd (indexed.past hmem slot hslot) (Nat.not_lt.mpr le)
  unfold FileStore.getBlockBySlot
  rw [hnone]
  dsimp only
  rw [Option.bind_eq_some_iff]
  constructor
  · rintro ⟨r, hrow, hblock⟩
    obtain ⟨other, hother, hs⟩ := (indexed.block_iff hslot le).mp hrow
    cases Option.mem_unique hother hblock
    exact ⟨r, hblock, hs⟩
  · rintro ⟨r, hblock, hs⟩
    exact ⟨r, (indexed.block_iff hslot le).mpr ⟨block, hblock, hs⟩, hblock⟩

/-- **The loop of a range request** over finalized slots: its blocks are a chain, and the first of
them is the first stored block from there on. -/
theorem rangeLoop_chain {codec : SszEncoder} {digest : List Byte → Bytes32}
    (line : store.Line codec.toSsz base) (indexed : store.Indexed) {slot start : Nat}
    (hslot : slot ∈ store.live.finalizedSlot) (hbase : base ≤ start) (offset count : Nat)
    (le : start + offset + count ≤ slot + 1)
    (legible : store.LegibleFrom codec digest (start + offset) (start + offset + count)) :
    ∃ blocks, StoreReqRespHandler.rangeLoop codec digest store start 1
        (List.range' offset count) = .ok blocks ∧
      (blocks.IsChain fun earlier later =>
        later.message.block.parentRoot = earlier.message.block.hashTreeRoot codec.toSsz) ∧
      ∀ first ∈ blocks.head?,
        store.getBlock (first.message.block.hashTreeRoot codec.toSsz) = some first.message.block ∧
        start + offset ≤ first.message.block.slot ∧
        ∀ ⦃r s⦄, store.Holds ⟨r, s⟩ → start + offset ≤ s → first.message.block.slot ≤ s := by
  induction count generalizing offset with
  | zero => exact ⟨[], rfl, .nil, fun _ h => nomatch h⟩
  | succ count ih =>
    obtain ⟨blocks, hblocks, hchain, hfirst⟩ := ih (offset + 1) (by omega)
      fun r s held hle hlt => legible held (by omega) (by omega)
    have hread {block : Block} := @Indexed.getBlockBySlot store indexed slot (start + offset) block
      hslot (by omega)
    rw [List.range'_succ]
    unfold StoreReqRespHandler.rangeLoop
    rw [Nat.mul_one]
    split
    · exact ⟨[], rfl, .nil, fun _ h => nomatch h⟩
    · cases hblock : store.getBlockBySlot (start + offset) with
      | none =>
        -- no block at this slot, so the first one is later
        refine ⟨blocks, hblocks, hchain, fun first hmem => ?_⟩
        obtain ⟨hstored, hle, hleast⟩ := hfirst first hmem
        refine ⟨hstored, by omega, fun r s held hs => hleast held ?_⟩
        rcases hs.eq_or_lt with rfl | hlt
        · obtain ⟨block, hr, hs⟩ := held
          rw [hread.mpr ⟨r, hr, hs⟩] at hblock
          cases hblock
        · omega
      | some block =>
        obtain ⟨r, hr, hs⟩ := hread.mp hblock
        obtain ⟨rfl, signed, hsigned, rfl⟩ := line.signed hr
        have held : store.Holds
            ⟨signed.message.block.hashTreeRoot codec.toSsz, start + offset⟩ := ⟨_, hr, hs⟩
        obtain ⟨found, hfound, hsame⟩ := readSignedBlock_legible hsigned
          (legible held (by omega) (by omega) signed hsigned)
        rw [← hsame] at hr hs held hfound
        refine ⟨found :: blocks, ?_, List.isChain_cons.mpr ⟨fun next hnext => ?_, hchain⟩, ?_⟩
        · rw [← hsame]
          simp only [bind, Except.bind, hfound, hblocks]
          rfl
        · -- the parent of the next block is stored, and nothing is stored in between
          obtain ⟨hstored, hle, hleast⟩ := hfirst next hnext
          obtain ⟨s, hbelow, hparent, hbetween⟩ := line.parents hstored (by omega)
          have hge := hbetween held (by omega)
          have hsame : s = start + offset := by
            by_contra hne
            have := hleast hparent (by omega)
            omega
          rw [hsame] at hparent
          exact indexed.covers.one hparent held
        · intro first hmem
          cases hmem
          exact ⟨hr, hs.ge, fun _ _ _ h => hs.le.trans h⟩

/-- **A line that is indexed has a canonical index**, if the finalized checkpoint is on it. -/
theorem Indexed.canonical {codec : SszEncoder} (digest : List Byte → Bytes32)
    (indexed : store.Indexed) (line : store.Line codec.toSsz base)
    (finalized : ∀ root ∈ store.live.finalized, ∀ slot ∈ store.live.finalizedSlot,
      base ≤ slot → store.Holds ⟨root, slot⟩) : store.CanonicalIndex codec digest base := by
  have hancestor {root r : Bytes32} {slot s : Nat} (hroot : root ∈ store.live.finalized)
      (hslot : slot ∈ store.live.finalizedSlot) (hbase : base ≤ s) (le : s ≤ slot) :
      store.Holds ⟨r, s⟩ ↔ store.AncestorAt root s r :=
    ⟨fun h => ⟨line.climbs indexed (finalized root hroot slot hslot (hbase.trans le)) h le, h⟩,
      fun h => h.2⟩
  constructor
  · intro root hroot slot hslot s r hbase le
    rw [indexed.block_iff hslot le]
    exact hancestor hroot hslot hbase le
  · intro root hroot slot hslot s r hbase le
    rw [indexed.covers.state_iff]
    exact hancestor hroot hslot hbase le
  · intro slot hslot request hstep hbase le legible
    unfold StoreReqRespHandler.blocksByRange
    rw [max_eq_right hstep, List.range_eq_range']
    obtain ⟨blocks, hblocks, hchain, -⟩ := rangeLoop_chain line indexed hslot hbase 0
      (min request.count maxBlocksPerRequest) (by omega)
      fun r s held hle hlt => legible held hle (by omega)
    exact ⟨blocks, hblocks, hchain⟩

end FileStore

namespace NodeStore

variable {ssz : Ssz} {verifier : SignatureVerifier} {base : Nat} {node : NodeStore}
  {signed : SignedBlockWithAttestation}

/-! ## One call -/

/-- A checkpoint from slot `base` on is a stored block of its slot. -/
def Fits (store : FileStore) (base : Nat) (checkpoint : Checkpoint) : Prop :=
  base ≤ checkpoint.slot → store.Holds checkpoint

/-- The invariant: the stored blocks are one line with its indexes, and what the store and the
states name as finalized is on it. -/
structure InLine (ssz : Ssz) (base : Nat) (node : NodeStore) : Prop where
  tree : node.store.Tree base
  line : node.store.Line ssz base
  indexed : node.store.Indexed
  started : ∃ slot, node.store.live.finalizedSlot = some slot
  finalized : ∀ root ∈ node.store.live.finalized, ∀ slot ∈ node.store.live.finalizedSlot,
    Fits node.store base ⟨root, slot⟩
  live : Fits node.store base node.live.latestFinalized
  replay : ∀ state ∈ node.replay, Fits node.store base state.latestFinalized

variable {store : FileStore}

private theorem fits_later {old new : Checkpoint} (hold : Fits store base old)
    (hnew : Fits store base new) : Fits store base (FileStore.laterCheckpoint old new) := by
  rcases (FileStore.laterCheckpoint_cases old new).1 with h | h
  · rw [h]
    exact hold
  · rw [h]
    exact hnew

/-- The block is new, on the head of the store, and its bucket of the ring is free. -/
def OnHead (ssz : Ssz) (store : FileStore) (signed : SignedBlockWithAttestation) : Prop :=
  store.live.head = some signed.message.block.parentRoot ∧
    store.getBlock (signed.root ssz) = none ∧
    store.pendingBlocks.Free signed.message.block.slot
  deriving Decidable

/-- The block comes again: it is the head, or behind the live state. -/
def Again (ssz : Ssz) (node : NodeStore) (signed : SignedBlockWithAttestation) : Prop :=
  node.store.getBlock (signed.root ssz) = some signed.message.block ∧
    node.store.pendingBlocks.Free signed.message.block.slot ∧
    (node.store.live.head = some (signed.root ssz) ∨ signed.message.block.slot < node.live.slot)
  deriving Decidable

/-- What an import finds, for the stored blocks to stay one line. A block whose parent is not stored
is refused and may be any. -/
def Straight (ssz : Ssz) (node : NodeStore) : NodeCall → Prop
  | .seed _ => False
  | .setFinalized _ => True
  | .setFinalizedCheckpoint checkpoint =>
    node.store.Holds checkpoint ∨
      ∃ current ∈ node.store.live.finalizedSlot, checkpoint.slot < current
  | .putSignedBlock signed =>
    (node.store.loadStateByBlockRoot signed.message.block.parentRoot).isSome = true →
      (OnHead ssz node.store signed ∧ node.live.slot ≤ signed.message.block.slot) ∨
        Again ssz node signed
  | .putPrevalidatedSignedBlock signed postState =>
    OnHead ssz node.store signed ∧
      ∃ parent ∈ node.store.loadStateByBlockRoot signed.message.block.parentRoot,
        stateTransitionInner ssz signed.message.block parent = .ok () postState
  | .putBackfillSignedBlock signed _ | .putRangeSignedBlock signed =>
    (node.store.loadStateByBlockRoot signed.message.block.parentRoot).isSome = true →
      OnHead ssz node.store signed
  | .mergeReplay | .dropReplay => True

instance (node : NodeStore) : (call : NodeCall) → Decidable (node.Straight ssz call)
  | .seed _ => isFalse id
  | .setFinalized _ => isTrue trivial
  | .setFinalizedCheckpoint _ => inferInstanceAs (Decidable (_ ∨ ∃ current ∈ _, _))
  | .putSignedBlock _ => inferInstanceAs (Decidable (_ → _ ∧ _ ∨ _))
  | .putPrevalidatedSignedBlock _ _ => inferInstanceAs (Decidable (_ ∧ ∃ parent ∈ _, _))
  | .putBackfillSignedBlock _ _ | .putRangeSignedBlock _ => inferInstanceAs (Decidable (_ → _))
  | .mergeReplay | .dropReplay => isTrue trivial

section Put

variable {post live : State} {justified finalized : Checkpoint} {updateHead : Bool}
  {replay : Option State}

section

variable (inLine : node.InLine ssz base)

include inLine

private theorem InLine.withStates (live_fits : Fits node.store base live.latestFinalized)
    (replay_fits : ∀ state ∈ replay, Fits node.store base state.latestFinalized) :
    ({ node with live, replay } : NodeStore).InLine ssz base :=
  ⟨inLine.tree, inLine.line, inLine.indexed, inLine.started, inLine.finalized, live_fits,
    replay_fits⟩

private theorem InLine.wrote {put : FileStore}
    (hput : node.store.persistSignedBlockBundleInner (signed.root ssz) signed post justified
      finalized updateHead = put)
    (noClash : node.store.NoClash (signed.root ssz) signed.message.block)
    (alone : ∀ ⦃r⦄, node.store.Holds ⟨r, signed.message.block.slot⟩ → r = signed.root ssz)
    (free : node.store.pendingBlocks.Free signed.message.block.slot) (line : put.Line ssz base)
    (tells : node.store.Tells base post)
    (header : post.latestBlockHeader.slot = signed.message.block.slot)
    (fits : Fits node.store base finalized) :
    (⟨put, node.live, node.replay⟩ : NodeStore).InLine ssz base := by
  subst hput
  have hgrows {checkpoint : Checkpoint} (h : Fits node.store base checkpoint) :
      Fits (node.store.persistSignedBlockBundleInner (signed.root ssz) signed post justified
        finalized updateHead) base checkpoint := fun hbase => (h hbase).bundle noClash
  obtain ⟨slot, hslot⟩ := inLine.started
  obtain ⟨slot', hslot'⟩ : ∃ slot', (node.store.persistSignedBlockBundleInner (signed.root ssz)
      signed post justified finalized updateHead).live.finalizedSlot = some slot' := by
    cases updateHead with
    | true => exact ⟨_, rfl⟩
    | false => exact ⟨_, hslot⟩
  refine ⟨inLine.tree.put noClash (tells.bundle noClash) header, line,
    FileStore.Indexed.put rfl hslot' inLine.indexed noClash alone free, ⟨slot', hslot'⟩, ?_,
    hgrows inLine.live, fun state hstate => hgrows (inLine.replay state hstate)⟩
  cases updateHead with
  | true =>
    intro root hroot slot hslot
    cases hroot
    cases hslot
    exact hgrows fits
  | false => exact fun root hroot slot hslot => hgrows (inLine.finalized root hroot slot hslot)

private theorem InLine.later (onHead : OnHead ssz node.store signed)
    (hparent : node.store.loadStateByBlockRoot signed.message.block.parentRoot = some parent)
    (run : stateTransitionInner ssz signed.message.block parent = .ok () post) :
    ∀ ⦃r s⦄, node.store.Holds ⟨r, s⟩ → s < signed.message.block.slot := by
  obtain ⟨root, slot, hroot, hheld, hlast⟩ := inLine.line.head
  cases Option.some_inj.mp (hroot.symm.trans onHead.1)
  intro r s h
  have hslot := hheld.slot_unique (inLine.tree.slotted hparent)
  have hlt := (stateTransitionInner_extends run).slot_lt
  have hle := hlast h
  omega

private theorem InLine.post_fits
    (hparent : node.store.loadStateByBlockRoot signed.message.block.parentRoot = some parent)
    (run : stateTransitionInner ssz signed.message.block parent = .ok () post) :
    Fits node.store base post.latestFinalized :=
  (inLine.tree.advance hparent run).finalized

/-- **A new block on the head.** -/
theorem InLine.extend (onHead : OnHead ssz node.store signed)
    (hparent : node.store.loadStateByBlockRoot signed.message.block.parentRoot = some parent)
    (run : stateTransitionInner ssz signed.message.block parent = .ok () post)
    (fits : Fits node.store base finalized) :
    (⟨node.store.persistSignedBlockBundleInner (signed.root ssz) signed post justified finalized
      true, node.live, node.replay⟩ : NodeStore).InLine ssz base := by
  have later := inLine.later onHead hparent run
  exact inLine.wrote rfl (FileStore.noClash_of_none onHead.2.1)
    (fun r h => absurd (later h) (Nat.lt_irrefl _)) onHead.2.2
    (FileStore.Line.put rfl rfl inLine.line onHead.2.1 later onHead.1 rfl)
    (inLine.tree.advance hparent run) (stateTransitionInner_extends run).slot_eq fits

/-- **A stored block that comes again.** -/
theorem InLine.again
    (stored : node.store.getBlock (signed.root ssz) = some signed.message.block)
    (free : node.store.pendingBlocks.Free signed.message.block.slot)
    (tells : node.store.Tells base post)
    (header : post.latestBlockHeader.slot = signed.message.block.slot)
    (head : updateHead = true → node.store.live.head = some (signed.root ssz))
    (fits : Fits node.store base finalized) :
    (⟨node.store.persistSignedBlockBundleInner (signed.root ssz) signed post justified finalized
      updateHead, node.live, node.replay⟩ : NodeStore).InLine ssz base := by
  have hself : node.store.Holds ⟨signed.root ssz, signed.message.block.slot⟩ :=
    ⟨_, stored, rfl⟩
  have noClash : node.store.NoClash (signed.root ssz) signed.message.block := by
    intro old hold
    rw [Option.mem_unique hold stored]
  refine inLine.wrote rfl noClash (fun r h => inLine.indexed.covers.one h hself) free ?_ tells
    header fits
  refine FileStore.Line.reput rfl rfl inLine.line stored ?_
  cases updateHead with
  | true => exact (head rfl).symm
  | false => rfl

private theorem InLine.putSignedBlock
    (straight : node.Straight ssz (.putSignedBlock signed))
    (h : node.store.putSignedBlockInner ssz verifier (signed.root ssz) signed node.live =
      .ok (store, live)) : ({ node with store, live } : NodeStore).InLine ssz base := by
  obtain ⟨replayed, hreplay, hcases⟩ := FileStore.putSignedBlockInner_ok h
  obtain ⟨parent, hparent, hrun⟩ := FileStore.replaySignedBlockFromParent_ok.mp hreplay
  obtain ⟨tells, hslot, hheader⟩ := inLine.tree.replay hreplay
  have hfits : Fits node.store base replayed.latestFinalized := tells.finalized
  have hheaderSlot : replayed.latestBlockHeader.slot = signed.message.block.slot :=
    congrArg BlockHeader.slot hheader
  have hlater := fits_later inLine.live hfits
  have hlive : Fits node.store base live.latestFinalized := by
    rcases hcases with ⟨-, -, rfl⟩ | ⟨-, -, rfl⟩
    · exact hlater
    · dsimp only
      split
      · exact hlater
      · exact inLine.live
  have moved := inLine.withStates hlive inLine.replay
  rcases straight (by rw [hparent]; rfl) with ⟨onHead, hahead⟩ | ⟨stored, free, hhead⟩
  · rcases hcases with ⟨-, rfl, -⟩ | ⟨hnear, -⟩
    · exact moved.extend onHead hparent (processSignedBlock_transition hrun) hlater
    · omega
  · rcases hcases with ⟨hfar, rfl, -⟩ | ⟨-, rfl, -⟩
    · exact moved.again stored free tells hheaderSlot (fun _ => hhead.resolve_right (by omega))
        hlater
    · exact moved.again stored free tells hheaderSlot nofun hlater

private theorem InLine.putPrevalidatedSignedBlock
    (straight : node.Straight ssz (.putPrevalidatedSignedBlock signed post))
    (h : node.store.putPrevalidatedSignedBlock ssz (signed.root ssz) signed node.live post =
      .ok (store, live)) : ({ node with store, live } : NodeStore).InLine ssz base := by
  obtain ⟨onHead, parent, hparent, hrun⟩ := straight
  obtain ⟨rfl, hmerged⟩ := FileStore.putPrevalidatedSignedBlock_ok h
  have hlater := fits_later inLine.live (inLine.post_fits hparent hrun)
  have hlive : Fits node.store base live.latestFinalized := by
    rw [hmerged]
    exact hlater
  exact (inLine.withStates hlive inLine.replay).extend onHead hparent hrun hlater

/-- A backfilled block, whatever state it is put with, and wherever its state goes. -/
theorem InLine.backfill {store : FileStore} {state : State}
    (straight : node.Straight ssz (.putRangeSignedBlock signed))
    (h : node.store.putBackfillSignedBlock ssz verifier (signed.root ssz) signed state =
      .ok (store, post)) :
    ({ node with store, live := post } : NodeStore).InLine ssz base ∧
      ({ node with store, replay := some post } : NodeStore).InLine ssz base := by
  obtain ⟨hreplay, -, rfl⟩ := putBackfill_ok.mp h
  obtain ⟨parent, hparent, hrun⟩ := FileStore.replaySignedBlockFromParent_ok.mp hreplay
  have onHead := straight (by rw [hparent]; rfl)
  have htransition := processSignedBlock_transition hrun
  have hfits := inLine.post_fits hparent htransition
  constructor
  · exact (inLine.withStates hfits inLine.replay).extend onHead hparent htransition hfits
  · have hreplayed : ∀ state ∈ some post, Fits node.store base state.latestFinalized := by
      simpa using hfits
    exact (inLine.withStates inLine.live hreplayed).extend onHead hparent htransition hfits

end

end Put

private theorem InLine.setFinalizedCheckpoint (inLine : node.InLine ssz base)
    (safe : node.store.Holds checkpoint ∨
      ∃ current ∈ node.store.live.finalizedSlot, checkpoint.slot < current) :
    ({ node with store := node.store.setFinalizedCheckpoint checkpoint } : NodeStore).InLine ssz
      base := by
  rcases node.store.setFinalizedCheckpoint_cases checkpoint with ⟨hsame, -⟩ | ⟨taken, hlive, -⟩
  · exact hsame.symm ▸ inLine
  · have hblobs := FileStore.sameBlobs_setFinalizedCheckpoint node.store checkpoint
    have hgrows {other : Checkpoint} (h : Fits node.store base other) :
        Fits (node.store.setFinalizedCheckpoint checkpoint) base other :=
      fun hbase => (h hbase).congr hblobs
    refine ⟨inLine.tree.congr hblobs, inLine.line.congr hblobs ?_,
      inLine.indexed.setFinalizedCheckpoint checkpoint, ⟨checkpoint.slot, by rw [hlive]⟩, ?_,
      hgrows inLine.live, fun state hstate => hgrows (inLine.replay state hstate)⟩
    · exact FileStore.setFinalizedCheckpoint_head node.store checkpoint
    · intro root hroot slot hslot
      rw [hlive] at hroot hslot
      cases hroot
      cases hslot
      exact hgrows fun _ => safe.resolve_right taken

private theorem InLine.afterPut {result : Outcome (FileStore × State)}
    (inLine : node.InLine ssz base) (put : ∀ ⦃store live⦄, result = .ok (store, live) →
      ({ node with store, live } : NodeStore).InLine ssz base) :
    (node.afterPut result).InLine ssz base := by
  unfold NodeStore.afterPut
  split
  · exact inLine
  · exact put rfl

/-- **A call that is straight keeps the line.** -/
theorem InLine.call {call : NodeCall} (inLine : node.InLine ssz base)
    (straight : node.Straight ssz call) : (node.call ssz verifier call).InLine ssz base := by
  cases call with
  | seed _ => exact straight.elim
  | setFinalized root =>
    unfold NodeStore.call FileStore.setFinalized
    dsimp only
    split
    · exact inLine
    · next block hblock => exact inLine.setFinalizedCheckpoint (.inl ⟨block, hblock, rfl⟩)
  | setFinalizedCheckpoint checkpoint => exact inLine.setFinalizedCheckpoint straight
  | putSignedBlock signed =>
    exact inLine.afterPut fun _ _ => inLine.putSignedBlock straight
  | putPrevalidatedSignedBlock signed post =>
    exact inLine.afterPut fun _ _ => inLine.putPrevalidatedSignedBlock straight
  | putBackfillSignedBlock signed start =>
    unfold NodeStore.call
    dsimp only
    split
    · exact inLine
    · next h => exact (inLine.backfill straight h).2
  | putRangeSignedBlock signed =>
    exact inLine.afterPut fun _ _ h => (inLine.backfill straight h).1
  | mergeReplay =>
    unfold NodeStore.call
    cases hreplay : node.replay with
    | none => exact inLine
    | some replay =>
      refine inLine.withStates ?_ nofun
      rcases mergeReplay_finalized ssz node.live replay with h | h
      · rw [h]
        exact inLine.live
      · rw [h]
        exact inLine.replay replay hreplay
  | dropReplay => exact inLine.withStates inLine.live nofun

/-! ## The seed -/

private theorem not_holds_fresh (checkpoint : Checkpoint) : ¬ FileStore.fresh.Holds checkpoint :=
  fun ⟨_, h, _⟩ => nomatch h

private theorem indexed_fresh : FileStore.fresh.Indexed where
  covers :=
    { one := fun _ _ _ h => absurd h (not_holds_fresh _)
      buckets := by
        show 0 < (List.replicate pendingWindowCap none).length
        rw [List.length_replicate]
        exact Nat.succ_pos _
      state_iff := fun _ _ => ⟨nofun, fun h => absurd h (not_holds_fresh _)⟩
      block_row := nofun
      pending := fun _ h => nomatch (List.eq_of_mem_replicate h)
      covered := fun _ _ h => absurd h (not_holds_fresh _) }
  past := nofun

private theorem line_anchor (ssz : Ssz) (signed : SignedBlockWithAttestation) (live : State) :
    (FileStore.fresh.putAnchorSignedBlock (signed.root ssz) signed live).Line ssz
      signed.message.block.slot := by
  have hiff {checkpoint : Checkpoint} :
      (FileStore.fresh.putAnchorSignedBlock (signed.root ssz) signed live).Holds checkpoint ↔
        checkpoint = ⟨signed.root ssz, signed.message.block.slot⟩ := by
    refine (FileStore.holds_bundle_iff rfl (FileStore.noClash_of_none rfl)).trans ?_
    exact ⟨fun h => h.resolve_left (not_holds_fresh _), .inr⟩
  constructor
  · intro r s h
    cases hiff.mp h
    exact Nat.le_refl _
  · intro r block hblock hlt
    have hanchor := Checkpoint.mk.inj (hiff.mp (⟨block, hblock, rfl⟩ :
      FileStore.Holds _ ⟨r, block.slot⟩))
    exact absurd hanchor.2 hlt.ne'
  · refine ⟨signed.root ssz, signed.message.block.slot, rfl, hiff.mpr rfl, fun r s h => ?_⟩
    cases hiff.mp h
    exact Nat.le_refl _
  · exact fun _ _ => FileStore.signed_bundle rfl rfl
      fun _ _ (h : FileStore.fresh.getBlock _ = _) => nomatch h

private theorem indexed_putAnchor {root : Bytes32}
    (signed : SignedBlockWithAttestation) (live : State) (indexed : store.Indexed)
    (noClash : store.NoClash root signed.message.block)
    (alone : ∀ ⦃r⦄, store.Holds ⟨r, signed.message.block.slot⟩ → r = root)
    (free : store.pendingBlocks.Free signed.message.block.slot) :
    (store.putAnchorSignedBlock root signed live).Indexed :=
  FileStore.Indexed.put rfl rfl indexed noClash alone free

/-- A seed keeps the indexes of a store that has no other block for the anchor's slot. -/
theorem indexed_seed {store store' : FileStore} {live : State} (indexed : store.Indexed)
    (noClash : store.NoClash ((buildAnchorBlock ssz state).hashTreeRoot ssz)
      (buildAnchorBlock ssz state)) (alone : ∀ ⦃r⦄, store.Holds ⟨r, state.latestBlockHeader.slot⟩ →
      r = (buildAnchorBlock ssz state).hashTreeRoot ssz)
    (free : store.pendingBlocks.Free state.latestBlockHeader.slot)
    (h : seedAnchorStoreAndForkChoice ssz store state = .ok (store', live, forkChoice)) :
    store'.Indexed := by
  obtain ⟨rfl, rfl⟩ := seedAnchor_ok h
  have hput := indexed_putAnchor (selfVoting ssz (buildAnchorBlock ssz state))
    (normalizeGenesisAnchorRoots state ((buildAnchorBlock ssz state).hashTreeRoot ssz)) indexed
    noClash alone free
  exact ((hput.setHead _).setFinalizedCheckpoint _).setJustified _

private theorem free_new (capacity slot : Nat) : (PendingSlotCache.new capacity).Free slot := by
  intro entry hentry
  have hbucket := PendingSlotCache.bucket_eq_some.mp hentry
  simp [PendingSlotCache.new, List.getElem?_replicate] at hbucket

/-- **A store seeded with an anchor is in line.** -/
theorem inLine_seed {live : State}
    (anchor : AnchorSafe ssz FileStore.fresh state)
    (h : seedAnchorStoreAndForkChoice ssz FileStore.fresh state = .ok (store, live, forkChoice)) :
    (⟨store, live, none⟩ : NodeStore).InLine ssz state.latestBlockHeader.slot := by
  obtain ⟨kept, -, held⟩ := (kept_initial state).store.seed anchor h
  have hle : live.latestFinalized.slot ≤ state.latestBlockHeader.slot := by
    rw [(seedAnchor_ok h).1]
    rcases anchor.finalized with hlt | heq
    · exact hlt.le
    · exact (congrArg Checkpoint.slot heq).le
  obtain ⟨hhead, hroot, hslot⟩ := seedAnchor_live h hle
  have hindexed : store.Indexed :=
    indexed_seed indexed_fresh anchor.free (fun r held => absurd held (not_holds_fresh _))
      (free_new _ _) h
  have hline : store.Line ssz state.latestBlockHeader.slot :=
    (line_anchor ssz (selfVoting ssz (buildAnchorBlock ssz state)) live).congr (seedAnchor_blobs h)
      hhead
  refine ⟨kept.tree_at hslot, hline, hindexed, ⟨_, hslot⟩, ?_, ?_, ?_⟩
  · intro root hr slot hs _
    obtain ⟨slot', hs', hheld⟩ := kept.finalized root hr
    cases Option.mem_unique hs hs'
    exact hheld
  · exact held _ hslot
  · intro replay h
    cases h

/-! ## Runs -/

/-- Every call of the run is straight where it is made. -/
def StraightRun (ssz : Ssz) (verifier : SignatureVerifier) (node : NodeStore)
    (calls : List NodeCall) : Prop :=
  Loops.Along (fun node call => node.call ssz verifier call) (Straight ssz) node calls
  deriving Decidable

private theorem InLine.run {calls : List NodeCall} (inLine : node.InLine ssz base)
    (straight : StraightRun ssz verifier node calls) :
    (node.run ssz verifier calls).InLine ssz base :=
  straight.keeps (InLine ssz base) (fun _ _ inLine straight => inLine.call straight) inLine

/-- **The slot indexes of a store that was fed one line are the finalized chain.** -/
theorem slotIndex_canonical (codec : SszEncoder) (digest : List Byte → Bytes32)
    (verifier : SignatureVerifier) (state live : State) (store : FileStore)
    (forkChoice : ForkChoiceStore) (anchor : AnchorSafe codec.toSsz FileStore.fresh state)
    (seeded : seedAnchorStoreAndForkChoice codec.toSsz FileStore.fresh state =
      .ok (store, live, forkChoice))
    (calls : List NodeCall)
    (straight : StraightRun codec.toSsz verifier ⟨store, live, none⟩ calls) :
    ((⟨store, live, none⟩ : NodeStore).run codec.toSsz verifier calls).store.CanonicalIndex codec
      digest state.latestBlockHeader.slot := by
  have inLine := (inLine_seed anchor seeded).run straight
  exact inLine.indexed.canonical digest inLine.line inLine.finalized

private theorem call_seed {state : State}
    (ok : (seedAnchorStoreAndForkChoice ssz node.store state).isOk = true) :
    ∃ store live forkChoice,
      seedAnchorStoreAndForkChoice ssz node.store state = .ok (store, live, forkChoice) ∧
        node.call ssz verifier (.seed state) = ⟨store, live, none⟩ := by
  unfold call
  dsimp only
  cases h : seedAnchorStoreAndForkChoice ssz node.store state with
  | error e =>
    rw [h] at ok
    cases ok
  | ok seeded => exact ⟨_, _, _, rfl, rfl⟩

private theorem sampleRun_cons (first : NodeCall) (rest : List NodeCall) :
    sampleRun (first :: rest) = ((initial anchorGenesis).call anchorSsz noopSignatureVerifier
      first).run anchorSsz noopSignatureVerifier rest :=
  rfl

/-- Blocks by gossip. -/
def gossipCalls (blocks : List SignedBlockWithAttestation) : List NodeCall :=
  blocks.map .putSignedBlock

/-- The blocks of a plan, and the last of them once more. -/
def twiceTold (plan : List PlannedBlock) : List NodeCall :=
  let blocks := buildBlocks anchorSsz noopSignatureVerifier plan anchorGenesis
  gossipCalls (blocks ++ blocks.drop 3)

/-- The crate of the layout, with the hashes of the runs. -/
def anchorEncoder : SszEncoder := { layoutEncoder.toSszEncoder with toSsz := anchorSsz }

/-- Two blocks are finalized on the way, have their rows, and are sent as a chain. -/
theorem slotIndex_canonical_twoFinalized :
    (sampleRun (.seed anchorGenesis :: twiceTold twoFinalized)).store.live.finalizedSlot =
        some 2 ∧
      (sampleRun (.seed anchorGenesis :: twiceTold twoFinalized)).store.blockBySlot.keys.length =
        3 ∧
      (sampleRun (.seed anchorGenesis :: twiceTold twoFinalized)).store.CanonicalIndex
        anchorEncoder (fun _ => 0#256) anchorGenesis.latestBlockHeader.slot ∧
      ∃ blocks, StoreReqRespHandler.blocksByRange anchorEncoder (fun _ => 0#256)
          (sampleRun (.seed anchorGenesis :: twiceTold twoFinalized)).store ⟨0, 3, 1⟩ =
            .ok blocks ∧
        blocks.IsChain fun earlier later =>
          later.message.block.parentRoot = earlier.message.block.hashTreeRoot anchorSsz := by
  have hslot : (sampleRun (.seed anchorGenesis ::
      twiceTold twoFinalized)).store.live.finalizedSlot = some 2 := by decide +kernel
  have anchor : AnchorSafe anchorSsz FileStore.fresh anchorGenesis := by decide +kernel
  obtain ⟨store, live, forkChoice, seeded, hstart⟩ :=
    @call_seed anchorSsz noopSignatureVerifier (initial anchorGenesis) anchorGenesis
      (by decide +kernel)
  have canonical (calls : List NodeCall) (straight : StraightRun anchorSsz noopSignatureVerifier
      ((initial anchorGenesis).call anchorSsz noopSignatureVerifier (.seed anchorGenesis)) calls) :
      (sampleRun (.seed anchorGenesis :: calls)).store.CanonicalIndex anchorEncoder
        (fun _ => 0#256) anchorGenesis.latestBlockHeader.slot := by
    rw [hstart] at straight
    rw [sampleRun_cons, hstart]
    exact slotIndex_canonical anchorEncoder (fun _ => 0#256) noopSignatureVerifier anchorGenesis
      live store forkChoice anchor seeded calls straight
  have hcanonical := canonical (twiceTold twoFinalized) (by decide +kernel)
  have legible : (sampleRun (.seed anchorGenesis :: twiceTold twoFinalized)).store.Legible
      anchorEncoder fun _ => 0#256 := by decide +kernel
  exact ⟨hslot, by decide +kernel, hcanonical, hcanonical.range 2 hslot ⟨0, 3, 1⟩ (by decide)
    (by decide +kernel) (by decide) fun r _ _ _ _ => legible r⟩

/-- A second block for slot 1, beside the first of the plan. -/
def rivalBlock : SignedBlockWithAttestation :=
  PlannedBlock.build anchorSsz ⟨1, [⟨0, 0, voters 3 1#8⟩]⟩ anchorGenesis

/-- The plan with the rival right after its first block. -/
def rivalStore : FileStore :=
  let blocks := buildBlocks anchorSsz noopSignatureVerifier twoFinalized anchorGenesis
  (sampleRun (.seed anchorGenesis ::
    gossipCalls (blocks.take 1 ++ rivalBlock :: blocks.drop 1))).store

/-- Whether a block is the rival, and whether its parent is. -/
def byRival (signed : SignedBlockWithAttestation) : Bool × Bool :=
  (decide (signed.root anchorSsz = rivalBlock.root anchorSsz),
    decide (signed.message.block.parentRoot = rivalBlock.root anchorSsz))

private theorem not_chain_byRival {blocks : List SignedBlockWithAttestation} {p q : Bool}
    (h : blocks.map byRival = [(true, p), (q, false)]) :
    ¬ blocks.IsChain fun earlier later =>
      later.message.block.parentRoot = earlier.message.block.hashTreeRoot anchorSsz := by
  obtain ⟨first, rest, rfl, hfirst, hrest⟩ := List.map_eq_cons_iff.mp h
  obtain ⟨second, rest, rfl, hsecond, -⟩ := List.map_eq_cons_iff.mp hrest
  have hrival := of_decide_eq_true (Prod.mk.inj hfirst).1
  have hother := of_decide_eq_false (Prod.mk.inj hsecond).2
  intro chain
  exact hother ((List.isChain_cons_cons.mp chain).1.trans hrival)

/-- **A rival takes the row of a finalized ancestor.** The block finalized at slot 2 has a parent at
slot 1, and both slot indexes have the rival there. The two blocks sent for slots 1 and 2 are not
parent and child. -/
theorem rival_takes_row :
    rivalStore.live.finalizedSlot = some 2 ∧
      rivalStore.blockBySlot.lookup 1 = some (rivalBlock.root anchorSsz) ∧
      rivalStore.stateBySlot.lookup 1 = some (rivalBlock.root anchorSsz) ∧
      (∃ root ∈ rivalStore.live.finalized, ∃ r, r ≠ rivalBlock.root anchorSsz ∧
        rivalStore.AncestorAt root 1 r) ∧
      ∃ blocks, StoreReqRespHandler.blocksByRange anchorEncoder (fun _ => 0#256) rivalStore
          ⟨1, 2, 1⟩ = .ok blocks ∧
        ¬ blocks.IsChain fun earlier later =>
          later.message.block.parentRoot = earlier.message.block.hashTreeRoot anchorSsz := by
  refine ⟨by decide +kernel, by decide +kernel, by decide +kernel, ?_, ?_⟩
  · have hparent : ((rivalStore.live.finalized.bind rivalStore.parentOf).bind
        rivalStore.getBlock).map (·.slot) = some 1 := by decide +kernel
    have hne : rivalStore.live.finalized.bind rivalStore.parentOf ≠
        some (rivalBlock.root anchorSsz) := by decide +kernel
    obtain ⟨block, hblock, hone⟩ := Option.map_eq_some_iff.mp hparent
    obtain ⟨r, hr, hblock⟩ := Option.bind_eq_some_iff.mp hblock
    obtain ⟨root, hroot, hup⟩ := Option.bind_eq_some_iff.mp hr
    refine ⟨root, hroot, r, ?_, .step hup (.refl _ _), block, hblock, hone⟩
    rintro rfl
    exact hne hr
  · have hsent : (StoreReqRespHandler.blocksByRange anchorEncoder (fun _ => 0#256) rivalStore
        ⟨1, 2, 1⟩).map (List.map byRival) = .ok [(true, false), (false, false)] := by
      decide +kernel
    cases hblocks : StoreReqRespHandler.blocksByRange anchorEncoder (fun _ => 0#256) rivalStore
        ⟨1, 2, 1⟩ with
    | error failure =>
      rw [hblocks] at hsent
      cases hsent
    | ok blocks =>
      rw [hblocks] at hsent
      exact ⟨blocks, rfl, not_chain_byRival (Except.ok.inj hsent)⟩

end NodeStore

end Peam
