import Mathlib.Data.Finset.Card
import Mathlib.Data.Int.ModEq
import Peam.FileStore

/-!
# The pending ring as a finite map

A slot has one bucket, and an insert takes it whatever slot it held. So an entry sits in the bucket
of its own slot (`WellPlaced`), and since a read compares slots, it never finds what was inserted
for another one. As long as the stored slots and the one that comes in lie within a window of as
many slots as there are buckets, an insert overwrites its own slot alone, and the ring is the map
that the operations describe (`pendingRing_refines`).
-/

namespace Peam

namespace PendingSlotCache

variable {cache : PendingSlotCache} {entry : PendingEntry} {slot capacity : Nat} {root : Bytes32}

/-! ## Buckets -/

/-- What a bucket holds. -/
theorem bucket_eq_some {entries : List (Option PendingEntry)} {i : Nat} :
    entries.getD i none = some entry ↔ entries[i]? = some (some entry) := by
  rw [List.getD_eq_getElem?_getD]
  cases entries[i]? <;> simp

/-- A read asks the bucket for the slot. -/
theorem get_eq_some : cache.get slot = some entry ↔
    cache.entries[slot % cache.entries.length]? = some (some entry) ∧ entry.slot = slot := by
  rw [get, Option.filter_eq_some_iff, bucket_eq_some, decide_eq_true_eq]

private theorem getElem_insert (pos : 0 < cache.entries.length) (i : Nat) :
    (cache.insert slot root).entries[i]? =
      if slot % cache.entries.length = i then some (some ⟨slot, root⟩) else cache.entries[i]? := by
  show (cache.entries.set (slot % cache.entries.length) _)[i]? = _
  rw [List.getElem?_set, if_pos (Nat.mod_lt slot pos)]

/-- An insert evicts what its bucket held. -/
theorem mem_insert_iff (pos : 0 < cache.entries.length) :
    some entry ∈ (cache.insert slot root).entries ↔ entry = ⟨slot, root⟩ ∨
      ∃ i, slot % cache.entries.length ≠ i ∧ cache.entries[i]? = some (some entry) := by
  simp only [List.mem_iff_getElem?, getElem_insert pos]
  constructor
  · rintro ⟨i, hi⟩
    split at hi
    · cases hi
      exact .inl rfl
    · next hne => exact .inr ⟨i, hne, hi⟩
  · rintro (rfl | ⟨i, hne, hi⟩)
    · exact ⟨_, if_pos rfl⟩
    · exact ⟨i, by rw [if_neg hne, hi]⟩

private theorem clear_eq (gone : PendingEntry → Bool) (entries : List (Option PendingEntry))
    (count : Nat) : clear gone entries count = (entries.map (·.filter (!gone ·)),
      count - ((entries.filterMap id).filter gone).length, (entries.filterMap id).filter gone) := by
  induction entries generalizing count with
  | nil => rfl
  | cons bucket rest ih =>
    cases bucket with
    | none =>
      rw [clear, ih]
      rfl
    | some value =>
      rw [clear, ih, ih]
      cases hgone : gone value with
      | false => simp [hgone, Option.filter]
      | true => simp [hgone, Option.filter, Nat.sub_sub, Nat.add_comm]

/-- Draining leaves the buckets past the bound and hands out the others. -/
theorem drainLeqWith_eq (upper : Nat) :
    cache.drainLeqWith upper =
      (⟨cache.entries.map (·.filter fun entry => !decide (entry.slot ≤ upper)),
        cache.count - (cache.entriesLeq upper).length⟩, cache.entriesLeq upper) := by
  rw [drainLeqWith, clear_eq]
  rfl

/-- Draining visits what listing lists. -/
theorem drainLeqWith_snd (upper : Nat) :
    (cache.drainLeqWith upper).2 = cache.entriesLeq upper := by
  rw [drainLeqWith_eq]

/-! ## The map -/

inductive Op where
  | insert (slot : Nat) (blockRoot : Bytes32)
  | drainLeq (upperInclusive : Nat)
  | retain (keep : Nat → Bytes32 → Bool)

def Op.run (cache : PendingSlotCache) : Op → PendingSlotCache
  | .insert slot blockRoot => cache.insert slot blockRoot
  | .drainLeq upperInclusive => (cache.drainLeqWith upperInclusive).1
  | .retain keep => cache.retain keep

/-- The operation on a finite map from slots to roots, given by its entries. -/
def Op.onMap (map : Finset PendingEntry) : Op → Finset PendingEntry
  | .insert slot blockRoot => {⟨slot, blockRoot⟩} ∪ map.filter (·.slot ≠ slot)
  | .drainLeq upperInclusive => map.filter (¬ ·.slot ≤ upperInclusive)
  | .retain keep => map.filter fun entry => keep entry.slot entry.blockRoot

/-- An inserted slot and those stored lie within a window of `capacity` slots. -/
def Op.InWindow (capacity : Nat) (cache : PendingSlotCache) : Op → Prop
  | .insert slot _ => ∃ low, (low ≤ slot ∧ slot < low + capacity) ∧
    ∀ bucket ∈ cache.entries, ∀ entry ∈ bucket, low ≤ entry.slot ∧ entry.slot < low + capacity
  | _ => True

/-- Every insert of the run is in such a window. -/
def Windowed (capacity : Nat) : PendingSlotCache → List Op → Prop
  | _, [] => True
  | cache, op :: ops => op.InWindow capacity cache ∧ Windowed capacity (op.run cache) ops

/-- The entries as a map. -/
def contents (cache : PendingSlotCache) : Finset PendingEntry :=
  (cache.entries.filterMap id).toFinset

private theorem mem_contents : entry ∈ cache.contents ↔ some entry ∈ cache.entries := by
  simp [contents]

/-- An entry is in the bucket of its slot, came with an insert of `done`, and is counted. -/
structure WellPlaced (capacity : Nat) (done : List Op) (cache : PendingSlotCache) : Prop where
  length_eq : cache.entries.length = capacity
  bucket : ∀ ⦃i entry⦄, cache.entries[i]? = some (some entry) → entry.slot % capacity = i
  came : ∀ ⦃entry⦄, some entry ∈ cache.entries → .insert entry.slot entry.blockRoot ∈ done
  count_eq : cache.count = (cache.entries.filterMap id).length

namespace WellPlaced

/-- The empty ring. -/
theorem start (capacity : Nat) : WellPlaced capacity [] (new capacity) where
  length_eq := List.length_replicate
  bucket i entry h := by simp [new, List.getElem?_replicate] at h
  came entry h := by simp [new] at h
  count_eq := by simp [new]

variable {done : List Op} (placed : WellPlaced capacity done cache)

include placed

private theorem get_iff :
    cache.get slot = some entry ↔ some entry ∈ cache.entries ∧ entry.slot = slot := by
  rw [get_eq_some, placed.length_eq, and_congr_left_iff]
  rintro rfl
  refine ⟨List.mem_of_getElem?, fun h => ?_⟩
  obtain ⟨i, hi⟩ := List.getElem?_of_mem h
  rw [placed.bucket hi, hi]

private theorem nodup : (cache.entries.filterMap id).Nodup := by
  refine List.pairwise_filterMap.mpr (List.pairwise_iff_getElem.mpr ?_)
  rintro i j hi hj hlt entry hentry _ hsame rfl
  have hi' := placed.bucket (List.getElem?_eq_some_iff.mpr ⟨hi, hentry⟩)
  have hj' := placed.bucket (List.getElem?_eq_some_iff.mpr ⟨hj, hsame⟩)
  omega

/-! ## One operation -/

private theorem clear (gone : PendingEntry → Bool) (op : Op) :
    let out := PendingSlotCache.clear gone cache.entries cache.count
    WellPlaced capacity (done ++ [op]) ⟨out.1, out.2.1⟩ ∧
      contents ⟨out.1, out.2.1⟩ = cache.contents.filter (!gone ·) := by
  rw [clear_eq]
  dsimp only
  have hmem : ∀ ⦃entry⦄, some entry ∈ cache.entries.map (·.filter (!gone ·)) ↔
      some entry ∈ cache.entries ∧ (!gone entry) = true := by
    simp [Option.filter_eq_some_iff]
  refine ⟨⟨?_, ?_, ?_, ?_⟩, ?_⟩
  · exact (List.length_map _).trans placed.length_eq
  · intro i entry h
    rw [List.getElem?_map, Option.map_eq_some_iff] at h
    obtain ⟨bucket, hbucket, hkeep⟩ := h
    rw [(Option.filter_eq_some_iff.mp hkeep).1] at hbucket
    exact placed.bucket hbucket
  · exact fun entry h => List.mem_append_left _ (placed.came (hmem.mp h).1)
  · have hsplit := List.length_eq_length_filter_add (l := cache.entries.filterMap id) gone
    have hkept : (cache.entries.map (·.filter (!gone ·))).filterMap id =
        (cache.entries.filterMap id).filter (!gone ·) := by
      rw [List.filterMap_map, List.filter_filterMap]
      rfl
    dsimp only
    rw [placed.count_eq, hkept]
    omega
  · ext entry
    rw [Finset.mem_filter, mem_contents, mem_contents, hmem]

variable (pos : 0 < capacity)

include pos

private theorem mem_insert : some entry ∈ (cache.insert slot root).entries ↔ entry = ⟨slot, root⟩ ∨
    some entry ∈ cache.entries ∧ slot % capacity ≠ entry.slot % capacity := by
  rw [mem_insert_iff (placed.length_eq.symm ▸ pos), placed.length_eq]
  refine or_congr_right ⟨fun ⟨i, hne, hi⟩ => ?_, fun ⟨h, hne⟩ => ?_⟩
  · exact ⟨List.mem_of_getElem? hi, placed.bucket hi ▸ hne⟩
  · obtain ⟨i, hi⟩ := List.getElem?_of_mem h
    exact ⟨i, placed.bucket hi ▸ hne, hi⟩

private theorem insert (slot : Nat) (root : Bytes32) :
    WellPlaced capacity (done ++ [.insert slot root]) (cache.insert slot root) := by
  have hlen := placed.length_eq
  refine ⟨List.length_set.trans hlen, ?_, ?_, ?_⟩
  · intro i entry h
    rw [getElem_insert (hlen.symm ▸ pos), hlen] at h
    split at h
    · next hi =>
      cases h
      exact hi
    · exact placed.bucket h
  · intro entry h
    rcases (placed.mem_insert pos).mp h with rfl | ⟨h, -⟩
    · exact List.mem_append_right _ List.mem_cons_self
    · exact List.mem_append_left _ (placed.came h)
  · have hlt : slot % cache.entries.length < cache.entries.length :=
      Nat.mod_lt _ (hlen.symm ▸ pos)
    have hcount := placed.count_eq
    unfold PendingSlotCache.insert
    dsimp only
    rw [List.length_filterMap_eq_countP] at hcount ⊢
    rw [List.countP_set hlt, hcount, List.getD_eq_getElem _ _ hlt]
    cases hold : cache.entries[slot % cache.entries.length] with
    | none => rfl
    | some old =>
      have hone : 0 < cache.entries.countP fun bucket => (id bucket).isSome :=
        List.countP_pos_iff.mpr ⟨_, List.getElem_mem hlt, by rw [hold]; rfl⟩
      simp only [Option.isNone_some, Bool.false_eq_true, if_false, id, Option.isSome_some, if_true]
        at hone ⊢
      omega

private theorem contents_insert (window : (Op.insert slot root).InWindow capacity cache) :
    (cache.insert slot root).contents = (Op.insert slot root).onMap cache.contents := by
  obtain ⟨low, hslot, hstored⟩ := window
  ext entry
  rw [mem_contents, placed.mem_insert pos, Op.onMap, Finset.mem_union, Finset.mem_singleton,
    Finset.mem_filter, mem_contents]
  refine or_congr_right (and_congr_right fun h => not_congr ⟨fun hmod => ?_, fun h => h ▸ rfl⟩)
  have hentry := hstored _ h entry rfl
  exact (Nat.ModEq.eq_of_abs_lt hmod (abs_lt.mpr ⟨by omega, by omega⟩)).symm

/-- **One operation**: entries stay in their buckets, and in a window the ring follows the map. -/
theorem run (op : Op) :
    WellPlaced capacity (done ++ [op]) (op.run cache) ∧
      (op.InWindow capacity cache → (op.run cache).contents = op.onMap cache.contents) := by
  cases op with
  | insert slot root => exact ⟨placed.insert pos slot root, placed.contents_insert pos⟩
  | drainLeq upper =>
    obtain ⟨hplaced, hcontents⟩ := placed.clear (·.slot ≤ upper) (.drainLeq upper)
    exact ⟨hplaced, fun _ => hcontents.trans (by simp [Op.onMap])⟩
  | retain keep =>
    obtain ⟨hplaced, hcontents⟩ :=
      placed.clear (fun entry => !keep entry.slot entry.blockRoot) (.retain keep)
    exact ⟨hplaced, fun _ => hcontents.trans (by simp [Op.onMap])⟩

/-- **A run.** -/
theorem foldl (ops : List Op) :
    WellPlaced capacity (done ++ ops) (ops.foldl Op.run cache) ∧
      (Windowed capacity cache ops →
        (ops.foldl Op.run cache).contents = ops.foldl Op.onMap cache.contents) := by
  induction ops generalizing cache done with
  | nil => exact ⟨by simpa using placed, fun _ => rfl⟩
  | cons op ops ih =>
    obtain ⟨hplaced, hcontents⟩ := placed.run pos op
    obtain ⟨hrest, hmap⟩ := ih hplaced
    rw [List.append_assoc] at hrest
    refine ⟨hrest, fun windowed => ?_⟩
    rw [List.foldl_cons, List.foldl_cons, hmap windowed.2, hcontents windowed.1]

end WellPlaced

end PendingSlotCache

open PendingSlotCache (Op Windowed WellPlaced)

/-- **The ring refines a finite map.** Over a run whose inserts are all in a window of as many slots
as there are buckets, a read finds the map's root of its slot, draining and listing visit each entry
up to the bound once and nothing else, and the count is the number of entries. Over any run, a read
finds a root that was inserted for its slot. -/
theorem pendingRing_refines {capacity : Nat} (pos : 0 < capacity) (ops : List Op) :
    let cache := ops.foldl Op.run (PendingSlotCache.new capacity)
    let map := ops.foldl Op.onMap ∅
    (Windowed capacity (PendingSlotCache.new capacity) ops →
      (∀ slot entry, cache.get slot = some entry ↔ entry ∈ map ∧ entry.slot = slot) ∧
      (∀ upper, (cache.drainLeqWith upper).2 = cache.entriesLeq upper ∧
        (cache.entriesLeq upper).Nodup ∧
        ∀ entry, entry ∈ cache.entriesLeq upper ↔ entry ∈ map ∧ entry.slot ≤ upper) ∧
      cache.len = map.card) ∧
    ∀ slot entry, cache.get slot = some entry →
      entry.slot = slot ∧ .insert slot entry.blockRoot ∈ ops := by
  intro cache map
  obtain ⟨placed, hmap⟩ := (WellPlaced.start capacity).foldl pos ops
  refine ⟨fun windowed => ?_, fun slot entry h => ?_⟩
  · have hempty : (PendingSlotCache.new capacity).contents = ∅ := by
      simp [PendingSlotCache.contents, PendingSlotCache.new]
    have hmap : cache.contents = map := (hmap windowed).trans (by rw [hempty])
    simp only [← hmap, PendingSlotCache.mem_contents]
    refine ⟨fun slot entry => placed.get_iff, fun upper => ⟨?_, placed.nodup.filter _, ?_⟩, ?_⟩
    · exact PendingSlotCache.drainLeqWith_snd upper
    · simp [PendingSlotCache.entriesLeq]
    · exact placed.count_eq.trans (List.toFinset_card_of_nodup placed.nodup).symm
  · obtain ⟨hmem, rfl⟩ := placed.get_iff.mp h
    exact ⟨rfl, by simpa using placed.came hmem⟩

/-- Slot 5 comes into the bucket of slot 1, which has been drained. -/
def wrappingOps : List Op :=
  [.insert 1 1#256, .insert 2 2#256, .drainLeq 1, .insert 5 5#256]

/-- The law at a window that wraps around. -/
theorem pendingRing_refines_wrapping :
    0 < 4 ∧ Windowed 4 (PendingSlotCache.new 4) wrappingOps ∧
      (wrappingOps.foldl Op.run (PendingSlotCache.new 4)).get 5 = some ⟨5, 5#256⟩ ∧
      (wrappingOps.foldl Op.run (PendingSlotCache.new 4)).len =
        (wrappingOps.foldl Op.onMap ∅).card := by
  have hwindow : Windowed 4 (PendingSlotCache.new 4) wrappingOps :=
    ⟨⟨1, by decide⟩, ⟨1, by decide⟩, trivial, ⟨2, by decide⟩, trivial⟩
  obtain ⟨hget, -, hlen⟩ := (pendingRing_refines (by decide) wrappingOps).1 hwindow
  exact ⟨by decide, hwindow, (hget 5 ⟨5, 5#256⟩).mpr (by decide), hlen⟩

end Peam
