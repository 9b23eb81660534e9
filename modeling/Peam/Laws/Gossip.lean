import Mathlib.Data.List.ReduceOption
import Peam.Gossip
import Peam.Lib.Ring
import Peam.Sample

/-!
# What gossip knows

The checks of a block come apart into those of its proposer's attestation and those of its place
(`SlotsInOrder.proposerPasses`).

Its parent, and the roots an attestation names, are looked up in the live state and in a ring of the
roots of its recent past. The ring is filled anew when the slots of the state have changed, and only
then. A ring filled from one state answers for another at the same slots: what it says is right
exactly as far as the recent roots of the two agree (`knowsBlockRoot_exact_iff`), and after a
reorganisation they do not (`reorg_unknown`).
-/

namespace Peam

open Rings (put putAll)

/-! ## The checks of a block -/

/-- The slots of attestation data are in order, and the last is the given one. -/
structure SlotsInOrder (slot : Nat) (data : AttestationData) : Prop where
  source : data.source.slot ≤ data.target.slot
  target : data.target.slot ≤ data.head.slot
  head : data.head.slot ≤ data.slot
  slot : data.slot = slot

private theorem SlotsInOrder.fields {slot : Nat} {data : AttestationData}
    (order : SlotsInOrder slot data) : validateAttestationFields data (some slot) = .accept := by
  unfold validateAttestationFields
  rw [if_neg (Nat.not_lt.mpr order.source), if_neg (Nat.not_lt.mpr order.target),
    if_neg (Nat.not_lt.mpr order.head), Option.any_some,
    if_neg (by simpa using order.slot.le)]

/-- What the second pass asks of a block apart from its proposer's attestation: its parent is known,
it is above the finalized slot, and it is not ahead of the clock. -/
def PlacePasses {C : Type} (context : GossipContext C) (block : Block) (asked : C) : Prop :=
  (context.knowsBlockRoot block.parentRoot asked).1 = true ∧
    (∀ slot ∈ context.finalizedSlot (context.knowsBlockRoot block.parentRoot asked).2,
      slot < block.slot) ∧
    aheadOfClock context block.slot (context.knowsBlockRoot block.parentRoot asked).2 = false

/-- The checks of the proposer's attestation pass, whatever the other checks say: the first pass
comes down to the body, and the second to the block's place. -/
structure ProposerPasses (signed : SignedBlockWithAttestation) : Prop where
  basic : validateBlockBasic signed = validateBodyFields signed.message.block.slot
    signed.message.block.body.attestations.items
  context : ∀ {C : Type} (context : GossipContext C) (asked : C),
    (validateBlockWithContext context signed asked).1 = .accept ↔
      PlacePasses context signed.message.block asked

/-- Slots in order pass both checks of the proposer's attestation. -/
theorem SlotsInOrder.proposerPasses {signed : SignedBlockWithAttestation}
    (order : SlotsInOrder signed.message.block.slot signed.message.proposerAttestation.data) :
    ProposerPasses signed where
  basic := if_neg (not_not.mpr order.slot)
  context := by
    intro C context asked
    rcases h : context.knowsBlockRoot signed.message.block.parentRoot asked with ⟨known, next⟩
    simp only [validateBlockWithContext, PlacePasses, h]
    cases known with
    | false => simp
    | true =>
      by_cases hfinal : (context.finalizedSlot next).any fun slot => signed.message.block.slot ≤ slot
      · obtain ⟨slot, hslot, hle⟩ := (Option.any_eq_true _ _).mp hfinal
        have hnot : ¬ slot < signed.message.block.slot := Nat.not_lt.mpr (of_decide_eq_true hle)
        simp only [hfinal]
        simp [hslot, hnot]
      · have hbelow : ∀ slot ∈ context.finalizedSlot next, slot < signed.message.block.slot := by
          intro slot hslot
          by_contra hnot
          exact hfinal ((Option.any_eq_true _ _).mpr ⟨slot, hslot, decide_eq_true (Nat.not_lt.mp hnot)⟩)
        cases hahead : aheadOfClock context signed.message.block.slot next with
        | false =>
          simp only [hfinal, order.fields]
          simpa using hbelow
        | true => simp [hfinal]

/-! ## A filled ring -/

section Ring

variable {ssz : Ssz} {state : State} {root : Bytes32}

/-- One of the non-zero roots among the last entries of the history. -/
def RecentRoot (state : State) (root : Bytes32) : Prop :=
  root ≠ Bytes32.zero ∧ root ∈ state.historicalBlockHashes.items.drop
    (state.historicalBlockHashes.items.length - recentRootCacheLen)

/-- The last entries of the history with their slots. -/
def recentHistory (state : State) : List (Bytes32 × Nat) :=
  state.historicalBlockHashes.items.zipIdx.drop
    (state.historicalBlockHashes.items.length - recentRootCacheLen)

namespace RecentRootCache

/-- The cell of an entry. -/
def cellOf (entry : RecentRootEntry) : Fin recentRootCacheLen := cell entry.slot

/-- The entries a history brings into the ring. -/
def historyEntries (history : List (Bytes32 × Nat)) : List RecentRootEntry :=
  (history.filter fun entry => entry.1 ≠ Bytes32.zero).map fun entry => ⟨entry.2, entry.1⟩

private theorem insertHistory_entries (cache : RecentRootCache) (history : List (Bytes32 × Nat)) :
    (cache.insertHistory history).entries =
      putAll cellOf cache.entries (historyEntries history) := by
  induction history generalizing cache with
  | nil => rfl
  | cons first rest ih =>
    show (insertHistory (if first.1 = Bytes32.zero then cache else cache.insert first.2 first.1)
      rest).entries = _
    rw [ih]
    by_cases hzero : first.1 = Bytes32.zero
    · rw [if_pos hzero, historyEntries, historyEntries, List.filter_cons_of_neg (by simpa)]
    · rw [if_neg hzero, historyEntries, historyEntries, List.filter_cons_of_pos (by simpa)]
      rfl

/-- The entry of the header. -/
def headerEntry (ssz : Ssz) (state : State) : RecentRootEntry :=
  ⟨state.latestBlockHeader.slot, state.latestBlockHeader.hashTreeRoot ssz⟩

/-- The ring that a state fills. -/
def filledFrom (ssz : Ssz) (state : State) : RecentRootCache where
  entries := putAll cellOf (put cellOf (.replicate _ none) (headerEntry ssz state))
    (historyEntries (recentHistory state))
  latestHeaderSlot := state.latestBlockHeader.slot
  stateSlot := state.slot

private theorem refreshFromState_eq (cache : RecentRootCache) :
    cache.refreshFromState ssz state =
      if cache.latestHeaderSlot = state.latestBlockHeader.slot ∧ cache.stateSlot = state.slot then
        cache
      else filledFrom ssz state := by
  unfold refreshFromState
  dsimp only
  split
  · rfl
  · rw [insertHistory_entries]
    rfl

private theorem historyEntries_apart (state : State) :
    (historyEntries (recentHistory state)).Pairwise fun e f => cellOf e ≠ cellOf f := by
  have hslots : (recentHistory state).Pairwise fun e f => cell e.2 ≠ cell f.2 := by
    rw [List.pairwise_iff_getElem]
    intro i j hi hj hlt hcell
    have hlen : j < recentRootCacheLen := by
      simp only [recentHistory, List.length_drop, List.length_zipIdx] at hj
      omega
    simp only [recentHistory, List.getElem_drop, List.getElem_zipIdx, cell, Fin.mk.injEq] at hcell
    unfold recentRootCacheLen at hcell hlen
    omega
  rw [historyEntries, List.pairwise_map]
  exact hslots.filter _

private theorem mem_historyEntries {entry : RecentRootEntry} {history : List (Bytes32 × Nat)} :
    entry ∈ historyEntries history ↔
      (entry.root, entry.slot) ∈ history ∧ entry.root ≠ Bytes32.zero := by
  rw [historyEntries, List.mem_map]
  constructor
  · rintro ⟨⟨root, slot⟩, hmem, rfl⟩
    obtain ⟨hmem, hne⟩ := List.mem_filter.mp hmem
    exact ⟨hmem, of_decide_eq_true hne⟩
  · rintro ⟨hmem, hne⟩
    exact ⟨(entry.root, entry.slot), List.mem_filter.mpr ⟨hmem, decide_eq_true hne⟩, rfl⟩

private theorem exists_historyEntry :
    (∃ entry ∈ historyEntries (recentHistory state), entry.root = root) ↔
      RecentRoot state root := by
  have hroots : (recentHistory state).map Prod.fst = state.historicalBlockHashes.items.drop
      (state.historicalBlockHashes.items.length - recentRootCacheLen) := by
    rw [recentHistory, List.map_drop, List.zipIdx_map_fst]
  rw [RecentRoot, ← hroots, List.mem_map]
  constructor
  · rintro ⟨entry, hentry, rfl⟩
    obtain ⟨hmem, hne⟩ := mem_historyEntries.mp hentry
    exact ⟨hne, _, hmem, rfl⟩
  · rintro ⟨hne, ⟨_, slot⟩, hmem, rfl⟩
    exact ⟨⟨slot, _⟩, mem_historyEntries.mpr ⟨hmem, hne⟩, rfl⟩

/-- The header's cell is not taken by an entry of the history. -/
def HeaderStays (state : State) : Prop :=
  ∀ entry ∈ recentHistory state, entry.1 ≠ Bytes32.zero →
    entry.2 % recentRootCacheLen ≠ state.latestBlockHeader.slot % recentRootCacheLen

/-- What the ring that a state fills answers: the recent roots, and the header's as long as its
cell stays its own. -/
def Filled (ssz : Ssz) (state : State) (root : Bytes32) : Prop :=
  RecentRoot state root ∨
    root = state.latestBlockHeader.hashTreeRoot ssz ∧ HeaderStays state

private theorem contains_iff {cache : RecentRootCache} : cache.contains root = true ↔
    ∃ (i : Fin recentRootCacheLen) (entry : RecentRootEntry), cache.entries[i] = some entry ∧
      entry.root = root ∧ (cache.entries.get (cell entry.slot)).isSome = true := by
  rw [contains, List.any_eq_true]
  constructor
  · rintro ⟨entry, hmem, hentry⟩
    obtain ⟨hroot, hsome⟩ := Bool.and_eq_true_iff.mp hentry
    obtain ⟨i, hi, hget⟩ := List.mem_iff_getElem.mp (List.reduceOption_mem_iff.mp hmem)
    rw [Vector.length_toList] at hi
    refine ⟨⟨i, hi⟩, entry, ?_, beq_iff_eq.mp hroot, hsome⟩
    rw [Vector.getElem_toList] at hget
    exact hget
  · rintro ⟨i, entry, hget, hroot, hsome⟩
    refine ⟨entry, List.reduceOption_mem_iff.mpr ?_,
      Bool.and_eq_true_iff.mpr ⟨beq_iff_eq.mpr hroot, hsome⟩⟩
    refine List.mem_iff_getElem.mpr ⟨i, by rw [Vector.length_toList]; exact i.isLt, ?_⟩
    rw [Vector.getElem_toList]
    exact hget

private theorem headerStays_iff (ssz : Ssz) : HeaderStays state ↔ ∀ entry ∈
    historyEntries (recentHistory state), cellOf entry ≠ cellOf (headerEntry ssz state) := by
  constructor
  · intro hstays entry hentry hcell
    obtain ⟨hmem, hne⟩ := mem_historyEntries.mp hentry
    exact hstays _ hmem hne (Fin.mk.inj hcell)
  · intro hfree entry hmem hne hcell
    exact hfree ⟨entry.2, entry.1⟩ (mem_historyEntries.mpr ⟨hmem, hne⟩) (Fin.ext hcell)

/-- What a cell of a filled ring has: the history's entry, or else the header's. -/
theorem getElem_filledFrom {i : Fin recentRootCacheLen} {entry : RecentRootEntry} :
    (filledFrom ssz state).entries[i] = some entry ↔
      cellOf entry = i ∧ (entry ∈ historyEntries (recentHistory state) ∨
        entry = headerEntry ssz state ∧ HeaderStays state) := by
  rw [filledFrom, Rings.getElem_putAll (historyEntries_apart state), Rings.getElem_put,
    headerStays_iff ssz]
  by_cases hcell : cellOf (headerEntry ssz state) = i
  · rw [if_pos hcell, Option.some_inj]
    constructor
    · rintro (⟨hmem, hat⟩ | ⟨rfl, hfree⟩)
      · exact ⟨hat, .inl hmem⟩
      · exact ⟨hcell, .inr ⟨rfl, hcell ▸ hfree⟩⟩
    · rintro ⟨hat, hmem | ⟨rfl, hfree⟩⟩
      · exact .inl ⟨hmem, hat⟩
      · exact .inr ⟨rfl, hcell ▸ hfree⟩
  · rw [if_neg hcell]
    have hnone : (Vector.replicate recentRootCacheLen (none : Option RecentRootEntry))[i] = none :=
      Vector.getElem_replicate ..
    rw [hnone]
    constructor
    · rintro (⟨hmem, hat⟩ | ⟨h, -⟩)
      · exact ⟨hat, .inl hmem⟩
      · cases h
    · rintro ⟨hat, hmem | ⟨rfl, -⟩⟩
      · exact .inl ⟨hmem, hat⟩
      · exact absurd hat hcell

/-- **What a ring filled from a state answers.** -/
theorem contains_filledFrom :
    (filledFrom ssz state).contains root = true ↔ Filled ssz state root := by
  rw [contains_iff, Filled, ← exists_historyEntry]
  constructor
  · rintro ⟨i, entry, hget, rfl, -⟩
    rcases (getElem_filledFrom.mp hget).2 with hmem | ⟨rfl, hstays⟩
    · exact .inl ⟨entry, hmem, rfl⟩
    · exact .inr ⟨rfl, hstays⟩
  · -- an entry sits in the cell of its slot, so that cell is not empty
    have hfound : ∀ {entry}, entry ∈ historyEntries (recentHistory state) ∨
        entry = headerEntry ssz state ∧ HeaderStays state →
        (filledFrom ssz state).entries[cell entry.slot] = some entry :=
      fun h => getElem_filledFrom.mpr ⟨rfl, h⟩
    rintro (⟨entry, hmem, rfl⟩ | ⟨rfl, hstays⟩)
    · have hget := hfound (.inl hmem)
      exact ⟨cell entry.slot, entry, hget, rfl, Option.isSome_of_eq_some hget⟩
    · have hget := hfound (.inr ⟨rfl, hstays⟩)
      exact ⟨_, headerEntry ssz state, hget, rfl, Option.isSome_of_eq_some hget⟩

private theorem contains_default : default.contains root = false := by
  rw [← Bool.not_eq_true, contains_iff]
  rintro ⟨i, entry, hget, -⟩
  have hnone : (default.entries)[i] = none := Vector.getElem_replicate ..
  rw [hnone] at hget
  cases hget

end RecentRootCache

end Ring

/-! ## Queries -/

section Queries

variable {ssz : Ssz} {state : State} {root : Bytes32}

/-- What a context without a store is to know of a state. -/
def Known (ssz : Ssz) (state : State) (root : Bytes32) : Prop :=
  root = Bytes32.zero ∨ root = state.latestBlockHeader.hashTreeRoot ssz ∨
    root = state.latestJustified.root ∨ root = state.latestFinalized.root ∨ RecentRoot state root

/-- The live state is written, or a root is asked for. -/
inductive GossipEvent where
  | live (state : State)
  | ask (root : Bytes32)

/-- A query of a run: what the ring was last filled from, the live state, the root, the answer. -/
structure Query where
  source : Option State
  live : State
  root : Bytes32
  answer : Bool

/-- The slots that are compared; an empty ring has slots that no chain reaches. -/
def sourceSlots : Option State → Nat × Nat
  | none => (2 ^ 64 - 1, 2 ^ 64 - 1)
  | some state => (state.latestBlockHeader.slot, state.slot)

/-- The ring filled from a source. -/
def ringOf (ssz : Ssz) : Option State → RecentRootCache
  | none => .default
  | some state => .filledFrom ssz state

/-- What the ring filled from a source answers. -/
def RingAnswers (ssz : Ssz) : Option State → Bytes32 → Prop
  | none, _ => False
  | some state, root => RecentRootCache.Filled ssz state root

/-- The source after a query: the live state, if the query came to the ring and found other
slots. -/
def sourceAfter (ssz : Ssz) (source : Option State) (live : State) (root : Bytes32) :
    Option State :=
  if root ≠ Bytes32.zero ∧ StateGossipContext.knowsDirectRoot ssz live root = false ∧
      sourceSlots source ≠ sourceSlots (some live) then some live
  else source

/-- The queries of a run. -/
def queries (ssz : Ssz) : Option State → StateGossipContext → List GossipEvent → List Query
  | _, _, [] => []
  | source, context, .live state :: rest => queries ssz source { context with state } rest
  | source, context, .ask root :: rest =>
    let (answer, next) := context.knowsBlockRoot ssz root
    ⟨source, context.state, root, answer⟩ ::
      queries ssz (sourceAfter ssz source context.state root) next rest

/-- The ring, if it is asked and not filled anew, answers as one filled from the live state
would. -/
def Query.Fresh (ssz : Ssz) (query : Query) : Prop :=
  sourceSlots query.source = sourceSlots (some query.live) → query.root ≠ Bytes32.zero →
    StateGossipContext.knowsDirectRoot ssz query.live query.root = false →
      (RingAnswers ssz query.source query.root ↔ RecentRoot query.live query.root)

variable {source : Option State}

private theorem contains_ringOf :
    (ringOf ssz source).contains root = true ↔ RingAnswers ssz source root := by
  cases source with
  | none =>
    rw [ringOf, RecentRootCache.contains_default]
    exact iff_of_false Bool.false_ne_true id
  | some state => exact RecentRootCache.contains_filledFrom

private theorem refresh_ringOf :
    (ringOf ssz source).refreshFromState ssz state =
      ringOf ssz (if sourceSlots source = sourceSlots (some state) then source else some state) := by
  have hslots : (ringOf ssz source).latestHeaderSlot = (sourceSlots source).1 ∧
      (ringOf ssz source).stateSlot = (sourceSlots source).2 := by
    cases source <;> exact ⟨rfl, rfl⟩
  rw [RecentRootCache.refreshFromState_eq, hslots.1, hslots.2, apply_ite (ringOf ssz)]
  exact if_congr Prod.mk_inj.symm rfl rfl

private theorem knowsDirectRoot_iff : StateGossipContext.knowsDirectRoot ssz state root = true ↔
    root = state.latestBlockHeader.hashTreeRoot ssz ∨ root = state.latestJustified.root ∨
      root = state.latestFinalized.root := by
  simp [StateGossipContext.knowsDirectRoot, or_assoc]

section Step

variable {source : Option State} {context : StateGossipContext}

private theorem knowsBlockRoot_direct
    (direct : root = Bytes32.zero ∨
      StateGossipContext.knowsDirectRoot ssz context.state root = true) :
    context.knowsBlockRoot ssz root = (true, context) := by
  unfold StateGossipContext.knowsBlockRoot
  by_cases hzero : root = Bytes32.zero
  · rw [if_pos hzero]
  · rw [if_neg hzero, if_pos (direct.resolve_left hzero)]

section

variable (ring : context.recentRoots = ringOf ssz source)

include ring

/-- Any other root is looked up in the ring of the source, or of the live state. -/
theorem knowsBlockRoot_ring
    (noStore : context.store = none) (nonzero : root ≠ Bytes32.zero)
    (indirect : StateGossipContext.knowsDirectRoot ssz context.state root = false) :
    context.knowsBlockRoot ssz root =
      ((ringOf ssz (sourceAfter ssz source context.state root)).contains root,
        { context with recentRoots := ringOf ssz (sourceAfter ssz source context.state root) }) := by
  have hring : context.recentRoots.refreshFromState ssz context.state =
      ringOf ssz (sourceAfter ssz source context.state root) := by
    rw [ring, refresh_ringOf, sourceAfter]
    by_cases hslots : sourceSlots source = sourceSlots (some context.state)
    · rw [if_pos hslots, if_neg fun h => h.2.2 hslots]
    · rw [if_neg hslots, if_pos ⟨nonzero, indirect, hslots⟩]
  unfold StateGossipContext.knowsBlockRoot
  rw [if_neg nonzero, if_neg (Bool.not_eq_true _ ▸ indirect), hring]
  dsimp only
  cases (ringOf ssz (sourceAfter ssz source context.state root)).contains root with
  | true => rfl
  | false =>
    rw [if_neg Bool.false_ne_true, StateGossipContext.knowsBlockRootCold, noStore]
    rfl

private theorem knowsBlockRoot_next
    (noStore : context.store = none) :
    (context.knowsBlockRoot ssz root).2.recentRoots =
        ringOf ssz (sourceAfter ssz source context.state root) ∧
      (context.knowsBlockRoot ssz root).2.store = none := by
  by_cases hdirect : root = Bytes32.zero ∨
      StateGossipContext.knowsDirectRoot ssz context.state root = true
  · rw [knowsBlockRoot_direct hdirect, sourceAfter, if_neg]
    · exact ⟨ring, noStore⟩
    · rintro ⟨hnonzero, hindirect, -⟩
      rw [hindirect] at hdirect
      exact hdirect.elim hnonzero Bool.false_ne_true
  · rw [not_or, Bool.not_eq_true] at hdirect
    rw [knowsBlockRoot_ring ring noStore hdirect.1 hdirect.2]
    exact ⟨rfl, noStore⟩

/-- The answer to a query is right exactly if it is fresh. -/
theorem knowsBlockRoot_answer
    (noStore : context.store = none) {answer : Bool}
    (asked : (context.knowsBlockRoot ssz root).1 = answer) :
    (answer = true ↔ Known ssz context.state root) ↔
      Query.Fresh ssz ⟨source, context.state, root, answer⟩ := by
  by_cases hdirect : root = Bytes32.zero ∨
      StateGossipContext.knowsDirectRoot ssz context.state root = true
  · have hknown : Known ssz context.state root := by
      rcases hdirect with hzero | hdirect
      · exact .inl hzero
      · rcases knowsDirectRoot_iff.mp hdirect with h | h | h
        · exact .inr (.inl h)
        · exact .inr (.inr (.inl h))
        · exact .inr (.inr (.inr (.inl h)))
    rw [knowsBlockRoot_direct hdirect] at asked
    refine iff_of_true (iff_of_true asked.symm hknown) fun _ hnonzero hindirect => ?_
    rw [hindirect] at hdirect
    exact (hdirect.elim hnonzero Bool.false_ne_true).elim
  · rw [not_or, Bool.not_eq_true] at hdirect
    obtain ⟨hnonzero, hindirect⟩ := hdirect
    have hnot : ¬ (root = context.state.latestBlockHeader.hashTreeRoot ssz ∨
        root = context.state.latestJustified.root ∨ root = context.state.latestFinalized.root) := by
      rw [← knowsDirectRoot_iff, hindirect]
      exact Bool.false_ne_true
    have hknown : Known ssz context.state root ↔ RecentRoot context.state root := by
      unfold Known
      tauto
    rw [knowsBlockRoot_ring ring noStore hnonzero hindirect] at asked
    rw [hknown, ← asked, contains_ringOf, sourceAfter]
    by_cases hslots : sourceSlots source = sourceSlots (some context.state)
    · rw [if_neg fun h => h.2.2 hslots]
      exact ⟨fun h _ _ _ => h, fun h => h hslots hnonzero hindirect⟩
    · -- filled anew, the ring has the recent roots, and no other but the header's
      rw [if_pos ⟨hnonzero, hindirect, hslots⟩]
      refine iff_of_true ?_ fun h => absurd h hslots
      exact or_iff_left fun h => hnot (.inl h.1)

end

end Step

private theorem queries_exact_iff {context : StateGossipContext}
    (ring : context.recentRoots = ringOf ssz source) (noStore : context.store = none)
    (events : List GossipEvent) :
    ∀ query ∈ queries ssz source context events,
      (query.answer = true ↔ Known ssz query.live query.root) ↔ query.Fresh ssz := by
  induction events generalizing source context with
  | nil => exact fun _ h => (List.not_mem_nil h).elim
  | cons event rest ih =>
    cases event with
    | live state =>
      have hring : { context with state }.recentRoots = ringOf ssz source := ring
      exact ih hring noStore
    | ask root =>
      intro query hquery
      rcases List.mem_cons.mp hquery with rfl | hrest
      · exact knowsBlockRoot_answer ring noStore rfl
      · obtain ⟨hring, hstore⟩ : (context.knowsBlockRoot ssz root).2.recentRoots =
            ringOf ssz (sourceAfter ssz source context.state root) ∧
            (context.knowsBlockRoot ssz root).2.store = none :=
          knowsBlockRoot_next ring noStore
        exact ih hring hstore query hrest

/-- **When the ring is transparent.** Over any live states and any queries of a context without a
store, an answer is what the live state gives if and only if the query is fresh: unless the root is
zero or direct, the state that filled the ring has other slots, or the same answer for the root. -/
theorem knowsBlockRoot_exact_iff (ssz : Ssz) (state : State) (slotClock : Option Nat)
    (events : List GossipEvent) :
    ∀ query ∈ queries ssz none (.new state slotClock none) events,
      (query.answer = true ↔ Known ssz query.live query.root) ↔ query.Fresh ssz :=
  queries_exact_iff rfl rfl events

/-- The blocks of a plan on genesis, and where they end. -/
def forkBlocks (plan : List PlannedBlock) : List SignedBlockWithAttestation :=
  buildBlocks anchorSsz noopSignatureVerifier plan anchorGenesis

def forkEnd (plan : List PlannedBlock) : History × State :=
  (importBlocks anchorSsz noopSignatureVerifier (forkBlocks plan)
    (History.empty, anchorGenesis)).getD (History.empty, anchorGenesis)

/-- Two forks of two blocks: the first at slot 1 or at slot 2, the second at slot 3. -/
def leftFork : List PlannedBlock := [⟨1, []⟩, ⟨3, []⟩]

def rightFork : List PlannedBlock := [⟨2, []⟩, ⟨3, []⟩]

/-- The query after a change of the live state. -/
theorem mem_queries_second (state live : State) (filling root : Bytes32) :
    ∃ query ∈ queries ssz none (.new state none none) [.ask filling, .live live, .ask root],
      query.source = sourceAfter ssz none state filling ∧ query.live = live ∧
        some query.answer = (queries ssz none (.new state none none)
          [.ask filling, .live live, .ask root])[1]?.map (·.answer) :=
  ⟨_, List.mem_cons_of_mem _ List.mem_cons_self, rfl, rfl, rfl⟩

/-- **After a reorganisation to a longer fork** the ring, filled from the chain that was left, is
filled anew, and the first block of the fork is known. -/
theorem knowsBlockRoot_exact_iff_longer :
    ∃ query ∈ queries anchorSsz none (.new (forkEnd leftFork).2 none none)
        [.ask 1#256, .live (forkEnd (rightFork ++ [⟨4, []⟩])).2,
          .ask ((plannedRoots rightFork anchorGenesis).getD 0 0#256)],
      query.source = some (forkEnd leftFork).2 ∧ query.Fresh anchorSsz ∧ query.answer = true ∧
        Known anchorSsz query.live query.root := by
  obtain ⟨query, hmem, hsource, hlive, hanswer⟩ :=
    @mem_queries_second anchorSsz (forkEnd leftFork).2 (forkEnd (rightFork ++ [⟨4, []⟩])).2 1#256
      ((plannedRoots rightFork anchorGenesis).getD 0 0#256)
  have hsource := hsource.trans (if_pos (by decide +kernel))
  have hanswer : query.answer = true :=
    Option.some.inj (hanswer.trans (by decide +kernel))
  have hslots : sourceSlots (some (forkEnd leftFork).2) ≠
      sourceSlots (some (forkEnd (rightFork ++ [⟨4, []⟩])).2) := by decide +kernel
  have fresh : query.Fresh anchorSsz := by
    intro hsame
    rw [hsource, hlive] at hsame
    exact absurd hsame hslots
  exact ⟨query, hmem, hsource, fresh, hanswer,
    ((knowsBlockRoot_exact_iff anchorSsz _ none _ query hmem).mpr fresh).mp hanswer⟩

/-- **After a reorganisation to a fork at the same slots** the first block of the live chain is
unknown, and that of the chain it left is known. -/
theorem reorg_unknown :
    Chain anchorSsz noopSignatureVerifier anchorGenesis (forkBlocks leftFork)
        (forkEnd leftFork).1 (forkEnd leftFork).2 ∧
      Chain anchorSsz noopSignatureVerifier anchorGenesis (forkBlocks rightFork)
        (forkEnd rightFork).1 (forkEnd rightFork).2 ∧
      (queries anchorSsz none (.new (forkEnd leftFork).2 none none)
        [.ask 1#256, .live (forkEnd rightFork).2,
          .ask ((plannedRoots rightFork anchorGenesis).getD 0 0#256),
          .ask ((plannedRoots leftFork anchorGenesis).getD 0 0#256)]).map (·.answer) =
        [false, false, true] ∧
      Known anchorSsz (forkEnd rightFork).2
        ((plannedRoots rightFork anchorGenesis).getD 0 0#256) ∧
      ¬ Known anchorSsz (forkEnd rightFork).2
        ((plannedRoots leftFork anchorGenesis).getD 0 0#256) := by
  refine ⟨chain_of_imports (by decide +kernel), chain_of_imports (by decide +kernel),
    by decide +kernel, .inr (.inr (.inr (.inr ⟨by decide +kernel, by decide +kernel⟩))), ?_⟩
  unfold Known RecentRoot
  decide +kernel

end Queries

end Peam
