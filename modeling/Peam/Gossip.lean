import Peam.Decode
import Peam.FileStore

/-!
# Gossip validation

`src/networking/gossipsub/`: the checks a decoded block goes through before it is passed on
(`validate.rs`), and what they ask of the node (`context.rs`). The first pass looks at the message
alone, the second also at a `GossipContext`. Whether the embedded signatures verify is another
question (`validate_gossip`).

A context may change while it is asked: `StateGossipContext` answers `knows_block_root` through a
ring of recent roots that it fills when the slots of the live state have moved. So the trait is a
record of functions on a type of contexts, and the validators hand the context on. The live state
sits in it as the value that the lock guards.
-/

namespace Peam

/-! ## Contexts -/

/-- The trait `GossipContext`. -/
structure GossipContext (C : Type) where
  currentSlot : C → Option Nat
  finalizedSlot : C → Option Nat
  knowsBlockRoot : Bytes32 → C → Bool × C

/-! ## The ring of recent roots -/

/-- `RECENT_ROOT_CACHE_LEN`. -/
def recentRootCacheLen : Nat := 200

structure RecentRootEntry where
  slot : Nat
  root : Bytes32
  deriving DecidableEq

structure RecentRootCache where
  entries : Vector (Option RecentRootEntry) recentRootCacheLen
  latestHeaderSlot : Nat
  stateSlot : Nat

namespace RecentRootCache

/-- The cell of a slot. -/
def cell (slot : Nat) : Fin recentRootCacheLen :=
  ⟨slot % recentRootCacheLen, Nat.mod_lt _ (by decide)⟩

/-- `RecentRootCache::default()`. -/
def default : RecentRootCache where
  entries := .replicate _ none
  latestHeaderSlot := 2 ^ 64 - 1
  stateSlot := 2 ^ 64 - 1

/-- `insert`: what the cell held before is gone. -/
def insert (cache : RecentRootCache) (slot : Nat) (root : Bytes32) : RecentRootCache :=
  { cache with entries := cache.entries.set (cell slot) (some ⟨slot, root⟩) (cell slot).isLt }

/-- The loop of `refresh_from_state` over the history; an empty slot has the zero root. -/
def insertHistory (cache : RecentRootCache) (history : List (Bytes32 × Nat)) : RecentRootCache :=
  history.foldl
    (fun cache entry =>
      if entry.1 = Bytes32.zero then cache else cache.insert entry.2 entry.1) cache

/-- `refresh_from_state`. The two slots are all that is compared with the state before. -/
def refreshFromState (ssz : Ssz) (cache : RecentRootCache) (state : State) : RecentRootCache :=
  let latestHeaderSlot := state.latestBlockHeader.slot
  let stateSlot := state.slot
  if cache.latestHeaderSlot = latestHeaderSlot ∧ cache.stateSlot = stateSlot then cache
  else
    let cleared := { cache with entries := .replicate _ none }
    let headed := cleared.insert latestHeaderSlot (state.latestBlockHeader.hashTreeRoot ssz)
    let historical := state.historicalBlockHashes.items
    let start := historical.length - recentRootCacheLen
    { headed.insertHistory (historical.zipIdx.drop start) with latestHeaderSlot, stateSlot }

/-- `contains`: some cell holds the root, and the cell of its slot is not empty. -/
def contains (cache : RecentRootCache) (root : Bytes32) : Bool :=
  cache.entries.toList.reduceOption.any fun entry =>
    entry.root == root && (cache.entries[cell entry.slot]).isSome

end RecentRootCache

/-! ## The context over the live state -/

structure StateGossipContext where
  state : State
  slotClock : Option Nat
  store : Option FileStore
  recentRoots : RecentRootCache

namespace StateGossipContext

/-- `StateGossipContext::new`; the other two constructors add the clock and the store. -/
def new (state : State) (slotClock : Option Nat) (store : Option FileStore) :
    StateGossipContext :=
  ⟨state, slotClock, store, .default⟩

/-- `knows_direct_root` of the snapshot. -/
def knowsDirectRoot (ssz : Ssz) (state : State) (root : Bytes32) : Bool :=
  root == state.latestBlockHeader.hashTreeRoot ssz || root == state.latestJustified.root ||
    root == state.latestFinalized.root

/-- `knows_block_root_cold`. -/
def knowsBlockRootCold (context : StateGossipContext) (root : Bytes32) : Bool :=
  (context.store.map fun store => (store.getBlock root).isSome).getD false

/-- `knows_block_root`. -/
def knowsBlockRoot (ssz : Ssz) (root : Bytes32) (context : StateGossipContext) :
    Bool × StateGossipContext :=
  if root = Bytes32.zero then (true, context)
  else if knowsDirectRoot ssz context.state root then (true, context)
  else
    let recentRoots := context.recentRoots.refreshFromState ssz context.state
    let context := { context with recentRoots }
    if recentRoots.contains root then (true, context)
    else (context.knowsBlockRootCold root, context)

end StateGossipContext

/-! ## The first pass -/

inductive ValidationResult where
  | accept
  | ignore (reason : String)
  | reject (reason : String)
  deriving DecidableEq

/-- `validate_attestation_fields`. -/
def validateAttestationFields (data : AttestationData) (maxSlot : Option Nat) :
    ValidationResult :=
  if data.target.slot < data.source.slot then .reject "attestation target below source"
  else if data.head.slot < data.target.slot then .reject "attestation head below target"
  else if data.slot < data.head.slot then .reject "attestation slot below head slot"
  else if maxSlot.any fun maxSlot => data.slot > maxSlot then
    .ignore "attestation from future slot"
  else .accept

/-- The loop of `validate_block_basic`: the first attestation that is not accepted decides. -/
def validateBodyFields (slot : Nat) : List Attestation → ValidationResult
  | [] => .accept
  | att :: rest =>
    match validateAttestationFields att.data (some slot) with
    | .accept => validateBodyFields slot rest
    | other => other

/-- `validate_block_basic`. -/
def validateBlockBasic (signed : SignedBlockWithAttestation) : ValidationResult :=
  let message := signed.message
  if message.proposerAttestation.data.slot ≠ message.block.slot then
    .reject "proposer attestation slot mismatch"
  else validateBodyFields message.block.slot message.block.body.attestations.items

/-! ## The second pass -/

section Context

variable {C : Type} (context : GossipContext C)

/-- A block's slot is more than one slot ahead of the clock. The sum wraps, as the release build's
does. -/
def aheadOfClock (slot : Nat) (asked : C) : Bool :=
  (context.currentSlot asked).any fun currentSlot => slot > (currentSlot + 1) % 2 ^ 64

/-- `validate_block_with_context`. -/
def validateBlockWithContext (signed : SignedBlockWithAttestation) (asked : C) :
    ValidationResult × C :=
  let block := signed.message.block
  let (parentKnown, asked) := context.knowsBlockRoot block.parentRoot asked
  if ¬ parentKnown then (.ignore "block parent root unknown locally", asked)
  else if (context.finalizedSlot asked).any fun finalizedSlot => block.slot ≤ finalizedSlot then
    (.ignore "block at or before finalized slot", asked)
  else if aheadOfClock context block.slot asked then (.ignore "block from future slot", asked)
  else
    (validateAttestationFields signed.message.proposerAttestation.data (some block.slot), asked)

end Context

end Peam
