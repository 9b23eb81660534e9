import Peam.Prune

/-!
# Runs of a file store

The calls a node makes on its `FileStore`, as values, so that a run of the store is a list of them.
A put that fails leaves the store as it was. The live state a put works on is an argument of each
call: a run makes no assumption on how it moves between two of them.
-/

namespace Peam

open Calls (Outcome)

/-- A call on the store. -/
inductive StoreCall where
  | putState (root : Bytes32) (state : State)
  | putBlock (root : Bytes32) (block : Block)
  | putSignedBlock (root : Bytes32) (signed : SignedBlockWithAttestation) (state : State)
  | putBackfillSignedBlock (root : Bytes32) (signed : SignedBlockWithAttestation) (state : State)
  | putPrevalidatedSignedBlock (root : Bytes32) (signed : SignedBlockWithAttestation)
      (state postState : State)
  | putAnchorSignedBlock (root : Bytes32) (signed : SignedBlockWithAttestation) (state : State)
  | setHead (root : Bytes32)
  | setJustified (root : Bytes32)
  | setFinalized (root : Bytes32)
  | setFinalizedCheckpoint (checkpoint : Checkpoint)
  | promoteFinalized (finalizedSlot : Nat)
  | prune (finalizedSlot keepRecentSlots : Nat)
  | reopen

namespace FileStore

variable (ssz : Ssz) (verifier : SignatureVerifier) (order : SetOrder)

/-- The store after a put that may fail. -/
def afterPut (store : FileStore) : Outcome (FileStore × State) → FileStore
  | .ok (after, _) => after
  | .error _ => store

/-- The store after a call. -/
def call (store : FileStore) : StoreCall → FileStore
  | .putState root state => store.putState ssz root state
  | .putBlock root block => store.putBlock root block
  | .putSignedBlock root signed state =>
    store.afterPut (store.putSignedBlockInner ssz verifier root signed state)
  | .putBackfillSignedBlock root signed state =>
    store.afterPut (store.putBackfillSignedBlock ssz verifier root signed state)
  | .putPrevalidatedSignedBlock root signed state postState =>
    store.afterPut (store.putPrevalidatedSignedBlock ssz root signed state postState)
  | .putAnchorSignedBlock root signed state => store.putAnchorSignedBlock root signed state
  | .setHead root => store.setHead root
  | .setJustified root => store.setJustified root
  | .setFinalized root => store.setFinalized root
  | .setFinalizedCheckpoint checkpoint => store.setFinalizedCheckpoint checkpoint
  | .promoteFinalized finalizedSlot => store.promoteFinalized finalizedSlot
  | .prune finalizedSlot keepRecentSlots => (store.prune order finalizedSlot keepRecentSlots).1
  | .reopen => store.reopened

/-- The store after a run. -/
def run (store : FileStore) (calls : List StoreCall) : FileStore :=
  calls.foldl (fun store call => store.call ssz verifier order call) store

end FileStore

end Peam
