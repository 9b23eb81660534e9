import Peam.Backfill
import Peam.ForkChoice

/-!
# Importing a fetched chain

The imports of `src/node/sync/backfill.rs`, over the three objects the tasks of a node share: the
live state, the file store and the fork choice. In `import_backfill_chain` blocks go into the store
and the fork choice one by one, from the oldest on, over a replay state of its own; the live state
sees the result only after the last. A block that fails ends the import with what was written before
it. `import_streamed_range_chain` works on the live state itself.

A panic inside poisons the locks of all three, so what it leaves is not modelled. The fork choice
has loops that need not end on every tree, and an import that meets one does not return.
-/

namespace Peam

/-- What the tasks of a node share. -/
structure Views where
  live : State
  store : FileStore
  forkChoice : Option ForkChoiceStore

section Import

variable (ssz : Ssz) (verifier : SignatureVerifier)

/-- The fork choice after a block has gone into the store: the first block starts it, and a block it
refuses is logged. -/
def noteBlock (forkChoice : Option ForkChoiceStore) (signed : SignedBlockWithAttestation)
    (postState : State) : Calls.Attempt (Option ForkChoiceStore) :=
  match forkChoice with
  | none =>
    match ForkChoiceStore.new ssz signed postState with
    | .ok first => return some first
    | .error _ => return none
  | some known => do
    match ← Calls.Attempt.ofLoop (known.onBlock ssz signed postState) with
    | .ok next => return some next
    | .error _ => return some known

/-- Where the loop over the fetched blocks stands. -/
structure Replay where
  store : FileStore
  forkChoice : Option ForkChoiceStore
  state : State
  imported : Nat

/-- One pass of the loop; `none` is `return None`. A block that the replay is past is passed over if
it looks like a genesis or anchor block. -/
def importTurn (replay : Replay) (signed : SignedBlockWithAttestation) :
    Calls.Attempt (Option Replay) :=
  let block := signed.message.block
  let root := block.hashTreeRoot ssz
  if (replay.store.getBlock root).isSome then return some replay
  else if replay.state.slot ≥ block.slot then
    if block.slot = 0 ∨ block.parentRoot = Bytes32.zero then return some replay
    else return none
  else
    match replay.store.putBackfillSignedBlock ssz verifier root signed replay.state with
    | .error (.err _) => return none
    | .error (.panicked text) => throw (.panicked text)
    | .ok (store, state) => do
      let forkChoice ← noteBlock ssz replay.forkChoice signed state
      return some { store, forkChoice, state, imported := replay.imported + 1 }

/-- The loop, with whether it came to its end. -/
def importLoop : List SignedBlockWithAttestation → Replay → Calls.Attempt (Replay × Bool)
  | [], replay => return (replay, true)
  | signed :: rest, replay => do
    match ← importTurn ssz verifier replay signed with
    | none => return (replay, false)
    | some next => importLoop rest next

/-- `replay_extends_live`. -/
def replayExtendsLive (live replay : State) : Bool :=
  if replay.slot > live.slot then true
  else if replay.slot = live.slot then
    replay.latestBlockHeader.hashTreeRoot ssz = live.latestBlockHeader.hashTreeRoot ssz
  else false

/-- The merge of the replay into the live state: the replay replaces a live state it extends and
otherwise only lends its later checkpoints; then neither checkpoint nor slot may have gone back. -/
def mergeReplay (live replay : State) : State :=
  let merged :=
    if replayExtendsLive ssz live replay then replay
    else
      { live with
        latestJustified :=
          if replay.latestJustified.slot > live.latestJustified.slot then replay.latestJustified
          else live.latestJustified
        latestFinalized :=
          if replay.latestFinalized.slot > live.latestFinalized.slot then replay.latestFinalized
          else live.latestFinalized }
  let merged :=
    { merged with
      latestJustified :=
        if merged.latestJustified.slot < live.latestJustified.slot then live.latestJustified
        else merged.latestJustified
      latestFinalized :=
        if merged.latestFinalized.slot < live.latestFinalized.slot then live.latestFinalized
        else merged.latestFinalized }
  if merged.slot < live.slot then
    match processSlots ssz live.slot merged with
    | .ok () advanced => advanced
    | .error _ stuck => stuck
  else merged

/-- `import_backfill_chain`: the number of blocks imported, or `none`, and the views it leaves. -/
def importBackfillChain (views : Views)
    (fetchedNewestToOldest : List SignedBlockWithAttestation) :
    Calls.Attempt (Option Nat × Views) :=
  match fetchedNewestToOldest.getLast? with
  | none => return (some 0, views)
  | some oldest => do
    let start := (replayStart ssz views.live views.store oldest.message.block).value
    let (replay, completed) ← importLoop ssz verifier fetchedNewestToOldest.reverse
      { store := views.store, forkChoice := views.forkChoice, state := start, imported := 0 }
    let views := { views with store := replay.store, forkChoice := replay.forkChoice }
    if ¬ completed then return (none, views)
    else if replay.imported = 0 then return (some 0, views)
    else
      return (some replay.imported,
        { views with live := mergeReplay ssz views.live replay.state })

/-- The loop of `import_streamed_range_chain`, from the oldest block on and on the live state
itself, with whether it came to its end. -/
def importRangeLoop : List SignedBlockWithAttestation → Views → Calls.Attempt (Bool × Views)
  | [], views => return (true, views)
  | signed :: rest, views =>
    let root := signed.message.block.hashTreeRoot ssz
    if (views.store.getBlock root).isSome then importRangeLoop rest views
    else
      match views.store.putBackfillSignedBlock ssz verifier root signed views.live with
      | .error (.err _) => return (false, views)
      | .error (.panicked text) => throw (.panicked text)
      | .ok (store, live) => do
        let forkChoice ← noteBlock ssz views.forkChoice signed live
        importRangeLoop rest { live, store, forkChoice }

/-- `import_streamed_range_chain`. -/
def importStreamedRangeChain (views : Views)
    (fetchedOldestToNewest : List SignedBlockWithAttestation) : Calls.Attempt (Bool × Views) :=
  importRangeLoop ssz verifier fetchedOldestToNewest views

end Import

end Peam
