import Peam.Backfill
import Peam.Laws.Decode

/-!
# The work a response costs before it is checked

A response that names the pending root is accepted on its bytes alone, and the node then derives the
anchor state once or twice before it looks at a signature. Each time it walks from slot zero to the
slot the block names. `passes_accepted` is the exact count, `passes_le_iff` what a bound on it comes
to: a bound on the slot the peer wrote.
-/

namespace Peam

open Packed (Byte)
open Calls (Mutation)
open Traces

section Anchor

variable (ssz : Ssz)

private theorem tracedSlotLoop_eq (remaining : Nat) (state : State) :
    tracedSlotLoop ssz remaining state =
      ⟨List.replicate remaining (), processSlotLoop ssz remaining state⟩ := by
  induction remaining generalizing state with
  | zero => rfl
  | succ remaining ih =>
    rw [tracedSlotLoop, ih]
    rfl

private theorem tracedProcessSlots_eq {targetSlot : Nat} {state : State}
    (h : state.slot < targetSlot) : tracedProcessSlots ssz targetSlot state =
      ⟨List.replicate (targetSlot - state.slot) (),
        some (processSlotLoop ssz (targetSlot - state.slot) state)⟩ := by
  rw [tracedProcessSlots, if_neg (Nat.not_le.mpr h), tracedSlotLoop_eq]
  exact congrArg (Traced.mk · _) (List.append_nil _)

/-- The traced slots are the slots of the transition. -/
theorem value_tracedProcessSlots (targetSlot : Nat) (state : State) :
    (tracedProcessSlots ssz targetSlot state).value =
      (processSlots ssz targetSlot).after state := by
  by_cases h : state.slot < targetSlot
  · rw [tracedProcessSlots_eq ssz h, Mutation.after, processSlots, if_neg (Nat.not_le.mpr h)]
  · have hge : state.slot ≥ targetSlot := Nat.not_lt.mp h
    rw [tracedProcessSlots, Mutation.after, processSlots, if_pos hge, if_pos hge]
    rfl

/-- The anchor costs one pass a slot, from genesis on. -/
theorem passes_syncAnchorState (live : State) (importSlot : Nat) :
    (syncAnchorStateForImportSlot ssz live importSlot).events.length = importSlot := by
  cases importSlot with
  | zero => rfl
  | succ importSlot =>
    have hstart : (generateGenesis ssz live.config.genesisTime live.validators).slot <
        importSlot + 1 := Nat.succ_pos importSlot
    rw [syncAnchorStateForImportSlot, if_pos hstart, tracedProcessSlots_eq ssz hstart,
      Traced.events_bind, List.length_append, List.length_replicate]
    rfl

private theorem passes_replayStart (live : State) (store : FileStore) (oldest : Block) :
    (replayStart ssz live store oldest).events.length = oldest.slot := by
  have hanchor := passes_syncAnchorState ssz live oldest.slot
  unfold replayStart
  rw [Traced.events_bind, List.length_append, hanchor]
  -- What follows the anchor is a choice between states at hand.
  split
  · rfl
  · split <;> rfl

/-- How often the anchor state is derived for a block before its turn in the import: for the replay,
and once more for the parent test if that has to look and finds the anchor. -/
def anchorsDerived (live : State) (store : FileStore) (block : Block) : Nat :=
  if (block.parentRoot = Bytes32.zero ∨ (store.getBlock block.parentRoot).isSome) ∨
      (parentMatchesSyncAnchor ssz live block.parentRoot block.slot).value = false then 1
  else 2

/-- The parent test looks for the anchor only for a parent the node does not know. -/
theorem passes_parentMatches (live : State) {parentRoot : Bytes32} (slot : Nat)
    (h : parentRoot ≠ Bytes32.zero) :
    (parentMatchesSyncAnchor ssz live parentRoot slot).events.length = slot := by
  rw [parentMatchesSyncAnchor, if_neg h, Traced.events_bind, List.length_append,
    passes_syncAnchorState]
  split <;> rfl

private theorem passes_parentTest (live : State) (store : FileStore) (block : Block) :
    (parentKnownOrAnchor ssz live store block).events.length +
        (if (parentKnownOrAnchor ssz live store block).value then block.slot else 0) =
      anchorsDerived ssz live store block * block.slot := by
  unfold parentKnownOrAnchor anchorsDerived
  by_cases hknown : block.parentRoot = Bytes32.zero ∨ (store.getBlock block.parentRoot).isSome
  · simp [hknown]
  · have hpasses := passes_parentMatches ssz live block.slot fun h => hknown (.inl h)
    rw [if_neg hknown, hpasses]
    cases hmatch : (parentMatchesSyncAnchor ssz live block.parentRoot block.slot).value with
    | false => simp
    | true => simp [hknown, Nat.two_mul]

end Anchor

variable {codec : SszCodec} {live : State} {store : FileStore} {pending : PendingBackfill}
  {payload : List Byte} {signed : SignedBlockWithAttestation}

/-- The payload holds a block with the pending root, and the chain has room for it. -/
structure Accepted (codec : SszCodec) (pending : PendingBackfill) (payload : List Byte)
    (signed : SignedBlockWithAttestation) : Prop where
  decoded : decodeBlocksByRootResponseCompat codec payload = .ok signed
  asked : pending.pendingRoot = some (signed.message.block.hashTreeRoot codec)
  room : pending.fetchedChainNewestToOldest.length < maxBackfillDepth

private theorem decodeSsz_blocksByRoot :
    LeanResponseMessage.decodeSsz codec .blocksByRootV1 payload = .ok (.blocksByRoot signed) ↔
      decodeBlocksByRootResponseCompat codec payload = .ok signed := by
  rw [LeanResponseMessage.decodeSsz]
  cases decodeBlocksByRootResponseCompat codec payload with
  | error e => simp [Functor.map, Except.map]
  | ok decoded => simp [Functor.map, Except.map]

/-- The parent test, and the replay if it passes. -/
theorem passes_accepted (accepted : Accepted codec pending payload signed) :
    (receiveBlocksByRoot codec live store pending payload).events.length =
      anchorsDerived codec live store signed.message.block * signed.message.block.slot := by
  have hdecode := decodeSsz_blocksByRoot.mpr accepted.decoded
  have hroom : ¬ pending.fetchedChainNewestToOldest.length + 1 > maxBackfillDepth := by
    have := accepted.room
    omega
  have hreplay := passes_replayStart codec live store signed.message.block
  rw [receiveBlocksByRoot, accepted.asked, ← passes_parentTest]
  simp only [hdecode, ne_eq, not_true_eq_false, if_false, if_neg hroom, Traced.events_bind,
    List.length_append]
  split
  · rw [Traced.events_bind, List.length_append, hreplay]
    rfl
  · rfl

private theorem passes_not_accepted (h : ∀ signed, ¬ Accepted codec pending payload signed) :
    (receiveBlocksByRoot codec live store pending payload).events = [] := by
  unfold receiveBlocksByRoot
  split
  · rfl
  · rename_i targetRoot hpending
    split
    · rfl
    · rename_i signed hdecode
      have hrefused : signed.message.block.hashTreeRoot codec ≠ targetRoot ∨
          pending.fetchedChainNewestToOldest.length + 1 > maxBackfillDepth := by
        by_contra hgoes
        obtain ⟨hroot, hroom⟩ := not_or.mp hgoes
        refine h signed ⟨decodeSsz_blocksByRoot.mp hdecode, ?_, by omega⟩
        rw [hpending, not_not.mp hroot]
      by_cases hroot : signed.message.block.hashTreeRoot codec ≠ targetRoot
      · simp only [if_pos hroot, Traced.events_pure]
      · simp only [if_neg hroot, if_pos (hrefused.resolve_left hroot), Traced.events_pure]
    · rfl

/-- A limit on the passes is a limit on the slot in an accepted block, taken as often as the anchor
is derived. -/
theorem passes_le {limit : Nat} :
    (receiveBlocksByRoot codec live store pending payload).events.length ≤ limit ↔
      ∀ signed, Accepted codec pending payload signed →
        anchorsDerived codec live store signed.message.block * signed.message.block.slot ≤
          limit := by
  constructor
  · intro hle signed accepted
    rw [← passes_accepted accepted]
    exact hle
  · intro h
    by_cases hnone : ∀ signed, ¬ Accepted codec pending payload signed
    · rw [passes_not_accepted hnone]
      exact Nat.zero_le _
    · obtain ⟨signed, accepted⟩ := not_forall_not.mp hnone
      rw [passes_accepted accepted]
      exact h signed accepted

/-- **What a response costs**: for every bound as a function of the payload's length and the clock,
the passes before the block is checked keep to it exactly when the slot in an accepted block does,
taken as often as the anchor is derived. -/
theorem passes_le_iff (bound : Nat → Nat → Nat) (codec : SszCodec) (live : State)
    (store : FileStore) (pending : PendingBackfill) (payload : List Byte) (clock : Nat) :
    (receiveBlocksByRoot codec live store pending payload).events.length ≤
        bound payload.length clock ↔
      ∀ signed, Accepted codec pending payload signed →
        anchorsDerived codec live store signed.message.block * signed.message.block.slot ≤
          bound payload.length clock :=
  passes_le

/-- A signed block without attestations and without a parent, at the slot. -/
def orphanBytes (slot : Nat) : List Byte :=
  signedBytes (leBytes 8 slot ++ List.replicate 72 0#8 ++ leBytes 4 84 ++ leBytes 4 4)
    (attestationBytes 132) (leBytes 4 3116 ++ List.replicate 3112 0#8)

/-- The block those bytes hold. -/
def orphan (slot : Nat) : SignedBlockWithAttestation where
  message :=
    { block :=
        { slot, proposerIndex := 0, parentRoot := 0, stateRoot := 0, body := ⟨⟨[]⟩⟩ }
      proposerAttestation := ⟨⟨[3#8], 8⟩, ⟨0, ⟨0, 0⟩, ⟨0, 0⟩, ⟨0, 0⟩⟩⟩ }
  signature := { attestationSignatures := ⟨[]⟩, proposerSignature := 0 }

/-- A backfill that waits for the block. -/
def waitingFor (signed : SignedBlockWithAttestation) : PendingBackfill :=
  ⟨some (signed.message.block.hashTreeRoot sampleSsz), []⟩

private theorem accepted_orphan {slot : Nat}
    (h : decodeBlocksByRootResponseCompat oneElementCodec (orphanBytes slot) = .ok (orphan slot)) :
    Accepted oneElementCodec (waitingFor (orphan slot)) (orphanBytes slot) (orphan slot) :=
  ⟨h, rfl, Nat.succ_pos 511⟩

/-- **Two responses of one length**: the block at slot 1 costs one pass, the block at the last slot
there is costs `2 ^ 64 - 1`. -/
theorem farOrphan_costs :
    (orphanBytes 1).length = (orphanBytes (2 ^ 64 - 1)).length ∧
    (receiveBlocksByRoot oneElementCodec anchorGenesis FileStore.fresh (waitingFor (orphan 1))
      (orphanBytes 1)).events.length = 1 ∧
    (receiveBlocksByRoot oneElementCodec anchorGenesis FileStore.fresh
      (waitingFor (orphan (2 ^ 64 - 1))) (orphanBytes (2 ^ 64 - 1))).events.length = 2 ^ 64 - 1 := by
  refine ⟨by decide +kernel, ?_, ?_⟩
  · rw [passes_accepted (accepted_orphan (by decide +kernel))]
    rfl
  · rw [passes_accepted (accepted_orphan (by decide +kernel)), anchorsDerived,
      if_pos (.inl (.inl rfl)), Nat.one_mul]
    rfl

end Peam
