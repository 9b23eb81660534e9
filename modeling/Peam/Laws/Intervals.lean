import Peam.Laws.Signing

/-!
# Which epochs reach `sign`

`leansig` panics on an epoch outside a key's activation or prepared interval. The attestation task
and the proposer check the slot they sign for. The payload builder checks the slot of the proposal
and signs for the slot of the attestation, so its calls stay inside exactly if every aggregate it
can sign is for a slot inside the intervals of each participant's key (`signCalls_inside_iff`).
-/

namespace Peam

variable {ssz : Ssz} {K F : Type} {api : ForkChoiceApi F}

/-- The key may sign for the epoch. -/
def LeanSig.Usable (lib : LeanSig K) (key : K) (epoch : Nat) : Prop :=
  inRange (lib.activation key) epoch = true ∧ inRange (lib.prepared key) epoch = true
  deriving Decidable

/-- Every call is for an epoch its key may sign for. -/
def Inside (lib : LeanSig K) (calls : List (Signing K)) : Prop :=
  ∀ call ∈ calls, lib.Usable call.key call.epoch
  deriving Decidable

private theorem inside_nil (lib : LeanSig K) : Inside lib [] := by
  intro call h
  cases h

private theorem inside_append {lib : LeanSig K} {calls more : List (Signing K)} :
    Inside lib (calls ++ more) ↔ Inside lib calls ∧ Inside lib more :=
  List.forall_mem_append

/-! ## The payload builder -/

section Payload

variable {lib : LeanSig K} {keys : List (Option (KeyMaterial K))}

/-- The loop calls every key while the calls stay inside, since those return. -/
theorem signAllCalls_inside_iff (signs : lib.Signs) (epoch : Nat) (message : Bytes32)
    (secretKeys : List K) :
    Inside lib (signAllCalls lib epoch message secretKeys) ↔
      ∀ key ∈ secretKeys, lib.Usable key (epoch % 2 ^ 32) := by
  induction secretKeys with
  | nil => simp [signAllCalls, inside_nil]
  | cons key rest ih =>
    rw [signAllCalls, Inside, List.forall_mem_cons, List.forall_mem_cons]
    apply and_congr_right
    intro usable
    obtain ⟨signature, hsign⟩ := signMessage_inside signs usable.1 usable.2 message
    rw [hsign]
    exact ih

private theorem signAggregateCalls_inside_iff (signs : lib.Signs) (epoch : Nat) (message : Bytes32)
    (materials : List (KeyMaterial K)) :
    Inside lib (signAggregateCalls lib (materials.map (·.pubkey)) (materials.map (·.secretKey))
        epoch message) ↔
      ∀ material ∈ materials, lib.Usable material.secretKey (epoch % 2 ^ 32) := by
  unfold signAggregateCalls
  by_cases hempty : materials.map (·.pubkey) = []
  · rw [if_pos hempty, List.map_eq_nil_iff.mp hempty]
    simp [inside_nil]
  · rw [if_neg hempty, if_neg (by simp), signAllCalls_inside_iff signs]
    exact List.forall_mem_map

private theorem signPendingCalls_inside_iff (signs : lib.Signs) (slot : Nat)
    (attestation : Attestation) : Inside lib (signPendingCalls ssz lib keys slot attestation) ↔
      ∀ materials ∈ signableKeys lib keys slot (setBits attestation.aggregationBits),
        ∀ material ∈ materials,
          lib.Usable material.secretKey (attestation.data.slot % 2 ^ 32) := by
  unfold signPendingCalls
  dsimp only
  by_cases hempty : setBits attestation.aggregationBits = []
  · rw [if_pos hempty, hempty]
    have hnothing : signableKeys lib keys slot [] = some [] := rfl
    simp [hnothing, inside_nil]
  · rw [if_neg hempty]
    cases signableKeys lib keys slot (setBits attestation.aggregationBits) with
    | none => simp [inside_nil]
    | some materials =>
      dsimp only
      rw [signAggregateCalls_inside_iff signs]
      simp

/-- Every aggregate that can be signed in the proposal's slot is for a slot in which each
participant's key may sign. -/
def SlotsUsable (ssz : Ssz) (lib : LeanSig K) (keys : List (Option (KeyMaterial K)))
    (slot finalizedSlot : Nat) (drained : List PendingBlockAttestation) : Prop :=
  ∀ attestation ∈ unprovenAggregates ssz finalizedSlot drained,
    ∀ materials ∈ signableKeys lib keys slot (setBits attestation.aggregationBits),
      ∀ material ∈ materials, lib.Usable material.secretKey (attestation.data.slot % 2 ^ 32)
  deriving Decidable

private theorem payloadCalls_inside_iff (signs : lib.Signs) (slot finalizedSlot : Nat)
    (drained : List PendingBlockAttestation) :
    Inside lib (payloadCalls ssz lib keys slot finalizedSlot drained) ↔
      SlotsUsable ssz lib keys slot finalizedSlot drained := by
  unfold payloadCalls SlotsUsable Inside
  rw [List.forall_mem_flatMap]
  apply forall₂_congr
  intro attestation _
  exact signPendingCalls_inside_iff signs slot attestation

end Payload

/-! ## The other two sites -/

section Sites

variable {node : SigningNode K}

private theorem inside_checked (lawful : node.lib.Lawful) {key : K} {slot : Nat} (message : Bytes32)
    (active : inRange (node.lib.activation key) slot = true)
    (prepared : inRange (node.lib.prepared key) slot = true) :
    Inside node.lib [⟨key, slot % 2 ^ 32, message⟩] := by
  intro call hcall
  rw [List.mem_singleton.mp hcall, epoch_eq lawful active]
  exact ⟨active, prepared⟩

private theorem signProposalCalls_inside (lawful : node.lib.Lawful) (slot : Nat)
    (data : AttestationData) : Inside node.lib (signProposalCalls ssz node slot data) := by
  unfold signProposalCalls
  split
  · exact inside_nil _
  · next active =>
    split
    · exact inside_nil _
    · next prepared => exact inside_checked lawful _ (not_not.mp active) (not_not.mp prepared)

private theorem attestCalls_inside (lawful : node.lib.Lawful) (signers : Signers K)
    (now : Option Nat) (forkChoice : Option F) (state : State) (pending : List Attestation) :
    Inside node.lib (attestCalls ssz api node signers now forkChoice state pending) := by
  unfold attestCalls
  split
  · exact inside_nil _
  split
  · exact inside_nil _
  split
  · exact inside_nil _
  split
  · exact inside_nil _
  split
  · exact inside_nil _
  next active =>
  split
  · exact inside_nil _
  next prepared => exact inside_checked lawful _ (not_not.mp active) (not_not.mp prepared)

private theorem productionCalls_inside_iff (lawful : node.lib.Lawful) (preState : State)
    (slot : Nat) (forkChoice : Option F) (drained : List PendingBlockAttestation) :
    Inside node.lib (productionCalls ssz api node preState slot forkChoice drained) ↔
      Inside node.lib
        (payloadCalls ssz node.lib node.keys slot preState.latestFinalized.slot drained) := by
  unfold productionCalls
  dsimp only
  rw [inside_append, and_iff_left]
  split
  · exact inside_nil _
  split
  · exact inside_nil _
  split
  · exact inside_nil _
  split
  · exact inside_nil _
  exact signProposalCalls_inside lawful slot _

/-- **Which calls stay inside the intervals.** Those of the attestation task always do; those of the
payload builder, and with them those of block production, do exactly if the attestations' own slots
allow it. -/
theorem signCalls_inside_iff (signs : node.lib.Signs) (signers : Signers K) (now : Option Nat)
    (forkChoice : Option F) (state : State) (pending : List Attestation) (preState : State)
    (slot : Nat) (drained : List PendingBlockAttestation) :
    Inside node.lib (attestCalls ssz api node signers now forkChoice state pending) ∧
    (Inside node.lib
        (payloadCalls ssz node.lib node.keys slot preState.latestFinalized.slot drained) ↔
      SlotsUsable ssz node.lib node.keys slot preState.latestFinalized.slot drained) ∧
    (Inside node.lib (productionCalls ssz api node preState slot forkChoice drained) ↔
      SlotsUsable ssz node.lib node.keys slot preState.latestFinalized.slot drained) := by
  have payload := @payloadCalls_inside_iff ssz K node.lib node.keys signs slot
    preState.latestFinalized.slot drained
  refine ⟨attestCalls_inside signs.toLawful signers now forkChoice state pending, payload, ?_⟩
  exact (productionCalls_inside_iff signs.toLawful preState slot forkChoice drained).trans payload

end Sites

/-! ## Two pools -/

/-- A vote of validator 0 without proof, for the block of slot 1. -/
def unprovenVote (slot : Nat) : List PendingBlockAttestation :=
  [⟨⟨singleBit 0, ⟨slot, (soleHeadOf firstFork).head, (soleHeadOf firstFork).head,
    (soleHeadOf firstFork).justified⟩⟩, none⟩]

/-- The calls of a proposal in slot 3 with that vote pending. -/
def unprovenVoteCalls (slot : Nat) : List (Signing Nat) :=
  productionCalls sampleSsz soleHeadApi sampleNode firstFork 3 (some (soleHeadOf firstFork))
    (unprovenVote slot)

/-- The law at a vote that has yet to be signed. -/
theorem signCalls_inside_unprovenVote :
    (unprovenVoteCalls 2).length = 2 ∧ Inside sampleNode.lib (unprovenVoteCalls 2) := by
  have slots : SlotsUsable sampleSsz sampleNode.lib sampleNode.keys 3
      firstFork.latestFinalized.slot (unprovenVote 2) := by
    decide +kernel
  have calls := @signCalls_inside_iff sampleSsz Nat SoleHead soleHeadApi sampleNode
    sampleLeanSig_signs Signers.initial none (some (soleHeadOf firstFork)) firstFork [] firstFork 3
    (unprovenVote 2)
  exact ⟨by decide +kernel, calls.2.2.mpr slots⟩

/-- **The keys of the cache may sign up to slot 7.** A proposal in slot 3 with a pending vote for
slot 9 calls `sign` outside the intervals. -/
theorem unprovenVote_outside :
    sampleLeanSig.Signs ∧ ¬ Inside sampleNode.lib (unprovenVoteCalls 9) :=
  ⟨sampleLeanSig_signs, by decide +kernel⟩

end Peam
