import Peam.Transition

/-!
# Chains and their history

A chain is a sequence of successful imports from one genesis state. Its `History` is what a reader
of the source would write down while watching it: the headers that were hashed, the attestations
that passed every eligibility check, the checkpoints justified and the links that finalized, each in
order. The state keeps a digest of it (two checkpoints, a window of bits, pending tallies).

A history is computed from the loop states the transition passes through, which does not read it.
-/

namespace Peam

open Calls (Mutation)

/-- What happened on a chain so far. -/
structure History where
  /-- The headers whose roots the chain has compared or staged. -/
  headers : List BlockHeader
  /-- The attestations that passed every eligibility check. -/
  counted : List Attestation
  /-- The checkpoints justified, in order. -/
  justified : List Checkpoint
  /-- The links from source to target that finalized their source, in order. -/
  links : List (Checkpoint × Checkpoint)
  deriving DecidableEq

namespace History

def empty : History := ⟨[], [], [], []⟩

def append (first second : History) : History where
  headers := first.headers ++ second.headers
  counted := first.counted ++ second.counted
  justified := first.justified ++ second.justified
  links := first.links ++ second.links

instance : Append History := ⟨append⟩

@[simp] theorem headers_append (a b : History) : (a ++ b).headers = a.headers ++ b.headers := rfl
@[simp] theorem counted_append (a b : History) : (a ++ b).counted = a.counted ++ b.counted := rfl
@[simp] theorem justified_append (a b : History) :
    (a ++ b).justified = a.justified ++ b.justified := rfl
@[simp] theorem links_append (a b : History) : (a ++ b).links = a.links ++ b.links := rfl

theorem append_assoc (a b c : History) : a ++ b ++ c = a ++ (b ++ c) := by
  show append (append a b) c = append a (append b c)
  simp [append]

@[simp] theorem append_empty (a : History) : a ++ empty = a := by
  show append a empty = a
  simp [append, empty]

end History

/-! ## The history of a loop -/

section Loop

variable {n : Nat} (latestRoot : Bytes32) (slots : RapidHashMap Nat)

/-- What one pass of the attestation loop adds. -/
def stepHistory (loop : AttestationLoop n) (att : Attestation) : History :=
  match isEligible latestRoot loop.state loop.finalizedSlot att.data with
  | .ok true =>
    if 3 * (loop.mergedTally att).count < 2 * n then { History.empty with counted := [att] }
    else
      { headers := []
        counted := [att]
        justified := [att.data.target]
        links :=
          if isNextValidJustifiableSlot att.data.source.slot att.data.target.slot
            loop.finalizedSlot then [(att.data.source, att.data.target)] else [] }
  | _ => History.empty

/-- What the attestation loop adds, up to the first error. -/
def loopHistory : List Attestation → AttestationLoop n → History
  | [], _ => History.empty
  | att :: rest, loop =>
    stepHistory latestRoot loop att ++
      match attestationStep latestRoot slots att loop with
      | .ok () next => loopHistory rest next
      | .error _ _ => History.empty

end Loop

/-! ## The history of a block -/

variable (ssz : Ssz)

/-- Slots and header of a block: `process_slots`, then the header checks. -/
def stageBlock (header : BlockHeader) : Mutation State Unit := do
  processSlots ssz header.slot
  processBlockHeaderAssumingSlot ssz header

/-- The headers a block hashes: its parent's, once the slots are processed, and its own as staged. -/
def stageHistory (state : State) (header : BlockHeader) : History :=
  { History.empty with
    headers :=
      [(processSlotLoop ssz (header.slot - state.slot) state).latestBlockHeader,
        header.staged] }

/-- The history of a list of attestations on a staged state. -/
def attestationsHistory (staged : State) (attestations : List Attestation) : History :=
  loopHistory (staged.latestBlockHeader.hashTreeRoot ssz) (rootToSlot ssz staged) attestations
    (AttestationLoop.start staged)

/-- The history of a whole block. -/
def blockHistory (state : State) (block : Block) : History :=
  match stageBlock ssz (block.header ssz) state with
  | .error _ _ => History.empty
  | .ok () staged =>
    stageHistory ssz state (block.header ssz) ++
      attestationsHistory ssz staged block.body.attestations.items

/-! ## Chains -/

/-- The chains of one genesis state: the blocks imported, what happened, and the state reached. -/
inductive Chain (verifier : SignatureVerifier) (genesis : State) :
    List SignedBlockWithAttestation → History → State → Prop
  | genesis : Chain verifier genesis [] History.empty genesis
  | imported {blocks history state signed state'} :
      Chain verifier genesis blocks history state →
      processSignedBlock ssz verifier signed state = .ok () state' →
      Chain verifier genesis (blocks ++ [signed])
        (history ++ blockHistory ssz state signed.message.block) state'

/-- Import a list of blocks, keeping the history; nothing if one of them fails. -/
def importBlocks (verifier : SignatureVerifier) :
    List SignedBlockWithAttestation → History × State → Option (History × State)
  | [], reached => some reached
  | signed :: rest, (history, state) =>
    match processSignedBlock ssz verifier signed state with
    | .ok () state' =>
      importBlocks verifier rest (history ++ blockHistory ssz state signed.message.block, state')
    | .error _ _ => none

/-- A list of blocks that imports makes a chain. -/
theorem Chain.of_importBlocks {ssz : Ssz} {verifier : SignatureVerifier} {genesis : State}
    {before blocks : List SignedBlockWithAttestation} {reached reached' : History × State}
    (chain : Chain ssz verifier genesis before reached.1 reached.2)
    (h : importBlocks ssz verifier blocks reached = some reached') :
    Chain ssz verifier genesis (before ++ blocks) reached'.1 reached'.2 := by
  induction blocks generalizing before reached with
  | nil =>
    cases h
    rw [List.append_nil]
    exact chain
  | cons signed rest ih =>
    obtain ⟨history, state⟩ := reached
    rw [importBlocks] at h
    split at h
    · rename_i state' himport
      have := ih (chain.imported himport) h
      rwa [List.append_assoc, List.singleton_append] at this
    · cases h

/-- Importing only adds to the history. -/
theorem importBlocks_history {ssz : Ssz} {verifier : SignatureVerifier}
    {blocks : List SignedBlockWithAttestation} {history : History} {state : State}
    {reached : History × State}
    (h : importBlocks ssz verifier blocks (history, state) = some reached) :
    ∃ added, reached.1 = history ++ added := by
  induction blocks generalizing history state with
  | nil =>
    cases h
    exact ⟨History.empty, (History.append_empty history).symm⟩
  | cons signed rest ih =>
    rw [importBlocks] at h
    split at h
    · obtain ⟨added, hadded⟩ := ih h
      exact ⟨_, hadded.trans (History.append_assoc _ _ _)⟩
    · cases h

/-- A moment inside the next block of a chain: its header is staged and some of its attestations
have been processed. -/
structure InBlock (verifier : SignatureVerifier) (genesis : State)
    (blocks : List SignedBlockWithAttestation) (history : History) (header : BlockHeader)
    (done : List Attestation) (state : State) : Prop where
  intro ::
  /-- The chain before the block, the staged state, and the loop reached. -/
  reached : ∃ before base staged, ∃ loop : AttestationLoop staged.validators.items.length,
    Chain ssz verifier genesis blocks before base ∧
    stageBlock ssz header base = .ok () staged ∧
    attestationLoop (staged.latestBlockHeader.hashTreeRoot ssz) (rootToSlot ssz staged) done
      (AttestationLoop.start staged) = .ok () loop ∧
    state = loop.state ∧
    history = before ++ stageHistory ssz base header ++ attestationsHistory ssz staged done

/-- A moment of a chain: between two blocks, or inside one. -/
inductive Moment (verifier : SignatureVerifier) (genesis : State) : History → State → Prop
  | idle {blocks history state} :
      Chain ssz verifier genesis blocks history state → Moment verifier genesis history state
  | inBlock {blocks history header done state} :
      InBlock ssz verifier genesis blocks history header done state →
      Moment verifier genesis history state

/-! ## Votes -/

/-- The registry indices with a bit set in a counted attestation for the checkpoint. -/
def supporters (counted : List Attestation) (n : Nat) (checkpoint : Checkpoint) : Finset Nat :=
  (Finset.range n).filter fun i =>
    ∃ att ∈ counted, att.data.target = checkpoint ∧ att.aggregationBits.get i = true

/-- At least two thirds of the registry support the checkpoint. -/
def Backed (counted : List Attestation) (n : Nat) (checkpoint : Checkpoint) : Prop :=
  2 * n ≤ 3 * (supporters counted n checkpoint).card

private theorem supporters_mono {counted more : List Attestation} (h : counted ⊆ more) (n : Nat)
    (checkpoint : Checkpoint) :
    supporters counted n checkpoint ⊆ supporters more n checkpoint := by
  intro i hi
  simp only [supporters, Finset.mem_filter] at hi ⊢
  obtain ⟨hin, att, hatt, hrest⟩ := hi
  exact ⟨hin, att, h hatt, hrest⟩

theorem Backed.mono {counted more : List Attestation} (h : counted ⊆ more) {n : Nat}
    {checkpoint : Checkpoint} (backed : Backed counted n checkpoint) :
    Backed more n checkpoint := by
  have := Finset.card_le_card (supporters_mono h n checkpoint)
  unfold Backed at backed ⊢
  omega

end Peam
