import Peam.Chain
import Peam.CheckpointSync

/-!
# Building blocks

What a proposer does, as far as the transition is concerned: take the parent root the header check
will ask for, run the transition on the body, and write the resulting state root into the block.
`buildBlocks` does so along a plan that names slots and votes only; the roots are read off the state
the block will be staged on.

`sampleSsz` is a hash small enough to evaluate. It is used where a law's premises are shown to be
satisfiable and where a run is exhibited, never as an assumption.
-/

namespace Peam

open Packed
open Calls (Mutation)

/-- A vote of a plan: source slot, target slot, and the voters' bits. -/
structure PlannedVote where
  source : Nat
  target : Nat
  bits : BitList validatorRegistryLimit

/-- A block of a plan. -/
structure PlannedBlock where
  slot : Nat
  votes : List PlannedVote

variable (ssz : Ssz)

/-- The checkpoint a slot names on a staged state. -/
def checkpointAt (staged : State) (slot : Nat) : Checkpoint :=
  ⟨staged.historicalBlockHashes.items.getD slot Bytes32.zero, slot⟩

/-- The attestation of a planned vote. -/
def PlannedVote.attestation (vote : PlannedVote) (staged : State) : Attestation where
  aggregationBits := vote.bits
  data :=
    { slot := staged.slot
      head := checkpointAt staged vote.target
      target := checkpointAt staged vote.target
      source := checkpointAt staged vote.source }

/-- A block with the given body and state root, on top of a state. -/
def blockOn (state : State) (slot : Nat) (body : BlockBody) (stateRoot : Bytes32) : Block where
  slot
  proposerIndex := slot % state.validators.items.length
  parentRoot :=
    (processSlotLoop ssz (slot - state.slot) state).latestBlockHeader.hashTreeRoot ssz
  stateRoot
  body

/-- The attestations of a planned block, read against the state it will be staged on. -/
def PlannedBlock.body (plan : PlannedBlock) (state : State) : BlockBody :=
  match stageBlock ssz ((blockOn ssz state plan.slot ⟨SszList.empty⟩ 0#256).header ssz) state with
  | .error _ _ => ⟨SszList.empty⟩
  | .ok () staged =>
    match SszList.new ssz attestationsLimit (plan.votes.map (·.attestation staged)) with
    | .error _ => ⟨SszList.empty⟩
    | .ok attestations => ⟨attestations⟩

/-- The state root a block with this body leads to. -/
def bodyStateRoot (state : State) (block : Block) : Bytes32 :=
  match (do stageBlock ssz (block.header ssz)
            processBlockBody ssz block.body (block.header ssz).bodyRoot : Mutation State Unit) state
  with
  | .error _ _ => Bytes32.zero
  | .ok () after => after.hashTreeRoot ssz

/-- A signed block around a block: one proof per attestation, and the proposer's own vote. -/
def signedBlock (block : Block) : SignedBlockWithAttestation where
  message :=
    { block
      proposerAttestation :=
        { aggregationBits := singleBit block.proposerIndex
          data := { slot := block.slot, head := ⟨0#256, 0⟩, target := ⟨0#256, 0⟩,
                    source := ⟨0#256, 0⟩ } } }
  signature :=
    { attestationSignatures :=
        ⟨block.body.attestations.items.map fun att => ⟨att.aggregationBits, ⟨[]⟩⟩⟩
      proposerSignature := 0#24896 }

/-- The block of a plan on top of a state. -/
def PlannedBlock.build (plan : PlannedBlock) (state : State) : SignedBlockWithAttestation :=
  let body := plan.body ssz state
  let draft := blockOn ssz state plan.slot body Bytes32.zero
  signedBlock (blockOn ssz state plan.slot body (bodyStateRoot ssz state draft))

/-- The blocks of a plan, each on top of the state the previous one leaves. -/
def buildBlocks (verifier : SignatureVerifier) :
    List PlannedBlock → State → List SignedBlockWithAttestation
  | [], _ => []
  | plan :: rest, state =>
    let signed := plan.build ssz state
    match processSignedBlock ssz verifier signed state with
    | .ok () state' => signed :: buildBlocks verifier rest state'
    | .error _ _ => [signed]

/-- A list of blocks that all import is a chain. -/
theorem chain_of_imports {ssz : Ssz} {verifier : SignatureVerifier} {genesis : State}
    {blocks : List SignedBlockWithAttestation}
    (h : (importBlocks ssz verifier blocks (History.empty, genesis)).isSome = true) :
    Chain ssz verifier genesis blocks
      ((importBlocks ssz verifier blocks (History.empty, genesis)).getD
        (History.empty, genesis)).1
      ((importBlocks ssz verifier blocks (History.empty, genesis)).getD
        (History.empty, genesis)).2 := by
  obtain ⟨reached, hreached⟩ := Option.isSome_iff_exists.mp h
  rw [hreached, Option.getD_some]
  exact Chain.of_importBlocks .genesis hreached

/-- A hash small enough to evaluate: a polynomial in the parts, modulo the word size. -/
def sampleFold (seed : Nat) (parts : List Bytes32) : Bytes32 :=
  parts.foldl (fun acc part => acc * 1000003#256 + part + 1#256) (BitVec.ofNat 256 (seed + 1))

def sampleSsz : Ssz where
  merkleize := sampleFold 11
  merkleizeTreeRoot := sampleFold 13
  hashNodes a b := sampleFold 17 [a, b]
  listRoot limit roots := sampleFold (19 + limit) roots
  bitListRoot limit data len := sampleFold (23 + limit + len) (data.map (·.setWidth 256))
  limitError _ := "SSZ list length exceeds limit"

/-- The same hash with odd container roots, so that none of them is zero. -/
def oddSsz : Ssz := { sampleSsz with merkleize := fun parts => sampleFold 11 parts ||| 1#256 }

/-- The same hash with the root of the empty body that `generate_genesis` has built in, so that the
genesis header is the header of a block. -/
def anchorSsz : Ssz :=
  { sampleSsz with
    listRoot := fun limit roots =>
      if limit = attestationsLimit ∧ roots = [] then emptyBlockBodyRoot
      else sampleSsz.listRoot limit roots }

/-- A registry of three validators with distinct keys. -/
def threeValidators : Validators :=
  ⟨(List.range 3).map fun i => ⟨BitVec.ofNat 416 (i + 1), i, 0⟩, by decide⟩

/-- Bits of a planned vote over a registry of at most eight. -/
def voters (n : Nat) (byte : Byte) : BitList validatorRegistryLimit := ⟨[byte], n⟩

section Plans

variable (validators : Validators) (plan : List PlannedBlock)

/-- The blocks of a plan from the sample genesis. -/
def sampleBlocks : List SignedBlockWithAttestation :=
  buildBlocks sampleSsz noopSignatureVerifier plan (generateGenesis sampleSsz 0 validators)

def sampleImport : Option (History × State) :=
  importBlocks sampleSsz noopSignatureVerifier (sampleBlocks validators plan)
    (History.empty, generateGenesis sampleSsz 0 validators)

/-- Where a plan ends. -/
def sampleEnd : History × State :=
  (sampleImport validators plan).getD (History.empty, generateGenesis sampleSsz 0 validators)

/-- A plan whose blocks all import is a chain. -/
theorem sampleEnd_chain (h : (sampleImport validators plan).isSome = true) :
    Chain sampleSsz noopSignatureVerifier (generateGenesis sampleSsz 0 validators)
      (sampleBlocks validators plan) (sampleEnd validators plan).1 (sampleEnd validators plan).2 :=
  chain_of_imports h

end Plans

/-! ## Forks -/

/-- A list of blocks with the states they lead to, as calls on a fork choice store. -/
def blockEvents (verifier : SignatureVerifier) :
    List SignedBlockWithAttestation → State → List Event
  | [], _ => []
  | signed :: rest, state =>
    match processSignedBlock ssz verifier signed state with
    | .ok () postState => .block signed postState :: blockEvents verifier rest postState
    | .error _ _ => []

/-- The genesis state of the anchored samples. -/
def anchorGenesis : State := generateGenesis anchorSsz 0 threeValidators

/-- The blocks of a plan on a state, as calls on a fork choice store. -/
def plannedEvents (plan : List PlannedBlock) (state : State) : List Event :=
  blockEvents anchorSsz noopSignatureVerifier
    (buildBlocks anchorSsz noopSignatureVerifier plan state) state

/-- The roots of the blocks of a plan. -/
def plannedRoots (plan : List PlannedBlock) (state : State) : List Bytes32 :=
  (buildBlocks anchorSsz noopSignatureVerifier plan state).map
    (·.message.block.hashTreeRoot anchorSsz)

/-- The anchor of a state. -/
def anchorOf (state : State) : SignedBlockWithAttestation :=
  signedBlock (buildAnchorBlock anchorSsz state)

/-- The store over the anchor of a state. -/
def anchoredStore (state : State) : ForkChoiceStore :=
  (ForkChoiceStore.anchored anchorSsz (anchorOf state) state).overrideCheckpointRoots
    ((anchorOf state).message.block.hashTreeRoot anchorSsz)

theorem new_anchoredStore {state : State}
    (h : ForkChoiceStore.stateMatchesBlockRoot anchorSsz state
      (anchorOf state).message.block.stateRoot = true) :
    ForkChoiceStore.new anchorSsz (anchorOf state) state = .ok (anchoredStore state) := by
  rw [ForkChoiceStore.new, if_pos h]
  rfl

/-- The root of a state's anchor and those of the blocks of a plan on it. -/
def anchoredRoots (plan : List PlannedBlock) (state : State) : List Bytes32 :=
  (anchorOf state).message.block.hashTreeRoot anchorSsz :: plannedRoots plan state

/-- The place of a root in a list, counted from one. -/
def placeIn (roots : List Bytes32) (root : Bytes32) : Nat := (roots.idxOf? root).elim 0 (· + 1)

/-- A vote for a head by the validators of the bits. -/
def headVote (slot : Nat) (head : Bytes32) (bits : BitList validatorRegistryLimit) :
    Attestation where
  aggregationBits := bits
  data := { slot, head := ⟨head, slot⟩, target := ⟨head, slot⟩, source := ⟨head, slot⟩ }

end Peam
