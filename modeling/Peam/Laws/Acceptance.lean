import Peam.Laws.Verify

/-!
# What is passed on is what is imported

The two paths walk the participants differently. The import goes byte by byte over the set bits and
leaves a byte at the first bit past the declared length; the gossip check asks every index below the
length. Both visit the same indices in the same order (`collectKeys_eq`), whatever the byte string
holds beyond its length, so they hand the aggregate check one key list. `single_set_bit` and
`set_bits` agree on the proposer's bit in the same way.
-/

namespace Peam

open Packed
open Calls (Outcome)

/-! ## The proposer's bit -/

/-- The element of a list of one. -/
def onlyElement : List Nat → Option Nat
  | [i] => some i
  | _ => none

private theorem onlyElement_eq_some {indices : List Nat} {i : Nat} :
    onlyElement indices = some i ↔ indices = [i] := by
  match indices with
  | [] => simp [onlyElement]
  | [j] => simp [onlyElement]
  | j :: k :: rest => simp [onlyElement]

private theorem filter_bitAt_past {data : List Byte} {start : Nat} (hpast : data.length ≤ start / 8)
    (count : Nat) : (List.range' start count).filter (bitAt data) = [] := by
  rw [List.filter_eq_nil_iff]
  intro i hi
  rw [List.mem_range'_1] at hi
  rw [bitAt_of_length_le (by omega)]
  exact Bool.false_ne_true

private theorem singleSetBitScan_eq (data : List Byte) (start count : Nat) (found : Option Nat) :
    singleSetBitScan data (List.range' start count) found =
      onlyElement (found.toList ++ (List.range' start count).filter (bitAt data)) := by
  have hfound : ∀ found : Option Nat, onlyElement (found.toList ++ []) = found := by
    intro found
    cases found <;> rfl
  induction count generalizing start found with
  | zero => exact (hfound found).symm
  | succ count ih =>
    rw [List.range'_succ, singleSetBitScan]
    split
    · rename_i hpast
      rw [← List.range'_succ, filter_bitAt_past hpast, hfound]
    · rw [List.filter_cons]
      show (if bitAt data start = true then _ else _) = _
      split
      · cases found with
        | none => exact ih (start + 1) (some start)
        | some first => rfl
      · exact ih (start + 1) found

private theorem setBits_eq (bits : BitList validatorRegistryLimit) :
    setBits bits = (List.range bits.len).filter (bitAt bits.data) := by
  apply List.filter_congr
  intro i hi
  simp [BitList.get, List.mem_range.mp hi]

/-- **`single_set_bit` and `set_bits` agree.** -/
theorem singleSetBit_eq_some {bits : BitList validatorRegistryLimit} {i : Nat} :
    singleSetBit bits = some i ↔ setBits bits = [i] := by
  rw [singleSetBit, List.range_eq_range', singleSetBitScan_eq, onlyElement_eq_some, setBits_eq,
    List.range_eq_range']
  exact Iff.rfl

/-! ## The participants' keys -/

/-- The keys at the given indices, or the error of the import for one outside the registry. -/
def seatKeys (validators : List Validator) (indices : List Nat) : Outcome (List Bytes52) :=
  match indices.mapM fun i => (validators.map (·.pubkey))[i]? with
  | some keys => .ok keys
  | none => Outcome.err "validator index out of range"

private theorem seatKeys_cons (validators : List Validator) (i : Nat) (rest : List Nat) :
    seatKeys validators (i :: rest) =
      match validators[i]? with
      | none => Outcome.err "validator index out of range"
      | some validator =>
        seatKeys validators rest >>= fun keys => .ok (validator.pubkey :: keys) := by
  unfold seatKeys
  rw [List.mapM_cons, List.getElem?_map]
  cases validators[i]? with
  | none => rfl
  | some validator =>
    cases rest.mapM fun i => (validators.map (·.pubkey))[i]? with
    | none => rfl
    | some keys => rfl

private theorem seatKeys_append (validators : List Validator) (front back : List Nat) :
    seatKeys validators (front ++ back) =
      seatKeys validators front >>= fun keys =>
        seatKeys validators back >>= fun further => .ok (keys ++ further) := by
  induction front with
  | nil =>
    show seatKeys validators back = (seatKeys validators back >>= fun further => .ok further)
    cases seatKeys validators back <;> rfl
  | cons i front ih =>
    rw [List.cons_append, seatKeys_cons, seatKeys_cons, ih]
    cases validators[i]? with
    | none => rfl
    | some validator =>
      cases seatKeys validators front with
      | error e => rfl
      | ok keys => cases seatKeys validators back <;> rfl

/-- One byte: the break at the first bit past the length drops what the filter drops, since the bits
come in ascending order. -/
theorem collectByteKeys_eq (validators : List Validator) (bitLen base : Nat) {bits : List Nat}
    (ascending : bits.Pairwise (· < ·)) :
    collectByteKeys validators bitLen base bits =
      seatKeys validators ((bits.map (base + ·)).filter (· < bitLen)) := by
  induction bits with
  | nil => rfl
  | cons bit rest ih =>
    obtain ⟨hlater, hrest⟩ := List.pairwise_cons.mp ascending
    rw [collectByteKeys, List.map_cons]
    split
    · rename_i hpast
      have hnone : ((base + bit) :: rest.map (base + ·)).filter (· < bitLen) = [] := by
        rw [List.filter_eq_nil_iff]
        intro i hi
        rcases List.mem_cons.mp hi with rfl | hi
        · simpa using hpast
        · obtain ⟨j, hj, rfl⟩ := List.mem_map.mp hi
          have := hlater j hj
          simp only [decide_eq_true_eq]
          omega
      rw [hnone]
      rfl
    · rename_i hin
      rw [List.filter_cons_of_pos (by simpa using hin), seatKeys_cons]
      cases validators[base + bit]? with
      | none => rfl
      | some validator =>
        dsimp only
        rw [ih hrest]

/-- The set positions of a byte string, from the lowest up, shifted by whole bytes. -/
theorem filter_bitAt_cons (byte : Byte) (rest : List Byte) :
    (List.range (8 * (byte :: rest).length)).filter (bitAt (byte :: rest)) =
      byteBits byte ++ ((List.range (8 * rest.length)).filter (bitAt rest)).map (8 + ·) := by
  have hfirst : (List.range 8).filter (bitAt (byte :: rest)) = byteBits byte := by
    apply List.filter_congr
    intro i hi
    exact bitAt_cons_zero byte rest (List.mem_range.mp hi)
  have hlater : ∀ i, bitAt (byte :: rest) (8 + i) = bitAt rest i := by
    intro i
    rw [Nat.add_comm]
    exact bitAt_cons_add byte rest i
  rw [List.length_cons, Nat.mul_succ, Nat.add_comm, List.range_add, List.filter_append, hfirst,
    List.filter_map]
  congr 2
  exact List.filter_congr fun i _ => hlater i

private theorem collectKeys_eq_seatKeys (validators : List Validator) (bitLen byteIdx : Nat)
    (bytes : List Byte) :
    collectKeys validators bitLen byteIdx bytes =
      seatKeys validators ((((List.range (8 * bytes.length)).filter (bitAt bytes)).map
        (byteIdx * 8 + ·)).filter (· < bitLen)) := by
  induction bytes generalizing byteIdx with
  | nil => rfl
  | cons byte rest ih =>
    have ascending : (byteBits byte).Pairwise (· < ·) := List.pairwise_lt_range.filter _
    have hshift : ∀ i, byteIdx * 8 + (8 + i) = (byteIdx + 1) * 8 + i := by
      intro i
      omega
    rw [collectKeys, collectByteKeys_eq validators bitLen _ ascending, ih, filter_bitAt_cons,
      List.map_append, List.filter_append, seatKeys_append, List.map_map]
    simp only [Function.comp_def, hshift]

/-- **Both paths read the same keys in the same order.** -/
theorem collectKeys_eq (validators : List Validator) (bits : BitList validatorRegistryLimit) :
    collectKeys validators bits.len 0 bits.data =
      match gatherPubkeys (validators.map (·.pubkey)) bits with
      | some keys => .ok keys
      | none => Outcome.err "validator index out of range" := by
  have hindices : (((List.range (8 * bits.data.length)).filter (bitAt bits.data)).map
      (0 * 8 + ·)).filter (· < bits.len) = setBits bits := by
    simp only [Nat.zero_mul, Nat.zero_add, List.map_id']
    refine List.Pairwise.eq_of_mem_iff ((List.pairwise_lt_range.filter _).filter _)
      (List.pairwise_lt_range.filter _) fun i => ?_
    simp only [setBits, List.mem_filter, List.mem_range, BitList.get, Bool.and_eq_true,
      decide_eq_true_eq]
    constructor
    · rintro ⟨⟨_, hbit⟩, hlen⟩
      exact ⟨hlen, hlen, hbit⟩
    · rintro ⟨hlen, _, hbit⟩
      exact ⟨⟨lt_of_bitAt hbit, hbit⟩, hlen⟩
  rw [collectKeys_eq_seatKeys, hindices]
  rfl

/-! ## The two paths -/

section Law

variable (ssz : Ssz) (pq : PqBackend)

private theorem isOk_eq_true {r : Outcome Unit} : r.isOk = true ↔ r = .ok () := by
  cases r with
  | error e => simp [Except.isOk, Except.toBool]
  | ok _ => simp [Except.isOk, Except.toBool]

private theorem verifyAttestation_iff (validators : List Validator) (att : Attestation)
    (proof : AggregatedSignatureProof) :
    verifyAttestation ssz pq validators att proof = .ok () ↔
      (simpleGossipVerifier ssz pq (validators.map (·.pubkey))).verifyAttestationSignature att
        proof = true := by
  unfold verifyAttestation simpleGossipVerifier
  rw [collectKeys_eq, Outcome.bind_ok]
  dsimp only
  cases gatherPubkeys (validators.map (·.pubkey)) att.aggregationBits with
  | none => simp [Outcome.err]
  | some keys =>
    rw [Bool.and_eq_true, isOk_eq_true]
    constructor
    · rintro ⟨_, hkeys, h⟩
      cases hkeys
      obtain ⟨_, hsome, h⟩ := Outcome.bind_ok.mp h
      exact ⟨by simpa using Outcome.failIf_ok.mp hsome, h⟩
    · rintro ⟨hsome, h⟩
      refine ⟨keys, rfl, Outcome.bind_ok.mpr ⟨(), Outcome.failIf_ok.mpr ?_, h⟩⟩
      simpa using hsome

private theorem proposerSigned_iff (validators : List Validator) (message : BlockWithAttestation)
    (proposerIndex : Nat) (signature : Bytes3112) :
    ProposerSigned ssz pq validators proposerIndex message.proposerAttestation.data signature ↔
      (simpleGossipVerifier ssz pq (validators.map (·.pubkey))).verifyBlockSignature proposerIndex
        message signature = true := by
  unfold ProposerSigned simpleGossipVerifier
  dsimp only
  rw [List.getElem?_map]
  cases validators[proposerIndex]? with
  | none => simp
  | some proposer => simp [isOk_eq_true]

/-- **Gossip acceptance is import acceptance.** Over a registry that is not empty the gossip check
passes a signed block exactly when the structural checks and the verifier of the import do, on the
block and on any payload that decodes to it; and the two hand the aggregate check one key list. -/
theorem acceptedForGossip_iff_import (state : State) (registered : state.validators.items ≠ [])
    (signed : SignedBlockWithAttestation) :
    (validateGossipBlock (verifierFromValidators ssz pq state.validators.items) signed = true ↔
      AcceptedForImport ssz pq state signed) ∧
    (∀ codec payload, SignedBlockWithAttestation.decodeSszChecked codec payload = .ok signed →
      (AcceptedForGossip ssz pq codec state.validators.items payload ↔
        AcceptedForImport ssz pq state signed)) ∧
    ∀ bits keys, gatherPubkeys (state.validators.items.map (·.pubkey)) bits = some keys ↔
      collectKeys state.validators.items bits.len 0 bits.data = .ok keys := by
  have hverifier : verifierFromValidators ssz pq state.validators.items =
      simpleGossipVerifier ssz pq (state.validators.items.map (·.pubkey)) :=
    if_neg (by simpa using registered)
  have hblock : validateGossipBlock (verifierFromValidators ssz pq state.validators.items)
      signed = true ↔ AcceptedForImport ssz pq state signed := by
    rw [validateGossipBlock_iff, acceptedForImport_iff, hverifier, singleSetBit_eq_some,
      proposerSigned_iff]
    simp only [verifyAttestation_iff]
  refine ⟨hblock, fun codec payload decoded => ?_, fun bits keys => ?_⟩
  · rw [acceptedForGossip_iff ssz pq decoded, hblock]
  · rw [collectKeys_eq]
    cases gatherPubkeys (state.validators.items.map (·.pubkey)) bits with
    | none => simp [Outcome.err]
    | some keys' => simp

/-- An aggregate scheme that accepts the first two validators of `threeValidators`, in order. -/
def pairPq : PqBackend where
  Key := Bytes52
  Signature := Bytes3112
  Aggregate := Unit
  publicKeyFromBytes := .ok
  signatureFromBytes := .ok
  verify key epoch message signature := signature == idealSignature key epoch message
  aggregateFromSszBytes _ := .ok ()
  verifyAggregatedSignatures keys _ _ _ :=
    if keys = (threeValidators.items.take 2).map (·.pubkey) then .ok ()
    else .error "not the first two"

/-- Bits 0 and 1 of three, and every bit past the declared length. -/
def strayBits : BitList validatorRegistryLimit := ⟨[0b11111011#8, 0xff#8], 3⟩

/-- The block of `graft` with one attestation whose bit list has bits past its length. -/
def strayGraft : SignedBlockWithAttestation :=
  let signed := graft 5#256 6#256
  { signed with
    message.block.body.attestations :=
      ⟨[{ aggregationBits := strayBits, data := signedData }]⟩
    signature.attestationSignatures :=
      ⟨[{ participants := strayBits, proofData := ⟨List.replicate 8 0#8⟩ }]⟩ }

/-- The law at bits past the length. -/
theorem acceptedForGossip_iff_import_stray :
    AcceptedForImport sampleSsz pairPq (generateGenesis sampleSsz 0 threeValidators) strayGraft ∧
      validateGossipBlock (verifierFromValidators sampleSsz pairPq threeValidators.items)
        strayGraft = true := by
  have accepted : AcceptedForImport sampleSsz pairPq
      (generateGenesis sampleSsz 0 threeValidators) strayGraft := by decide +kernel
  have law := acceptedForGossip_iff_import sampleSsz pairPq
    (generateGenesis sampleSsz 0 threeValidators) (by decide) strayGraft
  exact ⟨accepted, law.1.mpr accepted⟩

end Law

end Peam
