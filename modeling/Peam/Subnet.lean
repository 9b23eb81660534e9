import Mathlib.Data.List.Sort
import Peam.Signing
import Peam.Verify

/-!
# Aggregation of a subnet's attestations

`aggregate_signed_attestations` of `src/node/tasks.rs`: the attestations that arrived one by one for
a slot are checked, grouped by the root of their data, and each group is aggregated into one
attestation with its proof. The aggregation task drains the pool of individual attestations once a
slot and puts what comes out into the pools of attestations and of block attestations.

Groups are handed out in the order of a hash map, which no result depends on.
-/

namespace Peam

open Packed (Byte)
open Calls (Outcome)

section Aggregate

variable {K : Type} (ssz : Ssz) (pq : PqBackend) (lib : LeanSig K)
  (keys : List (Option (KeyMaterial K)))

/-- `aggregate_signatures`. -/
def aggregateSignatures (publicKeys : List Bytes52) (signatures : List Bytes3112)
    (message : Bytes32) (epoch : Nat) : Outcome (List Byte) :=
  if publicKeys = [] then Outcome.err "aggregate signature participants must be non-empty"
  else if publicKeys.length ≠ signatures.length then
    Outcome.err
      s!"public key count ({publicKeys.length}) does not match signature count ({signatures.length})"
  else
    match lib.aggregate publicKeys signatures message (epoch % 2 ^ 32) with
    | .error e => Outcome.err s!"failed to aggregate signatures: {e}"
    | .ok proof => .ok proof

/-- One signer of a group. -/
structure GroupEntry where
  idx : Nat
  pubkey : Bytes52
  signature : Bytes3112
  deriving DecidableEq

/-- The attestations of one data root. -/
structure Group where
  data : Option AttestationData
  entries : List GroupEntry

/-- `Group::default()`. -/
def Group.default : Group := ⟨none, []⟩

/-- The checks of the first loop: slot, subnet, a cached key, and the signature under it. -/
def groupEntry (slot committeeCount subnetId : Nat) (signed : SignedAttestation) :
    Option GroupEntry :=
  if signed.message.slot ≠ slot then none
  else if committeeCount = 0 then none
  else if signed.validatorId % committeeCount ≠ subnetId then none
  else
    match keys[signed.validatorId]? with
    | some (some material) =>
      match verifySignature pq material.pubkey signed.message.slot
        (signed.message.hashTreeRoot ssz) signed.signature with
      | .error _ => none
      | .ok () => some ⟨signed.validatorId, material.pubkey, signed.signature⟩
    | _ => none

/-- The group with one more signer: the first to come gives the data, and a signer comes once. -/
def Group.add (group : Group) (data : AttestationData) (entry : GroupEntry) : Group where
  data := group.data.or (some data)
  entries :=
    if group.entries.any fun seen => seen.idx == entry.idx then group.entries
    else group.entries ++ [entry]

/-- One turn of the first loop. -/
def groupOne (slot committeeCount subnetId : Nat) (grouped : RapidHashMap Group)
    (signed : SignedAttestation) : RapidHashMap Group :=
  match groupEntry ssz pq keys slot committeeCount subnetId signed with
  | none => grouped
  | some entry =>
    let dataRoot := signed.message.hashTreeRoot ssz
    grouped.insert dataRoot (((grouped.lookup dataRoot).getD .default).add signed.message entry)

/-- The first loop. -/
def groupSigned (slot committeeCount subnetId : Nat) (attestations : List SignedAttestation) :
    RapidHashMap Group :=
  attestations.foldl (groupOne ssz pq keys slot committeeCount subnetId) ∅

/-- `sort_by_key` on the index. -/
def Group.sorted (group : Group) : List GroupEntry :=
  group.entries.insertionSort fun a b => a.idx ≤ b.idx

/-- `vec![false; max_idx + 1]` with the bits of the indices set, as a bit list. -/
def bitsOf (indices : List Nat) (maxIdx : Nat) : BitList validatorRegistryLimit :=
  ⟨indices.foldl Packed.setBit (List.replicate (maxIdx / 8 + 1) 0#8), maxIdx + 1⟩

/-- The second loop, on one group: nothing if it has no signer, a bit list too long, or signatures
that do not aggregate into a proof of the allowed size. -/
def aggregateGroup (group : Group) : Option (Attestation × AggregatedSignatureProof) :=
  match group.data, (group.sorted.map (·.idx)).max? with
  | some data, some maxIdx =>
    if maxIdx + 1 > validatorRegistryLimit then none
    else
      let bitlist := bitsOf (group.sorted.map (·.idx)) maxIdx
      match aggregateSignatures lib (group.sorted.map (·.pubkey))
        (group.sorted.map (·.signature)) (data.hashTreeRoot ssz) data.slot with
      | .error _ => none
      | .ok proofBytes =>
        if proofBytes.length > proofMaxBytes then none
        else some (⟨bitlist, data⟩, ⟨bitlist, ⟨proofBytes⟩⟩)
  | _, _ => none

/-- `aggregate_signed_attestations`. -/
def aggregateSignedAttestations (slot committeeCount subnetId : Nat)
    (attestations : List SignedAttestation) : List (Attestation × AggregatedSignatureProof) :=
  (groupSigned ssz pq keys slot committeeCount subnetId attestations).entries.filterMap
    fun entry => aggregateGroup ssz lib entry.2

end Aggregate

end Peam
