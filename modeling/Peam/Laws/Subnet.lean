import Peam.Subnet
import Peam.Laws.Signing
import Peam.Laws.Verify

/-!
# What a subnet's aggregate says

A group has one entry for each validator that signed its data (`Gathered`, one turn of the loop at a
time). Sorted by index, its participants are the set bits of the bit list made from them, so the
keys handed to the aggregation are those a verifier reads off the registry bit by bit
(`gatherPubkeys_sorted`).

Groups are kept by the root of their data, so a signer is in the one group of that root, and when
its signatures aggregate, in one pair (`aggregateSignedAttestations_keyed`).
-/

namespace Peam

open Packed (Byte bitAt setBit)

variable {indices : List Nat} {maxIdx : Nat} {proofBytes : List Byte}

/-! ## Bits -/

private theorem bitAt_foldl_setBit (indices : List Nat) (data : List Byte) (j : Nat) :
    bitAt (indices.foldl setBit data) j = true ↔
      bitAt data j = true ∨ j ∈ indices ∧ j / 8 < data.length := by
  induction indices generalizing data with
  | nil => simp
  | cons i rest ih =>
    rw [List.foldl_cons, ih, Packed.bitAt_setBit, Packed.length_setBit, Bool.or_eq_true,
      decide_eq_true_eq, List.mem_cons, or_assoc]
    refine or_congr_right ?_
    constructor
    · rintro (⟨rfl, hlen⟩ | ⟨hmem, hlen⟩)
      · exact ⟨.inl rfl, hlen⟩
      · exact ⟨.inr hmem, hlen⟩
    · rintro ⟨rfl | hmem, hlen⟩
      · exact .inl ⟨rfl, hlen⟩
      · exact .inr ⟨hmem, hlen⟩

private theorem mem_setBits {bits : BitList validatorRegistryLimit} {i : Nat} :
    i ∈ setBits bits ↔ i < bits.len ∧ bitAt bits.data i = true := by
  simp [setBits, BitList.get]

private theorem mem_setBits_bitsOf {i : Nat} (bounded : ∀ i ∈ indices, i ≤ maxIdx) :
    i ∈ setBits (bitsOf indices maxIdx) ↔ i ∈ indices := by
  rw [mem_setBits]
  show i < maxIdx + 1 ∧ bitAt (indices.foldl setBit _) i = true ↔ _
  rw [bitAt_foldl_setBit, Packed.bitAt_replicate_zero, List.length_replicate]
  constructor
  · rintro ⟨-, h | h⟩
    · cases h
    · exact h.1
  · intro hmem
    have hle := bounded i hmem
    exact ⟨by omega, .inr ⟨hmem, by omega⟩⟩

private theorem pairwise_setBits (bits : BitList validatorRegistryLimit) :
    (setBits bits).Pairwise (· < ·) :=
  List.pairwise_lt_range.filter _

private theorem setBits_bitsOf (rising : indices.Pairwise (· < ·))
    (bounded : ∀ i ∈ indices, i ≤ maxIdx) : setBits (bitsOf indices maxIdx) = indices := by
  have hbits := pairwise_setBits (bitsOf indices maxIdx)
  refine List.Perm.eq_of_pairwise (fun a b _ _ hab hba => absurd hba (Nat.lt_asymm hab)) hbits
    rising ?_
  rw [List.perm_ext_iff_of_nodup (hbits.imp Nat.ne_of_lt) (rising.imp Nat.ne_of_lt)]
  exact fun i => mem_setBits_bitsOf bounded

section Groups

variable {K : Type} {ssz : Ssz} {pq : PqBackend} {lib : LeanSig K}
  {keys : List (Option (KeyMaterial K))} {slot committeeCount subnetId : Nat}

/-! ## Grouping -/

variable {signed : SignedAttestation}

/-- What the first loop lets through: an attestation for the slot and the subnet, signed under the
cached key of its validator. -/
theorem groupEntry_eq_some {entry : GroupEntry} :
    groupEntry ssz pq keys slot committeeCount subnetId signed = some entry ↔
      signed.message.slot = slot ∧ committeeCount ≠ 0 ∧
        signed.validatorId % committeeCount = subnetId ∧
        ∃ material, keys[signed.validatorId]? = some (some material) ∧
          verifySignature pq material.pubkey signed.message.slot
            (signed.message.hashTreeRoot ssz) signed.signature = .ok () ∧
          entry = ⟨signed.validatorId, material.pubkey, signed.signature⟩ := by
  unfold groupEntry
  by_cases hslot : signed.message.slot = slot
  · by_cases hcount : committeeCount = 0
    · simp [hslot, hcount]
    · by_cases hsubnet : signed.validatorId % committeeCount = subnetId
      · rw [if_neg (not_not.mpr hslot), if_neg hcount, if_neg (not_not.mpr hsubnet)]
        refine Iff.trans ?_ (and_iff_right hslot).symm
        refine Iff.trans ?_ (and_iff_right hcount).symm
        refine Iff.trans ?_ (and_iff_right hsubnet).symm
        rcases hkey : keys[signed.validatorId]? with _ | _ | material
        · simp
        · simp
        · cases hverify : verifySignature pq material.pubkey signed.message.slot
            (signed.message.hashTreeRoot ssz) signed.signature with
          | error failure => simp [hverify]
          | ok done => simp [hverify, eq_comm]
      · simp [hslot, hcount, hsubnet]
  · simp [hslot]

/-- What a group is when the attestations of `done` are in: its data is that of one of them, it has
one entry for each validator whose attestation of its root was let through, and no other. -/
structure Gathered (ssz : Ssz) (enter : SignedAttestation → Option GroupEntry)
    (done : List SignedAttestation) (root : Bytes32) (group : Group) : Prop where
  data : ∀ data, group.data = some data → ∃ signed ∈ done,
    (enter signed).isSome ∧ signed.message = data ∧ data.hashTreeRoot ssz = root
  filled : group.data = none → group.entries = []
  distinct : (group.entries.map (·.idx)).Nodup
  came : ∀ entry ∈ group.entries,
    ∃ signed ∈ done, enter signed = some entry ∧ signed.message.hashTreeRoot ssz = root
  kept : ∀ signed ∈ done, ∀ entry, enter signed = some entry →
    signed.message.hashTreeRoot ssz = root → entry.idx ∈ group.entries.map (·.idx)

variable {data : AttestationData} {grouped : RapidHashMap Group}
  {pair : Attestation × AggregatedSignatureProof} {group : Group}

private theorem Group.mem_add {entry : GroupEntry} {idx : Nat} :
    idx ∈ (group.add data entry).entries.map (·.idx) ↔
      idx ∈ group.entries.map (·.idx) ∨ idx = entry.idx := by
  unfold Group.add
  by_cases hseen : group.entries.any fun seen => seen.idx == entry.idx
  · simp only [hseen, if_true]
    obtain ⟨seen, hmem, heq⟩ := List.any_eq_true.mp hseen
    refine ⟨.inl, fun h => h.elim id ?_⟩
    rintro rfl
    exact List.mem_map.mpr ⟨seen, hmem, beq_iff_eq.mp heq⟩
  · simp [hseen]

private theorem Group.entries_add {entry other : GroupEntry}
    (h : other ∈ (group.add data entry).entries) : other ∈ group.entries ∨ other = entry := by
  unfold Group.add at h
  split at h
  · exact .inl h
  · exact (List.mem_append.mp h).imp_right List.mem_singleton.mp

private theorem Group.nodup_add (nodup : (group.entries.map (·.idx)).Nodup)
    (data : AttestationData) (entry : GroupEntry) :
    ((group.add data entry).entries.map (·.idx)).Nodup := by
  unfold Group.add
  by_cases hseen : group.entries.any fun seen => seen.idx == entry.idx
  · simp only [hseen, if_true]
    exact nodup
  · simp only [hseen]
    rw [if_neg Bool.false_ne_true, List.map_append]
    refine nodup.append (List.nodup_singleton _) ?_
    intro idx hold hnew
    rw [List.map_singleton, List.mem_singleton] at hnew
    obtain ⟨seen, hmem, rfl⟩ := List.mem_map.mp hold
    exact hseen (List.any_eq_true.mpr ⟨seen, hmem, beq_iff_eq.mpr hnew⟩)

namespace Gathered

variable {enter : SignedAttestation → Option GroupEntry} {done : List SignedAttestation}
  {root : Bytes32} {group : Group} {signed : SignedAttestation} {entry : GroupEntry}

private theorem start (root : Bytes32) : Gathered ssz enter [] root .default where
  data _ h := by cases h
  filled _ := rfl
  distinct := List.nodup_nil
  came _ h := (List.not_mem_nil h).elim
  kept _ h := (List.not_mem_nil h).elim

private theorem skip (gathered : Gathered ssz enter done root group)
    (out : enter signed = none ∨ signed.message.hashTreeRoot ssz ≠ root) :
    Gathered ssz enter (done ++ [signed]) root group where
  data data h := by
    obtain ⟨first, hfirst, hroot⟩ := gathered.data data h
    exact ⟨first, List.mem_append_left _ hfirst, hroot⟩
  filled := gathered.filled
  distinct := gathered.distinct
  came entry hentry := by
    obtain ⟨first, hfirst, hroot⟩ := gathered.came entry hentry
    exact ⟨first, List.mem_append_left _ hfirst, hroot⟩
  kept other hother entry hentry hroot := by
    rcases List.mem_append.mp hother with hold | hnew
    · exact gathered.kept other hold entry hentry hroot
    · rw [List.mem_singleton.mp hnew] at hentry hroot
      rcases out with hnone | hne
      · rw [hnone] at hentry
        cases hentry
      · exact absurd hroot hne

private theorem add (gathered : Gathered ssz enter done root group)
    (enters : enter signed = some entry) (hroot : signed.message.hashTreeRoot ssz = root) :
    Gathered ssz enter (done ++ [signed]) root (group.add signed.message entry) where
  data data h := by
    cases hdata : group.data with
    | none =>
      have hnew : some signed.message = some data := by
        rw [← h, Group.add, hdata, Option.none_or]
      cases hnew
      exact ⟨signed, List.mem_append_right _ List.mem_cons_self,
        Option.isSome_iff_exists.mpr ⟨entry, enters⟩, rfl, hroot⟩
    | some first =>
      have hold : group.data = some data := by
        rw [← h, Group.add, hdata, Option.some_or]
      obtain ⟨first, hfirst, hroot⟩ := gathered.data data hold
      exact ⟨first, List.mem_append_left _ hfirst, hroot⟩
  filled h := by
    rw [Group.add] at h
    exact absurd (Option.or_eq_none_iff.mp h).2 (nomatch ·)
  distinct := Group.nodup_add gathered.distinct signed.message entry
  came other hother := by
    rcases Group.entries_add hother with hold | rfl
    · obtain ⟨first, hfirst, hfound⟩ := gathered.came other hold
      exact ⟨first, List.mem_append_left _ hfirst, hfound⟩
    · exact ⟨signed, List.mem_append_right _ List.mem_cons_self, enters, hroot⟩
  kept other hother found hfound hsame := by
    rw [Group.mem_add]
    rcases List.mem_append.mp hother with hold | hnew
    · exact .inl (gathered.kept other hold found hfound hsame)
    · rw [List.mem_singleton.mp hnew, enters, Option.some_inj] at hfound
      exact .inr (congrArg GroupEntry.idx hfound.symm)

end Gathered

/-- The group of a root, empty as long as nothing came. -/
def groupAt (grouped : RapidHashMap Group) (root : Bytes32) : Group :=
  (grouped.lookup root).getD .default

private theorem groupAt_insert (grouped : RapidHashMap Group) (root other : Bytes32)
    (group : Group) : groupAt (grouped.insert root group) other =
      if other = root then group else groupAt grouped other := by
  unfold groupAt
  rw [lookup_insert_eq]
  split <;> rfl

private theorem gathered_groupOne {done : List SignedAttestation}
    (gathered : ∀ root, Gathered ssz (groupEntry ssz pq keys slot committeeCount subnetId) done root
      (groupAt grouped root)) (signed : SignedAttestation) (root : Bytes32) :
    Gathered ssz (groupEntry ssz pq keys slot committeeCount subnetId) (done ++ [signed]) root
      (groupAt (groupOne ssz pq keys slot committeeCount subnetId grouped signed) root) := by
  unfold groupOne
  cases henter : groupEntry ssz pq keys slot committeeCount subnetId signed with
  | none => exact (gathered root).skip (.inl henter)
  | some entry =>
    dsimp only
    rw [groupAt_insert]
    split
    · rename_i hroot
      subst hroot
      exact (gathered _).add henter rfl
    · rename_i hroot
      exact (gathered root).skip (.inr (Ne.symm hroot))

private theorem gathered_groupSigned (attestations : List SignedAttestation) (root : Bytes32) :
    Gathered ssz (groupEntry ssz pq keys slot committeeCount subnetId) attestations root
      (groupAt (groupSigned ssz pq keys slot committeeCount subnetId attestations) root) := by
  induction attestations using List.reverseRecOn generalizing root with
  | nil => exact .start root
  | append_singleton done signed ih =>
    rw [groupSigned, List.foldl_append]
    exact gathered_groupOne ih signed root

/-! ## One group -/

private theorem Group.perm_sorted (group : Group) : group.sorted.Perm group.entries :=
  List.perm_insertionSort _ _

/-- Signers that are distinct are in strictly rising order once sorted. -/
theorem Group.pairwise_sorted (distinct : (group.entries.map (·.idx)).Nodup) :
    (group.sorted.map (·.idx)).Pairwise (· < ·) := by
  have hle : (group.sorted.map (·.idx)).Pairwise (· ≤ ·) := by
    have : Std.Total fun a b : GroupEntry => a.idx ≤ b.idx := ⟨fun a b => Nat.le_total a.idx b.idx⟩
    have : IsTrans GroupEntry fun a b => a.idx ≤ b.idx := ⟨fun _ _ _ => Nat.le_trans⟩
    exact List.pairwise_map.mpr (List.pairwise_insertionSort _ group.entries)
  have hne : (group.sorted.map (·.idx)).Nodup :=
    (group.perm_sorted.map GroupEntry.idx).nodup_iff.mpr distinct
  exact (hle.and hne).imp fun h => Nat.lt_of_le_of_ne h.1 h.2

private theorem mapM_of_forall {α β γ : Type} {f : α → Option β} (key : γ → α) (value : γ → β)
    (entries : List γ) (found : ∀ entry ∈ entries, f (key entry) = some (value entry)) :
    (entries.map key).mapM f = some (entries.map value) := by
  induction entries with
  | nil => rfl
  | cons entry rest ih =>
    rw [List.map_cons, List.map_cons, List.mapM_cons, found entry List.mem_cons_self,
      ih fun other hother => found other (List.mem_cons_of_mem _ hother)]
    rfl

/-- A verifier that scans the bits reads the signers' keys off the registry, in the order they were
aggregated in. -/
theorem gatherPubkeys_sorted {registry : List Bytes52}
    (distinct : (group.entries.map (·.idx)).Nodup)
    (registered : ∀ entry ∈ group.entries, registry[entry.idx]? = some entry.pubkey)
    (bounded : ∀ i ∈ group.sorted.map (·.idx), i ≤ maxIdx) :
    gatherPubkeys registry (bitsOf (group.sorted.map (·.idx)) maxIdx) =
      some (group.sorted.map (·.pubkey)) := by
  rw [gatherPubkeys, setBits_bitsOf (Group.pairwise_sorted distinct) bounded]
  exact mapM_of_forall _ _ _ fun entry hentry =>
    registered entry (group.perm_sorted.mem_iff.mp hentry)

/-- The library is called with as many keys as signatures, and at least one. -/
theorem aggregateSignatures_eq_ok {publicKeys : List Bytes52} {signatures : List Bytes3112}
    {message : Bytes32} {epoch : Nat} :
    aggregateSignatures lib publicKeys signatures message epoch = .ok proofBytes ↔
      publicKeys ≠ [] ∧ publicKeys.length = signatures.length ∧
        lib.aggregate publicKeys signatures message (epoch % 2 ^ 32) = .ok proofBytes := by
  unfold aggregateSignatures
  split
  · next hnil => exact ⟨nofun, fun h => absurd hnil h.1⟩
  · next hne =>
    split
    · next hcount => exact ⟨nofun, fun h => absurd h.2.1 hcount⟩
    · next hcount =>
      rw [and_iff_right hne, and_iff_right (not_not.mp hcount)]
      cases lib.aggregate publicKeys signatures message (epoch % 2 ^ 32) with
      | error text => exact ⟨nofun, nofun⟩
      | ok proof =>
        exact ⟨fun h => congrArg _ (Except.ok.inj h), fun h => congrArg _ (Except.ok.inj h)⟩

/-- What a group is aggregated into. -/
theorem aggregateGroup_inv (h : aggregateGroup ssz lib group = some pair) :
    ∃ maxIdx, (group.sorted.map (·.idx)).max? = some maxIdx ∧
      group.data = some pair.1.data ∧
      pair.1.aggregationBits = bitsOf (group.sorted.map (·.idx)) maxIdx ∧
      pair.2.participants = pair.1.aggregationBits ∧
      lib.aggregate (group.sorted.map (·.pubkey)) (group.sorted.map (·.signature))
        (pair.1.data.hashTreeRoot ssz) (pair.1.data.slot % 2 ^ 32) = .ok pair.2.proofData.data := by
  unfold aggregateGroup at h
  split at h
  case h_2 => cases h
  case h_1 data maxIdx hdata hmax =>
    rw [if_neg fun hlimit => by rw [if_pos hlimit] at h; cases h] at h
    dsimp only at h
    split at h
    · cases h
    · rename_i proofBytes hproof
      rw [if_neg fun hlong => by rw [if_pos hlong] at h; cases h] at h
      cases h
      exact ⟨maxIdx, hmax, hdata, rfl, rfl, (aggregateSignatures_eq_ok.mp hproof).2.2⟩

/-- A group whose signatures aggregate gives a pair with the proof. -/
theorem aggregateGroup_of_aggregate (hdata : group.data = some data)
    (signers : group.entries ≠ [])
    (bounded : ∀ entry ∈ group.entries, entry.idx < validatorRegistryLimit)
    (aggregates : lib.aggregate (group.sorted.map (·.pubkey)) (group.sorted.map (·.signature))
      (data.hashTreeRoot ssz) (data.slot % 2 ^ 32) = .ok proofBytes)
    (fits : proofBytes.length ≤ proofMaxBytes) :
    ∃ pair, aggregateGroup ssz lib group = some pair ∧ pair.2.proofData.data = proofBytes := by
  have hsorted : group.sorted ≠ [] := by
    intro hnil
    have hperm := group.perm_sorted
    rw [hnil] at hperm
    exact signers hperm.nil_eq.symm
  have hproof := aggregateSignatures_eq_ok.mpr
    ⟨mt List.map_eq_nil_iff.mp hsorted, by rw [List.length_map, List.length_map], aggregates⟩
  have hsome := List.isSome_max?_iff.mpr (mt (List.map_eq_nil_iff (f := GroupEntry.idx)).mp hsorted)
  obtain ⟨maxIdx, hmax⟩ := Option.isSome_iff_exists.mp hsome
  have hlimit : ¬ maxIdx + 1 > validatorRegistryLimit := by
    obtain ⟨entry, hentry, rfl⟩ := List.mem_map.mp (List.max?_mem hmax)
    have := bounded entry (group.perm_sorted.mem_iff.mp hentry)
    omega
  simp only [aggregateGroup, hdata, hmax, if_neg hlimit, hproof, if_neg (Nat.not_lt.mpr fits),
    Option.some.injEq, exists_eq_left']

/-! ## The pass -/

/-- A pair speaks for an attestation when it carries its data and its validator's bit. -/
def represents (ssz : Ssz) (signed : SignedAttestation)
    (pair : Attestation × AggregatedSignatureProof) : Bool :=
  pair.1.data.hashTreeRoot ssz = signed.message.hashTreeRoot ssz ∧
    signed.validatorId ∈ setBits pair.1.aggregationBits

/-- The cache has the keys of the registry, each at its validator's index. -/
def KeysOf (validators : List Validator) (keys : List (Option (KeyMaterial K))) : Prop :=
  ∀ (i : Nat) (material : KeyMaterial K), keys[i]? = some (some material) →
    (validators.map (·.pubkey))[i]? = some material.pubkey

variable {attestations : List SignedAttestation} {entry : Sigma fun _ : Bytes32 => Group}

private theorem groupAt_of_mem (h : entry ∈ grouped.entries) :
    groupAt grouped entry.1 = entry.2 := by
  rw [groupAt, AList.mem_lookup_iff.mpr h, Option.getD_some]

private theorem mem_entries_of_data {root : Bytes32} (h : (groupAt grouped root).data = some data) :
    (⟨root, groupAt grouped root⟩ : Sigma fun _ : Bytes32 => Group) ∈ grouped.entries := by
  unfold groupAt at h ⊢
  cases hfound : grouped.lookup root with
  | none =>
    rw [hfound] at h
    cases h
  | some group => exact AList.mem_lookup_iff.mp hfound

private theorem gathered_of_mem
    (h : entry ∈ (groupSigned ssz pq keys slot committeeCount subnetId attestations).entries) :
    Gathered ssz (groupEntry ssz pq keys slot committeeCount subnetId) attestations entry.1
      entry.2 := by
  have hgathered : Gathered ssz (groupEntry ssz pq keys slot committeeCount subnetId) attestations
      entry.1 (groupAt (groupSigned ssz pq keys slot committeeCount subnetId attestations) entry.1) :=
    gathered_groupSigned attestations entry.1
  rwa [groupAt_of_mem h] at hgathered

private theorem Gathered.registered {root : Bytes32} {validators : List Validator}
    (cached : KeysOf validators keys)
    (gathered : Gathered ssz (groupEntry ssz pq keys slot committeeCount subnetId) attestations root
      group) {entry : GroupEntry} (hentry : entry ∈ group.entries) :
    (validators.map (·.pubkey))[entry.idx]? = some entry.pubkey := by
  obtain ⟨signed, -, henter, -⟩ := gathered.came entry hentry
  obtain ⟨-, -, -, material, hkey, -, rfl⟩ := groupEntry_eq_some.mp henter
  exact cached _ material hkey

private theorem setBits_aggregateGroup (distinct : (group.entries.map (·.idx)).Nodup)
    (h : aggregateGroup ssz lib group = some pair) :
    setBits pair.1.aggregationBits = group.sorted.map (·.idx) := by
  obtain ⟨maxIdx, hmax, -, hbits, -⟩ := aggregateGroup_inv h
  rw [hbits]
  exact setBits_bitsOf (Group.pairwise_sorted distinct) (List.max?_eq_some_iff.mp hmax).2

private theorem filterMap_eq_singleton {α β : Type} {f : α → Option β} {items : List α} {a : α}
    {b : β} (nodup : items.Nodup) (mem : a ∈ items) (here : f a = some b)
    (others : ∀ c ∈ items, c ≠ a → f c = none) : items.filterMap f = [b] := by
  obtain ⟨before, after, rfl⟩ := List.append_of_mem mem
  have hnodup := List.nodup_middle.mp nodup
  have hnone : ∀ c ∈ before ++ after, f c = none := by
    intro c hc
    refine others c ?_ ?_
    · rw [List.mem_append, List.mem_cons]
      exact (List.mem_append.mp hc).imp_right .inr
    · rintro rfl
      exact (List.nodup_cons.mp hnodup).1 hc
  rw [List.filterMap_append, List.filterMap_cons_some here,
    List.filterMap_eq_nil_iff.mpr fun c hc => hnone c (List.mem_append_left _ hc),
    List.filterMap_eq_nil_iff.mpr fun c hc => hnone c (List.mem_append_right _ hc), List.nil_append]

private theorem root_of_represents
    (hentry : entry ∈ (groupSigned ssz pq keys slot committeeCount subnetId attestations).entries)
    (hpair : aggregateGroup ssz lib entry.2 = some pair) (h : represents ssz signed pair) :
    entry.1 = signed.message.hashTreeRoot ssz := by
  obtain ⟨-, -, hdata, -⟩ := aggregateGroup_inv hpair
  obtain ⟨-, -, -, -, hroot⟩ := (gathered_of_mem hentry).data _ hdata
  exact hroot.symm.trans (of_decide_eq_true h).1

/-- A group whose signatures aggregate gives a pair of its root, with the proof. -/
theorem Gathered.aggregated {root : Bytes32} {validators : Validators}
    (cached : KeysOf validators.items keys)
    (gathered : Gathered ssz (groupEntry ssz pq keys slot committeeCount subnetId) attestations root
      group) (signers : group.entries ≠ [])
    (aggregates : lib.aggregate (group.sorted.map (·.pubkey)) (group.sorted.map (·.signature))
      root (slot % 2 ^ 32) = .ok proofBytes) (fits : proofBytes.length ≤ proofMaxBytes) :
    ∃ pair, aggregateGroup ssz lib group = some pair ∧ pair.1.data.hashTreeRoot ssz = root ∧
      pair.2.proofData.data = proofBytes := by
  obtain ⟨data, hdata⟩ := Option.ne_none_iff_exists'.mp fun hnone =>
    signers (gathered.filled hnone)
  -- the data of the group passed the same checks, so it is for the slot
  obtain ⟨first, -, hfirst, rfl, hroot⟩ := gathered.data data hdata
  obtain ⟨_, hfirst⟩ := Option.isSome_iff_exists.mp hfirst
  have hslot := (groupEntry_eq_some.mp hfirst).1
  have hbounded : ∀ entry ∈ group.entries, entry.idx < validatorRegistryLimit := by
    intro entry hentry
    have hlt := (List.getElem?_eq_some_iff.mp (gathered.registered cached hentry)).1
    rw [List.length_map] at hlt
    exact hlt.trans_le validators.bounded
  rw [← hroot, ← hslot] at aggregates
  obtain ⟨pair, hpair, hproof⟩ :=
    aggregateGroup_of_aggregate hdata signers hbounded aggregates fits
  have hpairData := (aggregateGroup_inv hpair).choose_spec.2.1
  rw [hdata, Option.some_inj] at hpairData
  exact ⟨pair, hpair, by rw [← hpairData, hroot], hproof⟩

/-- An attestation that is let through is spoken for by the pair of its group, and by no other. -/
theorem filter_represents {validators : Validators} (cached : KeysOf validators.items keys)
    {entry : GroupEntry} (hsigned : signed ∈ attestations)
    (henter : groupEntry ssz pq keys slot committeeCount subnetId signed = some entry)
    (hgroup : groupAt (groupSigned ssz pq keys slot committeeCount subnetId attestations)
      (signed.message.hashTreeRoot ssz) = group)
    (aggregates : lib.aggregate (group.sorted.map (·.pubkey)) (group.sorted.map (·.signature))
      (signed.message.hashTreeRoot ssz) (slot % 2 ^ 32) = .ok proofBytes)
    (fits : proofBytes.length ≤ proofMaxBytes) :
    ∃ pair, (aggregateSignedAttestations ssz pq lib keys slot committeeCount subnetId
        attestations).filter (represents ssz signed) = [pair] ∧
      group.data = some pair.1.data ∧ pair.2.proofData.data = proofBytes := by
  have hgathered : Gathered ssz (groupEntry ssz pq keys slot committeeCount subnetId) attestations
      (signed.message.hashTreeRoot ssz) group := hgroup ▸ gathered_groupSigned attestations _
  have hidx : entry.idx ∈ group.entries.map (·.idx) :=
    hgathered.kept signed hsigned entry henter rfl
  have hsigners : group.entries ≠ [] := by
    intro hnil
    rw [hnil] at hidx
    exact List.not_mem_nil hidx
  obtain ⟨pair, hpair, hroot, hproof⟩ := hgathered.aggregated cached hsigners aggregates fits
  have hdata : group.data = some pair.1.data := (aggregateGroup_inv hpair).choose_spec.2.1
  have hrepresents : represents ssz signed pair := by
    refine decide_eq_true ⟨hroot, ?_⟩
    rw [setBits_aggregateGroup hgathered.distinct hpair,
      (group.perm_sorted.map GroupEntry.idx).mem_iff]
    obtain ⟨-, -, -, material, -, -, rfl⟩ := groupEntry_eq_some.mp henter
    exact hidx
  have hmem := mem_entries_of_data (hgroup ▸ hdata)
  rw [hgroup] at hmem
  refine ⟨pair, ?_, hdata, hproof⟩
  rw [aggregateSignedAttestations, List.filter_filterMap]
  refine filterMap_eq_singleton (AList.nodupKeys _).nodup hmem ?_ ?_
  · rw [hpair]
    exact Option.filter_some_pos hrepresents
  · intro other hother hne
    cases hfound : aggregateGroup ssz lib other.2 with
    | none => rfl
    | some found =>
      refine Option.filter_some_neg (Bool.eq_false_iff.mpr fun h => hne ?_)
      exact (AList.nodupKeys _).eq_of_fst_eq hother hmem (root_of_represents hother hfound h)

/-- Every pair that is emitted names its signers once, in the attestation and in the proof alike. Its
proof is what the library aggregated from the signatures of a group, under the keys that a verifier
gathers from the registry by the pair's bits, in that order. Every attestation for the slot and the
subnet that is signed under its validator's cached key is spoken for by one pair, when its group's
signatures aggregate into a proof of the allowed size, and the pair has that proof; the pair carries
its data, unless another attestation has the same data root. -/
theorem aggregateSignedAttestations_keyed (validators : Validators)
    (cached : KeysOf validators.items keys) (slot committeeCount subnetId : Nat)
    (attestations : List SignedAttestation) :
    (∀ pair ∈ aggregateSignedAttestations ssz pq lib keys slot committeeCount subnetId attestations,
      ∃ entry ∈ (groupSigned ssz pq keys slot committeeCount subnetId attestations).entries,
        aggregateGroup ssz lib entry.2 = some pair ∧
        pair.2.participants = pair.1.aggregationBits ∧
        setBits pair.1.aggregationBits = entry.2.sorted.map (·.idx) ∧
        (entry.2.sorted.map (·.idx)).Nodup ∧
        gatherPubkeys (validators.items.map (·.pubkey)) pair.1.aggregationBits =
          some (entry.2.sorted.map (·.pubkey)) ∧
        lib.aggregate (entry.2.sorted.map (·.pubkey)) (entry.2.sorted.map (·.signature))
          (pair.1.data.hashTreeRoot ssz) (pair.1.data.slot % 2 ^ 32) =
            .ok pair.2.proofData.data) ∧
    ∀ signed ∈ attestations,
      signed.message.slot = slot → committeeCount ≠ 0 →
      signed.validatorId % committeeCount = subnetId →
      ∀ material, keys[signed.validatorId]? = some (some material) →
      verifySignature pq material.pubkey signed.message.slot (signed.message.hashTreeRoot ssz)
        signed.signature = .ok () →
      ∀ group, group = groupAt (groupSigned ssz pq keys slot committeeCount subnetId attestations)
        (signed.message.hashTreeRoot ssz) →
      ∀ proofBytes, lib.aggregate (group.sorted.map (·.pubkey)) (group.sorted.map (·.signature))
        (signed.message.hashTreeRoot ssz) (slot % 2 ^ 32) = .ok proofBytes →
      proofBytes.length ≤ proofMaxBytes →
      ∃ pair,
        (aggregateSignedAttestations ssz pq lib keys slot committeeCount subnetId
          attestations).filter (represents ssz signed) = [pair] ∧
        pair.2.proofData.data = proofBytes ∧
        ((∀ other ∈ attestations,
          other.message.hashTreeRoot ssz = signed.message.hashTreeRoot ssz →
            other.message = signed.message) → pair.1.data = signed.message) := by
  refine ⟨fun pair hpair => ?_, ?_⟩
  · obtain ⟨entry, hentry, hgroup⟩ := List.mem_filterMap.mp hpair
    have hgathered := gathered_of_mem hentry
    have hbits := setBits_aggregateGroup hgathered.distinct hgroup
    obtain ⟨maxIdx, hmax, -, hof, hsame, hproof⟩ := aggregateGroup_inv hgroup
    refine ⟨entry, hentry, hgroup, hsame, hbits, ?_, ?_, hproof⟩
    · exact (Group.pairwise_sorted hgathered.distinct).imp Nat.ne_of_lt
    · rw [hof]
      exact gatherPubkeys_sorted hgathered.distinct
        (fun _ hentry => hgathered.registered cached hentry) (List.max?_eq_some_iff.mp hmax).2
  · rintro signed hsigned hslot hcount hsubnet material hkey hverify group rfl proofBytes hproof hfits
    have henter := groupEntry_eq_some.mpr ⟨hslot, hcount, hsubnet, material, hkey, hverify, rfl⟩
    obtain ⟨pair, hpair, hdata, hbytes⟩ :=
      filter_represents cached hsigned henter rfl hproof hfits
    refine ⟨pair, hpair, hbytes, fun alone => ?_⟩
    obtain ⟨other, hother, -, hmessage, hroot⟩ :=
      (gathered_groupSigned attestations _).data _ hdata
    rw [← hmessage] at hroot
    exact hmessage.symm.trans (alone other hother hroot)

end Groups

/-- A validator's vote for `signedData`, under its key of `threeValidators`. -/
def voteOf (i : Nat) : SignedAttestation where
  validatorId := i
  message := signedData
  signature := idealSignature (BitVec.ofNat 416 (i + 1)) 1 (signedData.hashTreeRoot sampleSsz)

/-- Validators 2 and 0 are of the subnet, and 2 comes twice; 1 is of the other subnet. -/
def arrivedVotes : List SignedAttestation := [voteOf 2, voteOf 0, voteOf 2, voteOf 1]

private theorem keysOf_sampleNode : KeysOf threeValidators.items sampleNode.keys := by
  intro i material h
  have hi : i < 3 := (List.getElem?_eq_some_iff.mp h).1
  interval_cases i <;> cases h <;> rfl

/-- A library whose proof is the last byte of each key it was given. -/
def keyedLeanSig : LeanSig Nat :=
  { sampleLeanSig with aggregate := fun publicKeys _ _ _ => .ok (publicKeys.map (·.truncate 8)) }

/-- The votes of 0 and 2 are aggregated under their keys, in the order of the bits. -/
theorem aggregateSignedAttestations_keyed_arrived :
    KeysOf threeValidators.items sampleNode.keys ∧
      (aggregateSignedAttestations sampleSsz idealPq keyedLeanSig sampleNode.keys 1 2 0
        arrivedVotes).map (setBits ·.1.aggregationBits) = [[0, 2]] ∧
      ∃ pair, (aggregateSignedAttestations sampleSsz idealPq keyedLeanSig sampleNode.keys 1 2 0
          arrivedVotes).filter (represents sampleSsz (voteOf 2)) = [pair] ∧
        pair.2.proofData.data = [1#8, 3#8] ∧ pair.1.data = signedData := by
  refine ⟨keysOf_sampleNode, by decide +kernel, ?_⟩
  have hkeyed := @aggregateSignedAttestations_keyed Nat sampleSsz idealPq keyedLeanSig
    sampleNode.keys threeValidators keysOf_sampleNode 1 2 0 arrivedVotes
  obtain ⟨pair, hpair, hproof, hdata⟩ := hkeyed.2 (voteOf 2) List.mem_cons_self rfl (by decide) rfl
    ⟨3#416, 2⟩ rfl (by decide +kernel) _ rfl [1#8, 3#8] (by decide +kernel) (by decide)
  refine ⟨pair, hpair, hproof, hdata ?_⟩
  intro other hother _
  simp only [arrivedVotes, List.mem_cons, List.not_mem_nil, or_false] at hother
  rcases hother with rfl | rfl | rfl | rfl <;> rfl

end Peam
