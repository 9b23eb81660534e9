import Peam.Laws.Votes
import Peam.Sample

/-!
# Unpacking inverts packing

`Laws.Votes` says that neither direction of the codec invents a vote. Here the two meet: the packed
fields hold bit `i` of root `k` at flat index `k * n + i` whatever `n % 8` is, unpacking them gives
back every tally, and two maps with the same contents are packed alike, since the roots are sorted.

The fields have two limits. The bitmap's is checked and reported; the one on the number of roots is
the list's own, and a map that breaks it panics in the `expect`.
-/

namespace Peam

open Packed
open Calls (Outcome Mutation)

variable {flat : List Byte} {roots : List Bytes32} {state : State} {root : Bytes32}

/-- Two maps with the same contents, whatever the order of their entries. -/
def SameContents {β : Type} (map other : RapidHashMap β) : Prop :=
  ∀ root, map.lookup root = other.lookup root

namespace SameContents

variable {β : Type} {map other : RapidHashMap β}

section

variable (same : SameContents map other)

include same

private theorem mem_iff (root : Bytes32) : root ∈ map ↔ root ∈ other := by
  rw [← AList.lookup_isSome, ← AList.lookup_isSome, same root]

/-- The keys are the same up to their order. -/
theorem keys_perm : map.keys.Perm other.keys := by
  rw [List.perm_ext_iff_of_nodup map.keys_nodup other.keys_nodup]
  intro root
  rw [← AList.mem_keys, ← AList.mem_keys]
  exact same.mem_iff root

theorem insert (root : Bytes32) (value : β) :
    SameContents (map.insert root value) (other.insert root value) := by
  intro key
  rw [lookup_insert_eq, lookup_insert_eq, same key]

theorem erase (root : Bytes32) :
    SameContents (map.erase root) (other.erase root) := by
  intro key
  by_cases heq : key = root
  · subst heq
    rw [AList.lookup_erase, AList.lookup_erase]
  · rw [AList.lookup_erase_ne heq, AList.lookup_erase_ne heq, same key]

theorem retain (keep : Bytes32 → Bool) :
    SameContents (map.retain keep) (other.retain keep) := by
  intro key
  rw [RapidHashMap.lookup_retain, RapidHashMap.lookup_retain, same key]

end

end SameContents

/-! ## Packing reads the contents only -/

section Encode

variable {n : Nat} {votes other : RapidHashMap (Tally n)}

private theorem sortedRoots_congr (same : SameContents votes other) :
    sortedRoots votes = sortedRoots other := by
  have hperm : (sortedRoots votes).Perm (sortedRoots other) :=
    (List.perm_insertionSort _ _).trans
      (same.keys_perm.trans (List.perm_insertionSort _ _).symm)
  exact List.Perm.eq_of_pairwise (fun _ _ _ _ => BitVec.le_antisymm)
    (List.pairwise_insertionSort _ _) (List.pairwise_insertionSort _ _) hperm

private theorem encodeRoots_congr (same : SameContents votes other) (idx : Nat)
    (roots : List Bytes32)
    (flat : List Byte) : encodeRoots votes idx roots flat = encodeRoots other idx roots flat := by
  induction roots generalizing idx flat with
  | nil => rfl
  | cons root rest ih => rw [encodeRoots, encodeRoots, same root, ih]

/-- **Packing depends on the contents of the map and not on its order.** -/
theorem encodeJustificationVotes_congr (ssz : Ssz) (same : SameContents votes other) :
    encodeJustificationVotes ssz votes = encodeJustificationVotes ssz other := by
  unfold encodeJustificationVotes
  rw [sortedRoots_congr same]
  simp only [encodeRoots_congr same]

end Encode

/-! ## The layout -/

/-- The packed fields of a map: its roots without repetition, and bit `i` of the `k`-th at flat
index `k * n + i` of a bitmap that declares those bits and no others. -/
structure Layout {n : Nat} (votes : RapidHashMap (Tally n)) (state : State) : Prop where
  roots : state.justificationsRoots.items.Perm votes.keys
  len : state.justificationsValidators.len = votes.keys.length * n
  length_data : state.justificationsValidators.data.length = (votes.keys.length * n + 7) / 8
  bit : ∀ {k root tally}, state.justificationsRoots.items[k]? = some root →
    votes.lookup root = some tally → ∀ i < n,
      bitAt state.justificationsValidators.data (k * n + i) = bitAt tally.bits i

section Packed

variable {n : Nat}

private theorem length_encodeRootVotes {rootIdx : Nat} (tally : Tally n)
    (hfits : rootIdx * n + n ≤ 8 * flat.length) :
    (encodeRootVotes flat rootIdx tally).length = flat.length := by
  unfold encodeRootVotes
  split
  · rename_i aligned
    have hbytes : 8 * ((n + 7) / 8) = n := by omega
    have hbase : 8 * (rootIdx * ((n + 7) / 8)) = rootIdx * n := by
      rw [Nat.mul_left_comm, hbytes]
    simp only [List.length_append, List.length_take, List.length_drop, tally.length_bits]
    omega
  · suffices h : ∀ m, ((List.range m).foldl (fun flat validatorId =>
        if bitIsSet tally.bits n validatorId then setBit flat (rootIdx * n + validatorId)
        else flat) flat).length = flat.length from h n
    intro m
    induction m with
    | zero => rfl
    | succ m ih =>
      simp only [List.range_succ, List.foldl_append, List.foldl_cons, List.foldl_nil]
      split
      · rw [length_setBit, ih]
      · exact ih

private theorem length_encodeRoots {votes : RapidHashMap (Tally n)} {idx : Nat}
    (hfits : (idx + roots.length) * n ≤ 8 * flat.length) :
    (encodeRoots votes idx roots flat).length = flat.length := by
  induction roots generalizing idx flat with
  | nil => rfl
  | cons root rest ih =>
    rw [List.length_cons] at hfits
    have hrest : (idx + 1 + rest.length) * n ≤ 8 * flat.length := by
      rwa [Nat.add_assoc, Nat.add_comm 1 rest.length]
    have hone : idx * n + n ≤ 8 * flat.length := by
      have : (idx + 1) * n ≤ (idx + 1 + rest.length) * n := Nat.mul_le_mul_right n (by omega)
      rw [Nat.succ_mul] at this
      omega
    rw [encodeRoots]
    cases votes.lookup root with
    | none => exact ih hrest
    | some tally =>
      have hlen := length_encodeRootVotes tally hone
      rw [ih (by rwa [hlen]), hlen]

/-- **Packing writes the layout**, on the byte-aligned path and on the per-bit path. -/
theorem layout_of_encode {ssz : Ssz} {votes : RapidHashMap (Tally n)} {state' : State}
    (h : encodeJustificationVotes ssz votes state = .ok () state') : Layout votes state' := by
  obtain ⟨list, hlist, rfl⟩ := encodeJustificationVotes_ok h
  have hcount := length_sortedRoots votes
  have hfits : (0 + (sortedRoots votes).length) * n ≤
      8 * (List.replicate (((sortedRoots votes).length * n + 7) / 8) 0#8).length := by
    rw [List.length_replicate, Nat.zero_add]
    omega
  refine ⟨?_, ?_, ?_, ?_⟩
  · simp only [hlist]
    exact List.perm_insertionSort _ _
  · simp only [hcount]
  · dsimp only
    rw [length_encodeRoots hfits, List.length_replicate, hcount]
  · intro k root tally hk hl i hi
    simp only [hlist] at hk
    dsimp only
    rw [Bool.eq_iff_iff, encodeRoots_spec hfits (fun j _ => bitAt_replicate_zero _ j)]
    constructor
    · rintro (hzero | ⟨k', root', tally', i', hk', hl', hi', hpos⟩)
      · simp at hzero
      · rw [Nat.zero_add] at hpos
        obtain ⟨rfl, rfl⟩ := flatIndex_inj hi (Tally.lt_of_mem_voters hi') hpos
        rw [hk] at hk'
        cases hk'
        rw [hl] at hl'
        cases hl'
        exact Tally.mem_voters.mp hi'
    · intro hbit
      refine .inr ⟨k, root, tally, i, hk, hl, Tally.mem_voters.mpr hbit, ?_⟩
      rw [Nat.zero_add]

end Packed

/-! ## Unpacking -/

section Decode

variable {n : Nat}

private theorem lookup_decodeRoots_eq {limit : Nat} {flat : BitList limit} (distinct : roots.Nodup)
    {idx k : Nat} {out : RapidHashMap (Tally n)} (hk : roots[k]? = some root) :
    (decodeRoots flat n idx roots out).lookup root = some (Tally.decode flat n (idx + k)) := by
  have hmem : root ∈ decodeRoots flat n idx roots out :=
    mem_decodeRoots.mpr (.inl (List.mem_of_getElem? hk))
  obtain ⟨tally, htally⟩ := Option.isSome_iff_exists.mp (AList.lookup_isSome.mpr hmem)
  suffices h : tally = Tally.decode flat n (idx + k) by rw [htally, h]
  clear hmem
  induction roots generalizing idx k out with
  | nil => simp at hk
  | cons head rest ih =>
    rw [List.nodup_cons] at distinct
    rw [decodeRoots] at htally
    cases k with
    | zero =>
      cases hk
      rcases lookup_decodeRoots htally with ⟨k', hk', -⟩ | hout
      · exact absurd (List.mem_of_getElem? hk') distinct.1
      · rw [AList.lookup_insert] at hout
        exact (Option.some.inj hout).symm
    | succ k =>
      rw [ih distinct.2 hk htally, Nat.add_assoc, Nat.add_comm 1 k]

private theorem decode_eq_of_layout {votes : RapidHashMap (Tally n)} (layout : Layout votes state)
    {k : Nat} {tally : Tally n} (hk : state.justificationsRoots.items[k]? = some root)
    (hl : votes.lookup root = some tally) :
    Tally.decode state.justificationsValidators n k = tally := by
  have hlt : k < votes.keys.length := by
    rw [← layout.roots.length_eq]
    exact (List.getElem?_eq_some_iff.mp hk).1
  have hblock : k * n + n ≤ votes.keys.length * n := by
    have := Nat.mul_le_mul_right n (Nat.succ_le_of_lt hlt)
    rwa [Nat.succ_mul] at this
  apply Tally.ext_voters
  ext i
  rw [Tally.mem_voters, Tally.mem_voters, Tally.decode,
    bitAt_decodeRootVotes (by rw [layout.len]; exact hblock)
      (by rw [layout.len, layout.length_data]; omega)]
  by_cases hi : i < n
  · rw [layout.bit hk hl i hi]
    simp [hi]
  · simp only [hi, decide_false, Bool.false_and, Bool.false_eq_true, false_iff]
    exact fun hbit => hi (tally.in_registry i hbit)

/-- **Unpacking the layout of a map gives the map back.** -/
theorem sameContents_of_layout (hn : 1 ≤ n) {votes : RapidHashMap (Tally n)}
    (layout : Layout votes state) : SameContents (decodeJustificationVotes state n) votes := by
  have distinct : state.justificationsRoots.items.Nodup :=
    layout.roots.nodup_iff.mpr votes.keys_nodup
  intro root
  by_cases hmem : root ∈ votes
  · have hitems : root ∈ state.justificationsRoots.items :=
      layout.roots.mem_iff.mpr (AList.mem_keys.mp hmem)
    obtain ⟨k, hk⟩ := List.mem_iff_getElem?.mp hitems
    obtain ⟨tally, hl⟩ := Option.isSome_iff_exists.mp (AList.lookup_isSome.mpr hmem)
    have hne : ¬ (n = 0 ∨ state.justificationsRoots.items = []) := by
      rintro (h | h)
      · omega
      · rw [h] at hitems
        cases hitems
    rw [decodeJustificationVotes, if_neg hne, lookup_decodeRoots_eq distinct hk, Nat.zero_add,
      decode_eq_of_layout layout hk hl, hl]
  · have hnone : root ∉ decodeJustificationVotes state n := fun h =>
      hmem (AList.mem_keys.mpr (layout.roots.mem_iff.mp (of_mem_decodeJustificationVotes h)))
    rw [AList.lookup_eq_none.mpr hmem, AList.lookup_eq_none.mpr hnone]

end Decode

/-- **The vote codec.** A map that keeps to the two limits is packed, in the one layout for every
registry size; unpacking gives it back with its bits and counts; and any map with the same contents
is packed into the same fields. -/
theorem voteCodec_roundTrip (ssz : Ssz) {n : Nat} (hn : 1 ≤ n) (votes : RapidHashMap (Tally n))
    (hroots : votes.keys.length ≤ historicalRootsLimit)
    (hlimit : votes.keys.length * n ≤ justificationValidatorsLimit) (state : State) :
    ∃ packed, encodeJustificationVotes ssz votes state = .ok () packed ∧
      SameContents (decodeJustificationVotes packed n) votes ∧ Layout votes packed ∧
      ∀ other : RapidHashMap (Tally n), SameContents other votes →
        encodeJustificationVotes ssz other state = .ok () packed := by
  obtain ⟨packed, hpacked⟩ := encodeJustificationVotes_within ssz hroots hlimit state
  have layout := layout_of_encode hpacked
  refine ⟨packed, hpacked, sameContents_of_layout hn layout, layout, fun other same => ?_⟩
  rw [encodeJustificationVotes_congr ssz same]
  exact hpacked

/-- Two roots of a registry of three, entered in descending order. -/
def twoRoots : RapidHashMap (Tally 3) :=
  (∅ : RapidHashMap (Tally 3)).insert 5#256 ((Tally.new 3).merge (voters 3 0b011#8))
    |>.insert 2#256 ((Tally.new 3).merge (voters 3 0b110#8))

/-- The law at two roots. -/
theorem voteCodec_roundTrip_twoRoots :
    ∃ packed, encodeJustificationVotes sampleSsz twoRoots
        (generateGenesis sampleSsz 0 threeValidators) = .ok () packed ∧
      SameContents (decodeJustificationVotes packed 3) twoRoots ∧ Layout twoRoots packed ∧
      ∀ other : RapidHashMap (Tally 3), SameContents other twoRoots →
        encodeJustificationVotes sampleSsz other (generateGenesis sampleSsz 0 threeValidators) =
          .ok () packed :=
  voteCodec_roundTrip sampleSsz (by decide) twoRoots (by decide) (by decide)
    (generateGenesis sampleSsz 0 threeValidators)

/-- More roots than the list takes, within the limit of the bitmap: the `expect` panics. -/
theorem encodeJustificationVotes_crowded (ssz : Ssz) {n : Nat} {votes : RapidHashMap (Tally n)}
    (hroots : historicalRootsLimit < votes.keys.length)
    (hflat : votes.keys.length * n ≤ justificationValidatorsLimit) (state : State) :
    encodeJustificationVotes ssz votes state = .error (.panicked "justifications roots") state := by
  rw [← length_sortedRoots] at hroots hflat
  have hlimit : justificationValidatorsLimit < 2 ^ 64 := by decide
  have hnew : LimitedList.new ssz historicalRootsLimit (sortedRoots votes) =
      .error (.err (ssz.limitError historicalRootsLimit)) := dif_neg (Nat.not_le.mpr hroots)
  have hpass : ∀ {cond : Prop} [Decidable cond] {text : String}, ¬ cond →
      Outcome.failIf cond text = .ok () := fun hno => Outcome.failIf_ok.mpr hno
  unfold encodeJustificationVotes Mutation.failIf
  rw [hpass (by omega), hpass (by omega), hnew]
  rfl

/-- One root more than the list takes, for a registry of one. -/
def crowdedRoots : List Bytes32 := (List.range (historicalRootsLimit + 1)).map (BitVec.ofNat 256)

private theorem length_crowdedRoots : crowdedRoots.length = historicalRootsLimit + 1 := by
  rw [crowdedRoots, List.length_map, List.length_range]

private theorem nodup_crowdedRoots : crowdedRoots.Nodup := by
  refine List.Nodup.map_on (fun a ha b hb heq => ?_) List.nodup_range
  have hlarge : historicalRootsLimit + 1 < 2 ^ 256 := by decide
  rw [List.mem_range] at ha hb
  have hnat := congrArg BitVec.toNat heq
  rwa [BitVec.toNat_ofNat, BitVec.toNat_ofNat, Nat.mod_eq_of_lt (by omega),
    Nat.mod_eq_of_lt (by omega)] at hnat

/-- One empty tally a root. -/
def emptyTallies (roots : List Bytes32) (distinct : roots.Nodup) : RapidHashMap (Tally 1) where
  entries := roots.map fun root => ⟨root, Tally.new 1⟩
  nodupKeys := by
    rw [List.NodupKeys, List.keys, List.map_map]
    exact (List.map_id roots).symm ▸ distinct

private theorem length_keys_emptyTallies (roots : List Bytes32) (distinct : roots.Nodup) :
    (emptyTallies roots distinct).keys.length = roots.length := by
  rw [AList.keys, List.keys, emptyTallies, List.length_map, List.length_map]

def crowdedVotes : RapidHashMap (Tally 1) := emptyTallies crowdedRoots nodup_crowdedRoots

private theorem length_keys_crowdedVotes : crowdedVotes.keys.length = historicalRootsLimit + 1 := by
  rw [crowdedVotes, length_keys_emptyTallies, length_crowdedRoots]

/-- **A map within the bitmap's limit that cannot be packed.** -/
theorem crowdedVotes_panics :
    crowdedVotes.keys.length * 1 ≤ justificationValidatorsLimit ∧
      encodeJustificationVotes sampleSsz crowdedVotes
          (generateGenesis sampleSsz 0 threeValidators) =
        .error (.panicked "justifications roots") (generateGenesis sampleSsz 0 threeValidators) := by
  have hflat : crowdedVotes.keys.length * 1 ≤ justificationValidatorsLimit := by
    rw [length_keys_crowdedVotes]
    decide
  refine ⟨hflat, encodeJustificationVotes_crowded sampleSsz ?_ hflat _⟩
  rw [length_keys_crowdedVotes]
  exact Nat.lt_succ_self _

end Peam
