import Mathlib.Data.List.AList
import Mathlib.Data.List.Sort
import Peam.Containers

/-!
# The justification tally

Pending votes of a chain: for each target root one bit a validator and a running count. Between
blocks the state has them as one bitmap (`justifications_validators`), root after root in sorted
order; a block with an eligible vote unpacks them into a map and packs them again.

`JustificationVotes` is the pair the source keeps, and the functions on it follow the source byte by
byte. `Tally n` adds what those bytes mean: they span a registry of `n` validators, no bit lies
outside it, and the count is the number of set bits. Every operation on tallies is the raw one with
a proof that it keeps these three facts.
-/

namespace Peam

open Packed
open Calls (Mutation)

/-- A `RapidHashMap` keyed by roots. Its iteration order is never observed. -/
abbrev RapidHashMap (β : Type) := AList (fun _ : Bytes32 => β)

section Tables

variable {κ β : Type} [DecidableEq κ] {table : AList fun _ : κ => β} {key other : κ} {value : β}

/-- A read after a write. -/
theorem lookup_insert_eq :
    (table.insert key value).lookup other =
      if other = key then some value else table.lookup other := by
  split
  · next h => rw [h, AList.lookup_insert]
  · next h => exact AList.lookup_insert_ne h

theorem lookup_insert_some {v : β} : (table.insert key value).lookup other = some v ↔
    other = key ∧ value = v ∨ other ≠ key ∧ table.lookup other = some v := by
  rw [lookup_insert_eq]
  split <;> simp_all

end Tables

/-- `retain`: keep the entries whose key passes. -/
def RapidHashMap.retain {β : Type} (map : RapidHashMap β) (keep : Bytes32 → Bool) :
    RapidHashMap β :=
  ⟨map.entries.filter (fun entry => keep entry.1),
    map.nodupKeys.sublist List.filter_sublist⟩

variable {β : Type} {votes : JustificationVotes} {limit : Nat}

theorem RapidHashMap.lookup_retain (map : RapidHashMap β) (keep : Bytes32 → Bool) (root : Bytes32) :
    (map.retain keep).lookup root = if keep root then map.lookup root else none := by
  apply Option.ext
  intro value
  have hmem : value ∈ (map.retain keep).lookup root ↔
      (⟨root, value⟩ : Sigma fun _ : Bytes32 => β) ∈ map.entries ∧ keep root = true := by
    rw [AList.mem_lookup_iff]
    simp [RapidHashMap.retain, List.mem_filter]
  rw [← Option.mem_def, hmem, ← AList.mem_lookup_iff]
  split <;> simp_all

theorem RapidHashMap.of_lookup_retain {map : RapidHashMap β} {keep : Bytes32 → Bool}
    {root : Bytes32} {value : β} (h : (map.retain keep).lookup root = some value) :
    keep root = true ∧ map.lookup root = some value := by
  rw [RapidHashMap.lookup_retain] at h
  by_cases hkeep : keep root = true
  · rw [if_pos hkeep] at h
    exact ⟨hkeep, h⟩
  · rw [if_neg hkeep] at h
    cases h

theorem RapidHashMap.mem_of_mem_retain {map : RapidHashMap β} {keep : Bytes32 → Bool}
    {root : Bytes32} (h : root ∈ map.retain keep) : root ∈ map := by
  obtain ⟨value, hvalue⟩ := Option.isSome_iff_exists.mp (AList.lookup_isSome.mpr h)
  exact AList.lookup_isSome.mp (Option.isSome_iff_exists.mpr
    ⟨value, (RapidHashMap.of_lookup_retain hvalue).2⟩)

/-! ## One root's votes -/

/-- `JustificationVotes`: one bit a validator, and how many are set. -/
structure JustificationVotes where
  bits : List Byte
  count : Nat
  deriving DecidableEq

/-- `JustificationVotes::new`. -/
def JustificationVotes.new (validatorCount : Nat) : JustificationVotes :=
  ⟨List.replicate ((validatorCount + 7) / 8) 0#8, 0⟩

/-- Join the bits of one incoming byte that are not set yet, and count them. -/
def mergeByte (votes : JustificationVotes) (byteIdx : Nat) (incoming : Byte) :
    JustificationVotes :=
  let newBits := incoming &&& ~~~(votes.bits.getD byteIdx 0#8)
  { bits := votes.bits.set byteIdx (votes.bits.getD byteIdx 0#8 ||| newBits)
    count := votes.count + countOnes newBits }

/-- `merge_participant_votes_from_bits`: whole bytes first, then the masked rest. -/
def mergeParticipantVotesFromBits {limit : Nat} (votes : JustificationVotes)
    (participants : BitList limit) (validatorCount : Nat) : JustificationVotes :=
  let maxBits := min participants.len validatorCount
  let fullBytes := maxBits / 8
  let merged := (List.range fullBytes).foldl
    (fun votes byteIdx => mergeByte votes byteIdx (participants.data.getD byteIdx 0#8)) votes
  let remainder := maxBits % 8
  if remainder = 0 then merged
  else
    let mask := (1#8 <<< remainder) - 1#8
    mergeByte merged fullBytes (participants.data.getD fullBytes 0#8 &&& mask)

/-- `bit_is_set`. -/
def bitIsSet (data : List Byte) (lenBits index : Nat) : Bool :=
  if index ≥ lenBits then false
  else if index / 8 ≥ data.length then false
  else (data.getD (index / 8) 0#8).getLsbD (index % 8)

theorem bitIsSet_eq (data : List Byte) (lenBits index : Nat) :
    bitIsSet data lenBits index = (decide (index < lenBits) && bitAt data index) := by
  unfold bitIsSet
  split
  · rename_i hlen
    simp [Nat.not_lt.mpr hlen]
  · rename_i hlen
    split
    · rename_i hdata
      rw [bitAt_of_length_le (by omega), Bool.and_false]
    · simp [bitAt, Nat.lt_of_not_ge hlen]

/-- The votes of the root at position `rootIdx` of the flat bitmap. A registry that fills whole
bytes is copied; otherwise every bit is read on its own. -/
def decodeRootVotes {limit : Nat} (flat : BitList limit) (validatorCount rootIdx : Nat) :
    JustificationVotes :=
  let byteCount := (validatorCount + 7) / 8
  if validatorCount % 8 = 0 then
    let baseByte := rootIdx * byteCount
    let endByte := baseByte + byteCount
    if endByte ≤ flat.data.length then
      let bits := (flat.data.take endByte).drop baseByte
      ⟨bits, popCount bits⟩
    else JustificationVotes.new validatorCount
  else
    let base := rootIdx * validatorCount
    (List.range validatorCount).foldl
      (fun votes validatorId =>
        if bitIsSet flat.data flat.len (base + validatorId) then
          ⟨setBit votes.bits validatorId, votes.count + 1⟩
        else votes)
      (JustificationVotes.new validatorCount)

/-! ## What the raw operations do to bits and count -/

@[simp] theorem length_mergeByte (votes : JustificationVotes) (k : Nat) (incoming : Byte) :
    (mergeByte votes k incoming).bits.length = votes.bits.length := by
  simp [mergeByte]

private theorem bitAt_mergeByte {k : Nat} (hk : k < votes.bits.length) (incoming : Byte) (i : Nat) :
    bitAt (mergeByte votes k incoming).bits i =
      (bitAt votes.bits i || (decide (i / 8 = k) && incoming.getLsbD (i % 8))) := by
  simp only [mergeByte, bitAt_set]
  by_cases hi : i / 8 = k
  · subst hi
    have hlt : i % 8 < 8 := Nat.mod_lt i (by decide)
    simp only [hk, and_self, if_true, decide_true, Bool.true_and, bitAt,
      BitVec.getLsbD_or, BitVec.getLsbD_and, BitVec.getLsbD_not, hlt]
    cases (votes.bits.getD (i / 8) 0#8).getLsbD (i % 8) <;> simp
  · simp [hi]

/-- The incremental count stays the number of set bits. -/
theorem count_mergeByte {k : Nat} (hk : k < votes.bits.length) (incoming : Byte)
    (hcount : votes.count = popCount votes.bits) :
    (mergeByte votes k incoming).count = popCount (mergeByte votes k incoming).bits := by
  have hfresh : ∀ i, (votes.bits.getD k 0#8).getLsbD i = true →
      (incoming &&& ~~~(votes.bits.getD k 0#8)).getLsbD i = false := by
    intro i hi
    simp only [BitVec.getLsbD_and, BitVec.getLsbD_not, hi, Bool.not_true, Bool.and_false]
  simp only [mergeByte]
  rw [popCount_set_or hk hfresh, hcount]

/-- The whole-byte loop of the merge, up to byte `full`. -/
private theorem mergeBytes_spec (votes : JustificationVotes) (data : List Byte)
    (hcount : votes.count = popCount votes.bits) {full : Nat}
    (hfull : full ≤ votes.bits.length) :
    let merged := (List.range full).foldl (fun v k => mergeByte v k (data.getD k 0#8)) votes
    merged.bits.length = votes.bits.length ∧ merged.count = popCount merged.bits ∧
      ∀ i, bitAt merged.bits i = (bitAt votes.bits i || (decide (i < 8 * full) && bitAt data i)) := by
  induction full with
  | zero => simp [hcount]
  | succ full ih =>
    obtain ⟨hlen, hcnt, hbits⟩ := ih (by omega)
    simp only [List.range_succ, List.foldl_append, List.foldl_cons, List.foldl_nil]
    have hk : full < ((List.range full).foldl
        (fun v k => mergeByte v k (data.getD k 0#8)) votes).bits.length := by omega
    refine ⟨by rw [length_mergeByte, hlen], count_mergeByte hk _ hcnt, fun i => ?_⟩
    rw [bitAt_mergeByte hk, hbits i]
    -- byte `full` contributes exactly the bits between `8 * full` and `8 * full + 8`
    by_cases hi : i / 8 = full
    · have hlo : ¬ i < 8 * full := by omega
      have hhi : i < 8 * (full + 1) := by omega
      simp [hi, hlo, hhi, bitAt]
    · have hiff : i < 8 * (full + 1) ↔ i < 8 * full := by omega
      simp [hi, hiff]

private theorem getLsbD_mask {r j : Nat} (hr : r < 8) (hj : j < 8) :
    ((1#8 <<< r) - 1#8).getLsbD j = decide (j < r) := by
  interval_cases r <;> interval_cases j <;> rfl

/-- **A merge is a union**: it adds exactly the set bits of the participants that lie below both
their declared length and the registry, and keeps the count right. -/
theorem merge_spec {n : Nat} (participants : BitList limit)
    (hlen : votes.bits.length = (n + 7) / 8) (hcount : votes.count = popCount votes.bits) :
    let merged := mergeParticipantVotesFromBits votes participants n
    merged.bits.length = (n + 7) / 8 ∧ merged.count = popCount merged.bits ∧
      ∀ i, bitAt merged.bits i = (bitAt votes.bits i || (decide (i < n) && participants.get i)) := by
  have hmax : min participants.len n ≤ n := Nat.min_le_right _ _
  have hfull : min participants.len n / 8 ≤ votes.bits.length := by omega
  obtain ⟨hlen', hcnt', hbits'⟩ := mergeBytes_spec votes participants.data hcount hfull
  have hiff : ∀ i, (decide (i < n) && participants.get i) =
      (decide (i < min participants.len n) && bitAt participants.data i) := by
    intro i
    by_cases h1 : i < n <;> by_cases h2 : i < participants.len <;> simp [BitList.get, h1, h2]
  simp only [mergeParticipantVotesFromBits]
  split
  · rename_i hrem
    refine ⟨by omega, hcnt', fun i => ?_⟩
    have : i < 8 * (min participants.len n / 8) ↔ i < min participants.len n := by omega
    rw [hbits' i, hiff i, decide_eq_decide.mpr this]
  · rename_i hrem
    have hk : min participants.len n / 8 < ((List.range (min participants.len n / 8)).foldl
        (fun v k => mergeByte v k (participants.data.getD k 0#8)) votes).bits.length := by omega
    refine ⟨by rw [length_mergeByte]; omega, count_mergeByte hk _ hcnt', fun i => ?_⟩
    rw [bitAt_mergeByte hk, hbits' i, hiff i, BitVec.getLsbD_and,
      getLsbD_mask (Nat.mod_lt _ (by decide)) (Nat.mod_lt _ (by decide))]
    by_cases hi : i / 8 = min participants.len n / 8
    · have hlo : ¬ i < 8 * (min participants.len n / 8) := by omega
      have hmask : i % 8 < min participants.len n % 8 ↔ i < min participants.len n := by omega
      simp only [hi, hlo, decide_false, Bool.false_and, Bool.or_false, decide_true,
        Bool.true_and, decide_eq_decide.mpr hmask]
      simp only [bitAt, hi, Bool.and_comm]
    · have hlow : i < 8 * (min participants.len n / 8) ↔ i < min participants.len n := by omega
      simp [hi, decide_eq_decide.mpr hlow]

/-- The per-bit loop of the decoder, up to validator `m`. -/
private theorem decodeBits_spec (flat : BitList limit) (base : Nat) {n m : Nat} (hm : m ≤ n) :
    let read := (List.range m).foldl
      (fun votes validatorId =>
        if bitIsSet flat.data flat.len (base + validatorId) then
          (⟨setBit votes.bits validatorId, votes.count + 1⟩ : JustificationVotes)
        else votes)
      (JustificationVotes.new n)
    read.bits.length = (n + 7) / 8 ∧ read.count = popCount read.bits ∧
      ∀ i, bitAt read.bits i = (decide (i < m) && flat.get (base + i)) := by
  induction m with
  | zero => simp [JustificationVotes.new]
  | succ m ih =>
    obtain ⟨hlen, hcnt, hbits⟩ := ih (by omega)
    simp only [List.range_succ, List.foldl_append, List.foldl_cons, List.foldl_nil]
    have hget : bitIsSet flat.data flat.len (base + m) = flat.get (base + m) := bitIsSet_eq _ _ _
    split
    · rename_i hset
      rw [hget] at hset
      have hclear := hbits m
      simp only [Nat.lt_irrefl, decide_false, Bool.false_and] at hclear
      refine ⟨by rw [length_setBit, hlen], ?_, fun i => ?_⟩
      · rw [popCount_setBit (by omega) hclear, hcnt]
      · rw [bitAt_setBit, hbits i]
        rcases Nat.lt_trichotomy i m with hlt | rfl | hgt
        · simp [hlt, Nat.lt_succ_of_lt hlt, Nat.ne_of_gt hlt]
        · have hbound : i / 8 < (n + 7) / 8 := by omega
          simp [hset, hlen, hbound]
        · simp [Nat.not_lt.mpr (Nat.le_of_lt hgt), Nat.not_lt.mpr hgt, Nat.ne_of_lt hgt]
    · rename_i hclear
      rw [hget, Bool.not_eq_true] at hclear
      refine ⟨hlen, hcnt, fun i => ?_⟩
      rw [hbits i]
      rcases Nat.lt_trichotomy i m with hlt | rfl | hgt
      · simp [hlt, Nat.lt_succ_of_lt hlt]
      · simp [hclear]
      · simp [Nat.not_lt.mpr (Nat.le_of_lt hgt), Nat.not_lt.mpr hgt]

/-- The byte-aligned copy of the decoder. -/
private theorem decodeBytes_spec (flat : BitList limit) (rootIdx : Nat) {n : Nat}
    (aligned : n % 8 = 0) (hend : rootIdx * ((n + 7) / 8) + (n + 7) / 8 ≤ flat.data.length) :
    let bits := (flat.data.take (rootIdx * ((n + 7) / 8) + (n + 7) / 8)).drop
      (rootIdx * ((n + 7) / 8))
    bits.length = (n + 7) / 8 ∧
      ∀ i, bitAt bits i = (decide (i < n) && bitAt flat.data (rootIdx * n + i)) := by
  have hbytes : 8 * ((n + 7) / 8) = n := by omega
  have hbase : 8 * (rootIdx * ((n + 7) / 8)) = rootIdx * n := by
    rw [Nat.mul_left_comm, hbytes]
  refine ⟨?_, fun i => ?_⟩
  · simp only [List.length_drop, List.length_take]
    omega
  · have hiff : rootIdx * n + i < rootIdx * n + n ↔ i < n := by omega
    rw [bitAt_drop, bitAt_take, Nat.mul_add, hbase, hbytes, decide_eq_decide.mpr hiff]

/-- **Decoding never invents a vote**: whatever the flat bitmap holds, the decoded votes span the
registry, their count is right, and a set bit is a set bit of the flat data. -/
theorem decodeRootVotes_spec (flat : BitList limit) (n rootIdx : Nat) :
    let read := decodeRootVotes flat n rootIdx
    read.bits.length = (n + 7) / 8 ∧ read.count = popCount read.bits ∧
      ∀ i, bitAt read.bits i = true → i < n ∧ bitAt flat.data (rootIdx * n + i) = true := by
  simp only [decodeRootVotes]
  split
  · rename_i aligned
    split
    · rename_i hend
      obtain ⟨hlen, hbits⟩ := decodeBytes_spec flat rootIdx aligned hend
      refine ⟨hlen, rfl, fun i hi => ?_⟩
      rw [hbits i, Bool.and_eq_true, decide_eq_true_iff] at hi
      exact hi
    · simp [JustificationVotes.new]
  · obtain ⟨hlen, hcnt, hbits⟩ := decodeBits_spec flat (rootIdx * n) (Nat.le_refl n)
    refine ⟨hlen, hcnt, fun i hi => ?_⟩
    rw [hbits i, Bool.and_eq_true, decide_eq_true_iff, BitList.get, Bool.and_eq_true] at hi
    exact ⟨hi.1, hi.2.2⟩

/-- Where the flat bitmap covers the root's block, decoding reads exactly that block. -/
theorem bitAt_decodeRootVotes {flat : BitList limit} {n rootIdx : Nat}
    (hlen : rootIdx * n + n ≤ flat.len) (covered : flat.len ≤ 8 * flat.data.length) (i : Nat) :
    bitAt (decodeRootVotes flat n rootIdx).bits i =
      (decide (i < n) && bitAt flat.data (rootIdx * n + i)) := by
  simp only [decodeRootVotes]
  split
  · rename_i aligned
    have hbytes : 8 * ((n + 7) / 8) = n := by omega
    have hbase : 8 * (rootIdx * ((n + 7) / 8)) = rootIdx * n := by
      rw [Nat.mul_left_comm, hbytes]
    have hend : rootIdx * ((n + 7) / 8) + (n + 7) / 8 ≤ flat.data.length := by omega
    rw [if_pos hend]
    exact (decodeBytes_spec flat rootIdx aligned hend).2 i
  · rw [(decodeBits_spec flat (rootIdx * n) (Nat.le_refl n)).2.2 i]
    by_cases hi : i < n
    · have hin : rootIdx * n + i < flat.len := by omega
      simp [BitList.get, hin]
    · simp [hi]

/-! ## Tallies -/

/-- Votes over a registry of `n` validators whose count is right. -/
structure Tally (n : Nat) extends JustificationVotes where
  length_bits : bits.length = (n + 7) / 8
  in_registry : ∀ i, bitAt bits i = true → i < n
  count_eq : count = popCount bits

namespace Tally

variable {n : Nat}

instance : DecidableEq (Tally n) := fun a b =>
  decidable_of_iff (a.toJustificationVotes = b.toJustificationVotes)
    ⟨fun h => by cases a; cases b; simp_all, fun h => by rw [h]⟩

/-- `JustificationVotes::new`, the empty tally. -/
def new (n : Nat) : Tally n where
  toJustificationVotes := JustificationVotes.new n
  length_bits := by simp [JustificationVotes.new]
  in_registry := by simp [JustificationVotes.new]
  count_eq := by simp [JustificationVotes.new]

/-- `merge_participant_votes_from_bits` on a tally. -/
def merge {limit : Nat} (tally : Tally n) (participants : BitList limit) : Tally n where
  toJustificationVotes :=
    mergeParticipantVotesFromBits tally.toJustificationVotes participants n
  length_bits := (merge_spec participants tally.length_bits tally.count_eq).1
  in_registry := by
    intro i hi
    rw [(merge_spec participants tally.length_bits tally.count_eq).2.2 i] at hi
    rcases Bool.or_eq_true_iff.mp hi with h | h
    · exact tally.in_registry i h
    · exact of_decide_eq_true (Bool.and_eq_true_iff.mp h).1
  count_eq := (merge_spec participants tally.length_bits tally.count_eq).2.1

/-- The tally of the root at position `rootIdx` of a flat bitmap. -/
def decode {limit : Nat} (flat : BitList limit) (n rootIdx : Nat) : Tally n where
  toJustificationVotes := decodeRootVotes flat n rootIdx
  length_bits := (decodeRootVotes_spec flat n rootIdx).1
  in_registry := fun i hi => ((decodeRootVotes_spec flat n rootIdx).2.2 i hi).1
  count_eq := (decodeRootVotes_spec flat n rootIdx).2.1

/-- The validators of a tally. -/
def voters (tally : Tally n) : Finset Nat := setPositions tally.bits

variable {tally : Tally n} {i : Nat}

theorem mem_voters : i ∈ tally.voters ↔ bitAt tally.bits i = true :=
  mem_setPositions

/-- **The count is the number of distinct voters.** -/
theorem count_eq_card (tally : Tally n) : tally.count = tally.voters.card := by
  rw [tally.count_eq, popCount_eq_card, voters]

/-- A tally is its set of voters. -/
theorem ext_voters {other : Tally n} (same : tally.voters = other.voters) : tally = other := by
  have hbits : tally.bits = other.bits := by
    apply eq_of_bitAt (by rw [tally.length_bits, other.length_bits])
    intro i
    rw [Bool.eq_iff_iff, ← mem_voters, ← mem_voters, same]
  have hcount : tally.count = other.count := by
    rw [tally.count_eq, other.count_eq, hbits]
  obtain ⟨⟨bits, count⟩, _, _, _⟩ := tally
  obtain ⟨⟨bits', count'⟩, _, _, _⟩ := other
  cases hbits
  cases hcount
  rfl

@[simp] theorem voters_new : (new n).voters = ∅ := by
  ext i
  simp [mem_voters, new, JustificationVotes.new]

theorem mem_voters_merge {limit : Nat} {participants : BitList limit} :
    i ∈ (tally.merge participants).voters ↔
      i ∈ tally.voters ∨ i < n ∧ participants.get i = true := by
  rw [mem_voters, mem_voters, merge,
    (merge_spec participants tally.length_bits tally.count_eq).2.2 i]
  simp

theorem lt_of_mem_voters (h : i ∈ tally.voters) : i < n :=
  tally.in_registry i (mem_voters.mp h)

theorem of_mem_voters_decode {limit : Nat} {flat : BitList limit} {rootIdx : Nat}
    (h : i ∈ (decode flat n rootIdx).voters) :
    i < n ∧ bitAt flat.data (rootIdx * n + i) = true := by
  obtain ⟨-, -, hbits⟩ := decodeRootVotes_spec flat n rootIdx
  rw [mem_voters, decode] at h
  exact hbits i h

end Tally

/-! ## The codec -/

/-- The loop of `decode_justification_votes` from root `rootIdx` on. -/
def decodeRoots {limit : Nat} (flat : BitList limit) (n : Nat) :
    Nat → List Bytes32 → RapidHashMap (Tally n) → RapidHashMap (Tally n)
  | _, [], out => out
  | rootIdx, root :: rest, out =>
    decodeRoots flat n (rootIdx + 1) rest (out.insert root (Tally.decode flat n rootIdx))

/-- `decode_justification_votes`. -/
def decodeJustificationVotes (state : State) (n : Nat) : RapidHashMap (Tally n) :=
  if n = 0 ∨ state.justificationsRoots.items = [] then ∅
  else decodeRoots state.justificationsValidators n 0 state.justificationsRoots.items ∅

/-- Write one root's votes at position `rootIdx`: a slice copy when the registry fills whole bytes,
single bits otherwise. -/
def encodeRootVotes {n : Nat} (flat : List Byte) (rootIdx : Nat) (votes : Tally n) : List Byte :=
  if n % 8 = 0 then
    let byteCount := (n + 7) / 8
    let dstStart := rootIdx * byteCount
    flat.take dstStart ++ votes.bits.take byteCount ++ flat.drop (dstStart + byteCount)
  else
    (List.range n).foldl
      (fun flat validatorId =>
        if bitIsSet votes.bits n validatorId then setBit flat (rootIdx * n + validatorId)
        else flat)
      flat

/-- The loop of `encode_justification_votes` from root `rootIdx` on. -/
def encodeRoots {n : Nat} (votes : RapidHashMap (Tally n)) :
    Nat → List Bytes32 → List Byte → List Byte
  | _, [], flat => flat
  | rootIdx, root :: rest, flat =>
    encodeRoots votes (rootIdx + 1) rest
      (match votes.lookup root with
        | some rootVotes => encodeRootVotes flat rootIdx rootVotes
        | none => flat)

/-- The roots of a vote map in the order the state keeps them. -/
def sortedRoots {n : Nat} (votes : RapidHashMap (Tally n)) : List Bytes32 :=
  votes.keys.insertionSort (· ≤ ·)

/-- `encode_justification_votes`. Its two checks come before any write; too many roots hit the
`expect`. -/
def encodeJustificationVotes (ssz : Ssz) {n : Nat} (votes : RapidHashMap (Tally n)) :
    Mutation State Unit := do
  let roots := sortedRoots votes
  let flatLen := roots.length * n
  Mutation.failIf (flatLen ≥ 2 ^ 64) "justification vote bitmap overflow"
  Mutation.failIf (flatLen > justificationValidatorsLimit) "justification vote bitmap exceeds limit"
  let flatData := encodeRoots votes 0 roots (List.replicate ((flatLen + 7) / 8) 0#8)
  match LimitedList.new ssz historicalRootsLimit roots with
  | .error _ => throw (.panicked "justifications roots")
  | .ok list =>
    modify fun state =>
      { state with
        justificationsRoots := list
        justificationsValidators := ⟨flatData, flatLen⟩ }

end Peam
