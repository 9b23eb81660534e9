import Peam.Votes

/-!
# The flat bitmap holds exactly the votes of the map

The state keeps pending votes as a list of roots and one flat bitmap. `PendingVote` reads a single
vote out of that layout. Packing writes the votes of the map and no others
(`pendingVote_of_encode`), and unpacking finds only votes that were there
(`pendingVote_of_decode`), on the byte-aligned path and on the per-bit path alike.
-/

namespace Peam

open Packed
open Calls (Mutation)

variable {roots : List Bytes32} {idx rootIdx : Nat} {root : Bytes32} {state state' : State}

/-- Validator `i` has a pending vote for `root`: its bit is set in the block of `n` bits that
belongs to a position of `root`. -/
def PendingVote (state : State) (n : Nat) (root : Bytes32) (i : Nat) : Prop :=
  ∃ k, state.justificationsRoots.items[k]? = some root ∧ i < n ∧
    bitAt state.justificationsValidators.data (k * n + i) = true

section Decode

variable {limit n : Nat} {flat : BitList limit}

/-- A decoded entry comes from a position of its root, or was there before. -/
theorem lookup_decodeRoots {out : RapidHashMap (Tally n)} {tally : Tally n}
    (h : (decodeRoots flat n idx roots out).lookup root = some tally) :
    (∃ k, roots[k]? = some root ∧ tally = Tally.decode flat n (idx + k)) ∨
      out.lookup root = some tally := by
  induction roots generalizing idx out with
  | nil => exact .inr h
  | cons head rest ih =>
    rcases ih h with ⟨k, hk, rfl⟩ | hout
    · refine .inl ⟨k + 1, by simpa using hk, ?_⟩
      rw [Nat.add_assoc, Nat.add_comm 1 k]
    · rcases lookup_insert_some.mp hout with ⟨rfl, rfl⟩ | ⟨-, hout⟩
      · exact .inl ⟨0, rfl, rfl⟩
      · exact .inr hout

/-- Decoding adds the listed roots. -/
theorem mem_decodeRoots {out : RapidHashMap (Tally n)} :
    root ∈ decodeRoots flat n idx roots out ↔ root ∈ roots ∨ root ∈ out := by
  induction roots generalizing idx out with
  | nil => simp [decodeRoots]
  | cons head rest ih =>
    rw [decodeRoots, ih, AList.mem_insert, List.mem_cons]
    tauto

end Decode

/-- **Unpacking finds only votes that were there.** -/
theorem pendingVote_of_decode {n : Nat} {tally : Tally n} {i : Nat}
    (h : (decodeJustificationVotes state n).lookup root = some tally) (hi : i ∈ tally.voters) :
    PendingVote state n root i := by
  unfold decodeJustificationVotes at h
  split at h
  · simp at h
  · rcases lookup_decodeRoots h with ⟨k, hk, rfl⟩ | hout
    · obtain ⟨hlt, hbit⟩ := Tally.of_mem_voters_decode hi
      rw [Nat.zero_add] at hbit
      exact ⟨k, hk, hlt, hbit⟩
    · simp at hout

/-- The keys of the unpacked map are roots of the state. -/
theorem of_mem_decodeJustificationVotes {n : Nat} (h : root ∈ decodeJustificationVotes state n) :
    root ∈ state.justificationsRoots.items := by
  unfold decodeJustificationVotes at h
  split at h
  · simp at h
  · rw [mem_decodeRoots] at h
    simpa using h

section Encode

variable {n : Nat} {flat : List Byte}

private theorem encodeAligned_spec {votes : Tally n} (aligned : n % 8 = 0)
    (hfits : rootIdx * n + n ≤ 8 * flat.length)
    (hclear : ∀ j, rootIdx * n ≤ j → j < rootIdx * n + n → bitAt flat j = false) :
    let byteCount := (n + 7) / 8
    let out := flat.take (rootIdx * byteCount) ++ votes.bits.take byteCount ++
      flat.drop (rootIdx * byteCount + byteCount)
    out.length = flat.length ∧
      ∀ j, bitAt out j = true ↔ bitAt flat j = true ∨ ∃ i ∈ votes.voters, j = rootIdx * n + i := by
  have hbytes : 8 * ((n + 7) / 8) = n := by omega
  have hbase : 8 * (rootIdx * ((n + 7) / 8)) = rootIdx * n := by
    rw [Nat.mul_left_comm, hbytes]
  have hbits : votes.bits.take ((n + 7) / 8) = votes.bits :=
    List.take_of_length_le (by rw [votes.length_bits])
  have hlen := votes.length_bits
  dsimp only
  generalize (n + 7) / 8 = c at hbytes hbase hbits hlen ⊢
  generalize rootIdx * c = d at hbase ⊢
  have htake : (flat.take d).length = d := by
    rw [List.length_take]
    omega
  refine ⟨?_, fun j => ?_⟩
  · simp only [hbits, List.length_append, List.length_take, List.length_drop, hlen]
    omega
  · simp only [hbits, List.append_assoc]
    rw [bitAt_append, htake, bitAt_append, hlen, bitAt_take, bitAt_drop]
    have hvotes : ∀ i, i ∈ votes.voters ↔ bitAt votes.bits i = true := fun i => Tally.mem_voters
    rcases Nat.lt_or_ge j (8 * d) with hlo | hlo
    · have hno : ¬ ∃ i ∈ votes.voters, j = rootIdx * n + i := by
        rintro ⟨i, -, rfl⟩
        omega
      simp [hlo, hno]
    · rw [if_neg (Nat.not_lt.mpr hlo)]
      rcases Nat.lt_or_ge (j - 8 * d) (8 * c) with hmid | hhi
      · -- inside the block: the old bits are clear, the new ones are the votes
        rw [if_pos hmid, hclear j (by omega) (by omega)]
        constructor
        · intro hbit
          exact .inr ⟨j - 8 * d, (hvotes _).mpr hbit, by omega⟩
        · rintro (hfalse | ⟨i, hi, rfl⟩)
          · cases hfalse
          · rw [hbase, Nat.add_sub_cancel_left]
            exact (hvotes i).mp hi
      · have hno : ¬ ∃ i ∈ votes.voters, j = rootIdx * n + i := by
          rintro ⟨i, hi, rfl⟩
          have := Tally.lt_of_mem_voters hi
          omega
        have hback : 8 * (d + c) + (j - 8 * d - 8 * c) = j := by omega
        rw [if_neg (Nat.not_lt.mpr hhi), hback]
        simp [hno]

private theorem encodeBits_spec (flat : List Byte) (rootIdx : Nat) (votes : Tally n)
    (hfits : rootIdx * n + n ≤ 8 * flat.length) {m : Nat} (hm : m ≤ n) :
    let out := (List.range m).foldl
      (fun flat validatorId =>
        if bitIsSet votes.bits n validatorId then setBit flat (rootIdx * n + validatorId)
        else flat) flat
    out.length = flat.length ∧
      ∀ j, bitAt out j = true ↔
        bitAt flat j = true ∨ ∃ i ∈ votes.voters, i < m ∧ j = rootIdx * n + i := by
  induction m with
  | zero => simp
  | succ m ih =>
    obtain ⟨hlen, hbits⟩ := ih (by omega)
    simp only [List.range_succ, List.foldl_append, List.foldl_cons, List.foldl_nil]
    have hset : bitIsSet votes.bits n m = true ↔ m ∈ votes.voters := by
      rw [bitIsSet_eq, Tally.mem_voters]
      simp [show m < n by omega]
    split
    · rename_i hbit
      refine ⟨by rw [length_setBit, hlen], fun j => ?_⟩
      rw [bitAt_setBit, Bool.or_eq_true, hbits j, decide_eq_true_iff]
      constructor
      · rintro ((h | ⟨i, hi, hlt, rfl⟩) | ⟨rfl, -⟩)
        · exact .inl h
        · exact .inr ⟨i, hi, by omega, rfl⟩
        · exact .inr ⟨m, hset.mp hbit, by omega, rfl⟩
      · rintro (h | ⟨i, hi, hlt, rfl⟩)
        · exact .inl (.inl h)
        · rcases Nat.lt_or_ge i m with him | him
          · exact .inl (.inr ⟨i, hi, him, rfl⟩)
          · obtain rfl : i = m := by omega
            exact .inr ⟨rfl, by omega⟩
    · rename_i hbit
      refine ⟨hlen, fun j => ?_⟩
      rw [hbits j]
      constructor
      · rintro (h | ⟨i, hi, hlt, rfl⟩)
        · exact .inl h
        · exact .inr ⟨i, hi, by omega, rfl⟩
      · rintro (h | ⟨i, hi, hlt, rfl⟩)
        · exact .inl h
        · have him : i ≠ m := fun heq => hbit (hset.mpr (heq ▸ hi))
          exact .inr ⟨i, hi, by omega, rfl⟩

/-- Writing one root's votes into a clear block sets exactly those votes. -/
theorem encodeRootVotes_spec (votes : Tally n)
    (hfits : rootIdx * n + n ≤ 8 * flat.length)
    (hclear : ∀ j, rootIdx * n ≤ j → bitAt flat j = false) :
    (encodeRootVotes flat rootIdx votes).length = flat.length ∧
      ∀ j, bitAt (encodeRootVotes flat rootIdx votes) j = true ↔
        bitAt flat j = true ∨ ∃ i ∈ votes.voters, j = rootIdx * n + i := by
  unfold encodeRootVotes
  split
  · rename_i aligned
    exact encodeAligned_spec aligned hfits (fun j hlo _ => hclear j hlo)
  · obtain ⟨hlen, hbits⟩ := encodeBits_spec flat rootIdx votes hfits (Nat.le_refl n)
    refine ⟨hlen, fun j => ?_⟩
    rw [hbits j]
    constructor
    · rintro (h | ⟨i, hi, -, rfl⟩)
      · exact .inl h
      · exact .inr ⟨i, hi, rfl⟩
    · rintro (h | ⟨i, hi, rfl⟩)
      · exact .inl h
      · exact .inr ⟨i, hi, Tally.lt_of_mem_voters hi, rfl⟩

variable {votes : RapidHashMap (Tally n)}

/-- **The layout of the packed votes**: a bit is set exactly when it is the bit of a voter in the
block of its root. -/
theorem encodeRoots_spec (hfits : (idx + roots.length) * n ≤ 8 * flat.length)
    (hclear : ∀ j, idx * n ≤ j → bitAt flat j = false) (j : Nat) :
    bitAt (encodeRoots votes idx roots flat) j = true ↔
      bitAt flat j = true ∨ ∃ k root tally i, roots[k]? = some root ∧
        votes.lookup root = some tally ∧ i ∈ tally.voters ∧ j = (idx + k) * n + i := by
  induction roots generalizing idx flat with
  | nil => simp [encodeRoots]
  | cons head rest ih =>
    have hone : idx * n + n ≤ 8 * flat.length := by
      have : (idx + 1) * n ≤ (idx + (rest.length + 1)) * n := Nat.mul_le_mul_right n (by omega)
      rw [List.length_cons] at hfits
      rw [Nat.succ_mul] at this
      omega
    have hrest : (idx + 1 + rest.length) * n ≤ 8 * flat.length := by
      rw [List.length_cons] at hfits
      rwa [Nat.add_assoc, Nat.add_comm 1 rest.length]
    -- the positions of the tail are the later positions of the whole list
    have hshift : (∃ k root tally i, rest[k]? = some root ∧ votes.lookup root = some tally ∧
        i ∈ tally.voters ∧ j = (idx + 1 + k) * n + i) ↔
        ∃ k root tally i, (head :: rest)[k + 1]? = some root ∧ votes.lookup root = some tally ∧
          i ∈ tally.voters ∧ j = (idx + (k + 1)) * n + i := by
      simp only [List.getElem?_cons_succ, Nat.add_assoc, Nat.add_comm 1]
    have hsplit : (∃ k root tally i, (head :: rest)[k]? = some root ∧
        votes.lookup root = some tally ∧ i ∈ tally.voters ∧ j = (idx + k) * n + i) ↔
        (∃ tally i, votes.lookup head = some tally ∧ i ∈ tally.voters ∧ j = idx * n + i) ∨
        ∃ k root tally i, (head :: rest)[k + 1]? = some root ∧ votes.lookup root = some tally ∧
          i ∈ tally.voters ∧ j = (idx + (k + 1)) * n + i := by
      constructor
      · rintro ⟨k, root, tally, i, hk, hl, hi, hj⟩
        cases k with
        | zero =>
          cases hk
          exact .inl ⟨tally, i, hl, hi, hj⟩
        | succ k => exact .inr ⟨k, root, tally, i, hk, hl, hi, hj⟩
      · rintro (⟨tally, i, hl, hi, hj⟩ | ⟨k, root, tally, i, hk, hl, hi, hj⟩)
        · exact ⟨0, head, tally, i, rfl, hl, hi, hj⟩
        · exact ⟨k + 1, root, tally, i, hk, hl, hi, hj⟩
    rw [hsplit, ← hshift, encodeRoots]
    cases hl : votes.lookup head with
    | none =>
      have hclear' : ∀ j, (idx + 1) * n ≤ j → bitAt flat j = false := by
        intro j hj
        rw [Nat.succ_mul] at hj
        exact hclear j (by omega)
      rw [ih hrest hclear']
      simp
    | some tally =>
      obtain ⟨hlen, hbits⟩ := encodeRootVotes_spec tally hone hclear
      have hclear' : ∀ j, (idx + 1) * n ≤ j →
          bitAt (encodeRootVotes flat idx tally) j = false := by
        intro j hj
        rw [Nat.succ_mul] at hj
        rw [Bool.eq_false_iff, Ne, hbits j]
        rintro (h | ⟨i, hi, rfl⟩)
        · rw [hclear j (by omega)] at h
          cases h
        · have := Tally.lt_of_mem_voters hi
          omega
      rw [ih (by rwa [hlen]) hclear', hbits j]
      simp [or_assoc]

/-- Sorting keeps the roots. -/
theorem mem_sortedRoots : root ∈ sortedRoots votes ↔ root ∈ votes := by
  rw [sortedRoots, (List.perm_insertionSort _ _).mem_iff, AList.mem_keys]

theorem length_sortedRoots (votes : RapidHashMap (Tally n)) :
    (sortedRoots votes).length = votes.keys.length :=
  (List.perm_insertionSort _ _).length_eq

/-- A successful packing replaces the two vote fields and nothing else. -/
theorem encodeJustificationVotes_ok {ssz : Ssz}
    (h : encodeJustificationVotes ssz votes state = .ok () state') :
    ∃ list : LimitedList Bytes32 historicalRootsLimit, list.items = sortedRoots votes ∧
      state' = { state with
        justificationsRoots := list
        justificationsValidators :=
          ⟨encodeRoots votes 0 (sortedRoots votes)
            (List.replicate (((sortedRoots votes).length * n + 7) / 8) 0#8),
            (sortedRoots votes).length * n⟩ } := by
  unfold encodeJustificationVotes at h
  rw [Mutation.bind_ok] at h
  obtain ⟨_, t, hoverflow, h⟩ := h
  obtain ⟨-, rfl⟩ := Mutation.failIf_ok.mp hoverflow
  rw [Mutation.bind_ok] at h
  obtain ⟨_, t, hlimit, h⟩ := h
  obtain ⟨-, rfl⟩ := Mutation.failIf_ok.mp hlimit
  cases hnew : LimitedList.new ssz historicalRootsLimit (sortedRoots votes) with
  | error e =>
    rw [hnew] at h
    cases h
  | ok list =>
    rw [hnew] at h
    cases h
    exact ⟨list, LimitedList.new_ok ssz hnew, rfl⟩

/-- Packing succeeds on every map within the two limits. -/
theorem encodeJustificationVotes_within (ssz : Ssz)
    (hroots : votes.keys.length ≤ historicalRootsLimit)
    (hflat : votes.keys.length * n ≤ justificationValidatorsLimit) (state : State) :
    ∃ state', encodeJustificationVotes ssz votes state = .ok () state' := by
  rw [← length_sortedRoots] at hroots hflat
  have hlimit : justificationValidatorsLimit < 2 ^ 64 := by decide
  have hnew := LimitedList.new_of_le ssz hroots
  have hfail : ∀ {cond : Prop} [Decidable cond] {text : String}, ¬ cond →
      Mutation.failIf cond text state = .ok () state := fun hno => Mutation.failIf_ok.mpr ⟨hno, rfl⟩
  unfold encodeJustificationVotes
  simp only [Mutation.bind_ok, hnew]
  exact ⟨_, (), state, hfail (by omega), (), state, hfail (by omega), rfl⟩

/-- Packing succeeds whenever the roots fit their list: the registry limit keeps the bitmap inside
its own limit, so neither check of the bitmap can fail and the `expect` cannot panic. -/
theorem encodeJustificationVotes_succeeds (ssz : Ssz)
    (hroots : votes.keys.length ≤ historicalRootsLimit) (hn : n ≤ validatorRegistryLimit)
    (state : State) : ∃ state', encodeJustificationVotes ssz votes state = .ok () state' :=
  encodeJustificationVotes_within ssz hroots
    (calc votes.keys.length * n
        ≤ historicalRootsLimit * validatorRegistryLimit := Nat.mul_le_mul hroots hn
      _ = justificationValidatorsLimit := rfl) state

/-- The block and the offset of a bit are determined by its flat index. -/
theorem flatIndex_inj {k k' i i' : Nat} (hi : i < n) (hi' : i' < n)
    (h : k * n + i = k' * n + i') : k = k' ∧ i = i' := by
  have hpos : n * k + i = n * k' + i' := by
    rw [Nat.mul_comm n k, Nat.mul_comm n k']
    exact h
  have hmod := congrArg (· % n) hpos
  simp only [Nat.mul_add_mod, Nat.mod_eq_of_lt hi, Nat.mod_eq_of_lt hi'] at hmod
  subst hmod
  exact ⟨Nat.eq_of_mul_eq_mul_left (by omega : 0 < n) (by omega), rfl⟩

/-- **Packing writes only votes of the map.** -/
theorem pendingVote_of_encode {ssz : Ssz}
    (h : encodeJustificationVotes ssz votes state = .ok () state') {i : Nat}
    (pending : PendingVote state' n root i) :
    ∃ tally, votes.lookup root = some tally ∧ i ∈ tally.voters := by
  obtain ⟨list, hlist, rfl⟩ := encodeJustificationVotes_ok h
  obtain ⟨k, hk, hi, hbit⟩ := pending
  simp only [hlist] at hk
  have hfits : (0 + (sortedRoots votes).length) * n ≤
      8 * (List.replicate (((sortedRoots votes).length * n + 7) / 8) 0#8).length := by
    rw [List.length_replicate, Nat.zero_add]
    omega
  rw [encodeRoots_spec hfits (fun j _ => bitAt_replicate_zero _ j)] at hbit
  rcases hbit with hzero | ⟨k', root', tally, i', hk', hl, hi', hpos⟩
  · simp at hzero
  · rw [Nat.zero_add] at hpos
    obtain ⟨rfl, rfl⟩ := flatIndex_inj hi (Tally.lt_of_mem_voters hi') hpos
    rw [hk] at hk'
    cases hk'
    exact ⟨tally, hl, hi'⟩

end Encode

end Peam
