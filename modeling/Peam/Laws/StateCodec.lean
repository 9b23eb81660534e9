import Peam.Laws.Encode
import Peam.Laws.ReadBack
import Peam.StateCodec

/-!
# The state reads back, without the balances

The encoder writes 228 bytes of fixed part and then five lists, and each of the five offsets is the
end of what stands before it. So the offsets pass the checks of the checked decoder, and every range
it reads is one written part (`State.decodeSszChecked_encodeSsz`). The trusting decoder makes the
same reads without the checks (`State.decodeSsz_of_checked`). Validators are written without their
balance, so what is read back is `State.readBack`.

What is assumed of `peam-ssz` is that it reads the lists of this state back and that its checked
decoders, where they succeed, agree with the trusting ones.
-/

namespace Peam

open Packed (Byte)
open Calls (Outcome)
open Calls.Outcome (bind_ok part_bind check_bind)

/-! ## What is assumed -/

/-- The byte string is as long as the bits need, and no bit past them is set. Unlike `Normalized`
this says nothing of the limit. -/
structure BitList.Tight {limit : Nat} (bits : BitList limit) : Prop where
  bytes : bits.data.length = (bits.len + 7) / 8
  clear : ∀ j, bits.len ≤ j → Packed.bitAt bits.data j = false

/-- The numbers of a state are `u64`s. -/
structure State.Fits (state : State) : Prop where
  genesisTime : state.config.genesisTime < 2 ^ 64
  slot : state.slot < 2 ^ 64
  headerSlot : state.latestBlockHeader.slot < 2 ^ 64
  proposerIndex : state.latestBlockHeader.proposerIndex < 2 ^ 64
  justified : state.latestJustified.slot < 2 ^ 64
  finalized : state.latestFinalized.slot < 2 ^ 64
  validators : ∀ validator ∈ state.validators.items, validator.index < 2 ^ 64

/-- The crate reads the lists of one state back: roots, the cut into validators, and bit lists
without stray bits. -/
structure StateEncoder.RoundTrips (codec : StateEncoder) (state : State) : Prop where
  historicalBlockHashes : ∀ checked,
    LimitedList.decode codec codec.bytes32 checked (some 32) historicalRootsLimit
      (codec.encodeRoots state.historicalBlockHashes.items) = .ok state.historicalBlockHashes
  justifiedSlots : state.justifiedSlots.Tight → ∀ checked,
    codec.bitList checked _ (codec.encodeBitList _ state.justifiedSlots) = .ok state.justifiedSlots
  validators : ∀ checked,
    codec.elements checked none validatorRegistryLimit
        (codec.encodeElements (state.validators.items.map Validator.encodeSsz)) =
      (state.validators.items.map Validator.encodeSsz, none)
  justificationsRoots : ∀ checked,
    LimitedList.decode codec codec.bytes32 checked (some 32) historicalRootsLimit
      (codec.encodeRoots state.justificationsRoots.items) = .ok state.justificationsRoots
  justificationsValidators : state.justificationsValidators.Tight → ∀ checked,
    codec.bitList checked _ (codec.encodeBitList _ state.justificationsValidators) =
      .ok state.justificationsValidators

/-- Where a checked decoder of the crate succeeds, the trusting one returns the same. -/
structure SszCodec.Agrees (codec : SszCodec) : Prop where
  bitList : ∀ {limit : Nat} {bytes : List Byte} {bits : BitList limit},
    codec.bitList true limit bytes = .ok bits → codec.bitList false limit bytes = .ok bits
  elements : ∀ {fixedLen : Option Nat} {limit : Nat} {bytes : List Byte}
    {pieces : List (List Byte)}, codec.elements true fixedLen limit bytes = (pieces, none) →
      codec.elements false fixedLen limit bytes = (pieces, none)

/-! ## The trusting decoder after the checked one -/

variable {α : Type} {bytes : List Byte} {decode : List Byte → Outcome α}

private theorem decodeFixedChecked_ok {name : String} {len : Nat} {a : α}
    (h : decodeFixedChecked name len decode bytes = .ok a) : decode bytes = .ok a := by
  obtain ⟨-, -, h⟩ := bind_ok.mp h
  exact h

/-- Reads that each return what another returns, one after the other. -/
theorem bind_mono {β : Type} {x y : Outcome α} {f g : α → Outcome β} {b : β}
    (hx : ∀ {a}, x = .ok a → y = .ok a) (hf : ∀ a, f a = .ok b → g a = .ok b)
    (h : (x >>= f) = .ok b) : (y >>= g) = .ok b := by
  obtain ⟨a, ha, h⟩ := bind_ok.mp h
  exact bind_ok.mpr ⟨a, hx ha, hf a h⟩

private theorem SszCodec.Agrees.list {codec : SszCodec} (agrees : codec.Agrees)
    {fixedLen : Option Nat} {limit : Nat}
    {list : LimitedList α limit}
    (h : LimitedList.decode codec decode true fixedLen limit bytes = .ok list) :
    LimitedList.decode codec decode false fixedLen limit bytes = .ok list := by
  refine bind_mono (fun h => ?_) (fun _ => id) h
  obtain ⟨items, hitems, h⟩ := bind_ok.mp h
  have hcut : codec.elements true fixedLen limit bytes =
      ((codec.elements true fixedLen limit bytes).1, none) := by
    refine Prod.ext rfl ?_
    split at h
    · cases h
    · assumption
  rw [hcut] at h
  rw [SszList.decode, agrees.elements hcut, hitems]
  exact h

private theorem State.decodeSsz_of_checked {codec : SszCodec} (agrees : codec.Agrees)
    {state : State} (h : State.decodeSszChecked codec bytes = .ok state) :
    State.decodeSsz codec bytes = .ok state := by
  obtain ⟨-, -, h⟩ := bind_ok.mp h
  -- The same reads in the same order, each by the trusting decoder.
  refine bind_mono (bind_mono id fun _ => decodeFixedChecked_ok) (fun config h => ?_) h
  refine bind_mono (bind_mono id fun _ => decodeFixedChecked_ok) (fun slot h => ?_) h
  refine bind_mono (bind_mono id fun _ => decodeFixedChecked_ok) (fun header h => ?_) h
  refine bind_mono (bind_mono id fun _ => decodeFixedChecked_ok) (fun justified h => ?_) h
  refine bind_mono (bind_mono id fun _ => decodeFixedChecked_ok) (fun finalized h => ?_) h
  refine bind_mono id (fun b0 h => ?_) h
  refine bind_mono id (fun b1 h => ?_) h
  refine bind_mono id (fun b2 h => ?_) h
  refine bind_mono id (fun b3 h => ?_) h
  refine bind_mono id (fun b4 h => ?_) h
  obtain ⟨-, -, h⟩ := bind_ok.mp h
  obtain ⟨-, -, h⟩ := bind_ok.mp h
  refine bind_mono (bind_mono id fun _ => agrees.list) (fun hashes h => ?_) h
  refine bind_mono (bind_mono id fun _ => agrees.bitList) (fun slots h => ?_) h
  refine bind_mono (bind_mono id fun _ => agrees.list) (fun validators h => ?_) h
  refine bind_mono (bind_mono id fun _ => agrees.list) (fun roots h => ?_) h
  exact bind_mono (bind_mono id fun _ => agrees.bitList) (fun votes => id) h

/-! ## Records of fixed size -/

private theorem Config.decodeSszChecked_leBytes {config : Config}
    (h : config.genesisTime < 2 ^ 64) :
    Config.decodeSszChecked (leBytes 8 config.genesisTime) = .ok config := by
  rw [Config.decodeSszChecked, decodeFixedChecked_eq (length_leBytes 8 _)]
  exact bind_ok.mpr ⟨config.genesisTime, Uint64.decodeSsz_leBytes h, rfl⟩

private theorem Slot.decodeSszChecked_leBytes {slot : Nat} (h : slot < 2 ^ 64) :
    Slot.decodeSszChecked (leBytes 8 slot) = .ok slot := by
  rw [Slot.decodeSszChecked, decodeFixedChecked_eq (length_leBytes 8 _)]
  exact Uint64.decodeSsz_leBytes h

private theorem Checkpoint.decodeSszChecked_encodeSsz {checkpoint : Checkpoint}
    (h : checkpoint.slot < 2 ^ 64) :
    Checkpoint.decodeSszChecked checkpoint.encodeSsz = .ok checkpoint := by
  rw [Checkpoint.decodeSszChecked, decodeFixedChecked_eq (Checkpoint.length_encodeSsz _)]
  exact Checkpoint.decodeSsz_encodeSsz h

@[simp] theorem BlockHeader.length_encodeSsz (header : BlockHeader) :
    header.encodeSsz.length = 112 := by
  simp [BlockHeader.encodeSsz]

private theorem BlockHeader.decodeSszChecked_encodeSsz {header : BlockHeader}
    (hslot : header.slot < 2 ^ 64) (hproposer : header.proposerIndex < 2 ^ 64) :
    BlockHeader.decodeSszChecked header.encodeSsz = .ok header := by
  rw [BlockHeader.decodeSszChecked, decodeFixedChecked_eq (BlockHeader.length_encodeSsz _)]
  refine part_bind (k := 0) rfl rfl (by simp) (Uint64.decodeSsz_leBytes hslot) ?_
  refine part_bind (k := 1) rfl (by simp) (by simp)
    (Uint64.decodeSsz_leBytes hproposer) ?_
  refine part_bind (k := 2) rfl (by simp) (by simp) (Bytes32.fromSlice_asRef _) ?_
  refine part_bind (k := 3) rfl (by simp) (by simp) (Bytes32.fromSlice_asRef _) ?_
  exact part_bind (k := 4) rfl (by simp) (by simp) (Bytes32.fromSlice_asRef _) rfl

private theorem Validator.decodeSsz_encodeSsz {validator : Validator}
    (h : validator.index < 2 ^ 64) :
    Validator.decodeSsz validator.encodeSsz = .ok validator.readBack := by
  refine part_bind (k := 0) rfl rfl (by simp) (@fromSlice_asRef 52 416 rfl _) ?_
  exact part_bind (k := 1) rfl (by simp) (by simp) (Uint64.decodeSsz_leBytes h) rfl

/-! ## The round trip -/

variable {codec : StateEncoder} {state : State}

private theorem State.encodeSsz_eq :
    state.encodeSsz codec =
      let hist := codec.encodeRoots state.historicalBlockHashes.items
      let justified := codec.encodeBitList _ state.justifiedSlots
      let validators := codec.encodeElements (state.validators.items.map Validator.encodeSsz)
      let roots := codec.encodeRoots state.justificationsRoots.items
      [leBytes 8 state.config.genesisTime, leBytes 8 state.slot,
        state.latestBlockHeader.encodeSsz, state.latestJustified.encodeSsz,
        state.latestFinalized.encodeSsz, leBytes 4 228, leBytes 4 (228 + hist.length),
        leBytes 4 (228 + hist.length + justified.length),
        leBytes 4 (228 + hist.length + justified.length + validators.length),
        leBytes 4 (228 + hist.length + justified.length + validators.length + roots.length),
        hist, justified, validators, roots,
        codec.encodeBitList _ state.justificationsValidators].flatten := by
  simp [State.encodeSsz, BlockHeader.encodeSsz, Checkpoint.encodeSsz]

/-- Offsets that rise from the end of the fixed part and stay inside pass the loop. -/
theorem checkStateOffsets_ok {fixedEnd scope prev : Nat} {bounds : List Nat}
    (rising : (prev :: bounds).Pairwise (· ≤ ·)) (inside : ∀ b ∈ bounds, fixedEnd ≤ b ∧ b ≤ scope) :
    checkStateOffsets fixedEnd scope prev bounds = .ok () := by
  induction bounds generalizing prev with
  | nil => rfl
  | cons b rest ih =>
    obtain ⟨hprev, hrest⟩ := List.pairwise_cons.mp rising
    obtain ⟨hlow, hhigh⟩ := inside b List.mem_cons_self
    have hle : prev ≤ b := hprev b List.mem_cons_self
    refine check_bind (by omega) ?_
    exact ih hrest fun b' hb' => inside b' (List.mem_cons_of_mem b hb')

/-- Both lists of bits are tight, in the words of the round trip. -/
structure State.Tight (state : State) : Prop where
  justifiedSlots : state.justifiedSlots.Tight
  justificationsValidators : state.justificationsValidators.Tight

private theorem State.decodeSszChecked_encodeSsz (fits : state.Fits) (tight : state.Tight)
    (roundTrips : codec.RoundTrips state) (short : (state.encodeSsz codec).length < 2 ^ 32) :
    State.decodeSszChecked codec (state.encodeSsz codec) = .ok state.readBack := by
  have hvalidators : LimitedList.decode codec Validator.decodeSsz true none
      validatorRegistryLimit
      (codec.encodeElements (state.validators.items.map Validator.encodeSsz)) =
        .ok state.readBack.validators := by
    rw [LimitedList.decode, SszList.decode, roundTrips.validators]
    have hitems := decodeElements_map fun validator hmem =>
      Validator.decodeSsz_encodeSsz (fits.validators validator hmem)
    rw [hitems]
    exact dif_pos state.readBack.validators.bounded
  rw [State.encodeSsz_eq] at short ⊢
  simp only [List.flatten_cons, List.flatten_nil, List.length_append, length_leBytes,
    BlockHeader.length_encodeSsz, Checkpoint.length_encodeSsz, List.length_nil] at short
  refine check_bind ?_ ?_
  · simp
    omega
  refine part_bind (k := 0) rfl rfl (by simp)
    (Config.decodeSszChecked_leBytes fits.genesisTime) ?_
  refine part_bind (k := 1) rfl (by simp) (by simp)
    (Slot.decodeSszChecked_leBytes fits.slot) ?_
  refine part_bind (k := 2) rfl (by simp) (by simp)
    (BlockHeader.decodeSszChecked_encodeSsz fits.headerSlot fits.proposerIndex) ?_
  refine part_bind (k := 3) rfl (by simp) (by simp)
    (Checkpoint.decodeSszChecked_encodeSsz fits.justified) ?_
  refine part_bind (k := 4) rfl (by simp) (by simp)
    (Checkpoint.decodeSszChecked_encodeSsz fits.finalized) ?_
  refine readU32_part_bind (k := 5) rfl (by simp) (by omega) ?_
  refine readU32_part_bind (k := 6) rfl (by simp) (by omega) ?_
  refine readU32_part_bind (k := 7) rfl (by simp) (by omega) ?_
  refine readU32_part_bind (k := 8) rfl (by simp) (by omega) ?_
  refine readU32_part_bind (k := 9) rfl (by simp) (by omega) ?_
  refine check_bind (by simp) ?_
  refine bind_ok.mpr ⟨(), checkStateOffsets_ok ?_ ?_, ?_⟩
  · simp
    omega
  · simp
    omega
  refine part_bind (k := 10) rfl (by simp) (by simp)
    (roundTrips.historicalBlockHashes true) ?_
  refine part_bind (k := 11) rfl (by simp; omega) (by simp)
    (roundTrips.justifiedSlots tight.justifiedSlots true) ?_
  refine part_bind (k := 12) rfl (by simp; omega) (by simp) hvalidators ?_
  refine part_bind (k := 13) rfl (by simp; omega) (by simp)
    (roundTrips.justificationsRoots true) ?_
  exact part_bind (k := 14) rfl (by simp; omega) (by simp; omega)
    (roundTrips.justificationsValidators tight.justificationsValidators true) rfl

/-- The state codec, over every state and every byte string. -/
theorem stateCodec_roundTrip (codec : StateEncoder) (agrees : codec.toSszCodec.Agrees) :
    (∀ state : State, state.Fits → state.Tight → codec.RoundTrips state →
      (state.encodeSsz codec).length < 2 ^ 32 →
        State.decodeSsz codec (state.encodeSsz codec) = .ok state.readBack ∧
        State.decodeSszChecked codec (state.encodeSsz codec) = .ok state.readBack ∧
        state.readBack.hashTreeRoot codec = state.hashTreeRoot codec) ∧
      ∀ bytes state, State.decodeSszChecked codec bytes = .ok state →
        State.decodeSsz codec bytes = .ok state := by
  refine ⟨fun state fits tight roundTrips short => ?_, fun bytes state =>
    State.decodeSsz_of_checked agrees⟩
  have checked := State.decodeSszChecked_encodeSsz fits tight roundTrips short
  exact ⟨State.decodeSsz_of_checked agrees checked, checked,
    State.hashTreeRoot_readBack codec state⟩

private theorem layoutEncoder_agrees : layoutEncoder.toSszCodec.Agrees := ⟨id, id⟩

/-- Three validators with balances, two known roots, one of them voted on by the third. -/
def votedState : State :=
  { generateGenesis sampleSsz 7 threeValidators with
    slot := 4
    validators := ⟨(List.range 3).map fun i => ⟨BitVec.ofNat 416 (i + 1), i, 32⟩, by decide⟩
    historicalBlockHashes := ⟨[5#256, 6#256], by decide⟩
    justifiedSlots := ⟨[1#8], 2⟩
    justificationsRoots := ⟨[6#256], by decide⟩
    justificationsValidators := ⟨[4#8], 3⟩ }

private theorem votedState_fits : votedState.Fits where
  genesisTime := by decide
  slot := by decide
  headerSlot := by decide
  proposerIndex := by decide
  justified := by decide
  finalized := by decide
  validators := by decide

private theorem BitList.tight_byte {limit len : Nat} {byte : Byte} (hlen : (len + 7) / 8 = 1)
    (clear : ∀ j < 8, len ≤ j → byte.getLsbD j = false) :
    (⟨[byte], len⟩ : BitList limit).Tight where
  bytes := hlen.symm
  clear j hj := by
    rcases Nat.lt_or_ge j 8 with hlt | hge
    · rw [Packed.bitAt_cons_zero byte [] hlt]
      exact clear j hlt hj
    · exact Packed.bitAt_of_length_le hge

private theorem votedState_tight : votedState.Tight where
  justifiedSlots := BitList.tight_byte (by decide) (by decide)
  justificationsValidators := BitList.tight_byte (by decide) (by decide)

private theorem votedState_roundTrips : layoutEncoder.RoundTrips votedState where
  historicalBlockHashes := by decide +kernel
  justifiedSlots := fun _ => by decide +kernel
  validators := by decide +kernel
  justificationsRoots := by decide +kernel
  justificationsValidators := fun _ => by decide +kernel

/-- A state with votes and balances is read back by both decoders, and the balances are gone. -/
theorem stateCodec_roundTrip_voted :
    State.decodeSsz layoutEncoder (votedState.encodeSsz layoutEncoder) =
        .ok votedState.readBack ∧
      State.decodeSszChecked layoutEncoder (votedState.encodeSsz layoutEncoder) =
        .ok votedState.readBack ∧
      votedState.readBack ≠ votedState := by
  have roundTrip := (stateCodec_roundTrip layoutEncoder layoutEncoder_agrees).1 votedState
    votedState_fits votedState_tight votedState_roundTrips (by decide +kernel)
  exact ⟨roundTrip.1, roundTrip.2.1, by decide +kernel⟩

end Peam
