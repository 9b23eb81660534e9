import Peam.Decode
import Peam.Sample

/-!
# Which bytes make a checked decoder panic

Three kinds of record are read by a decoder that trusts them: an attestation, an aggregate proof and
a validator. `Framed` is the exact condition under which such a record is read without a panic. A
container is `Framed` when every such record its decoder comes to is: its own offset checks, and
records that fail with an error, keep it from the ones behind.

Reads of fixed parts go through `Outcome.Needs`: they return when the buffer has the room, and the
length check at the head of the decoder is what provides it.
-/

namespace Peam

open Packed (Byte)
open Calls (Outcome)
open Calls.Outcome (Total Needs slice needs_slice_bind total_slice_bind total_bind total_bind_ok
  total_sliceFrom_bind total_ok total_failIf_bind)

variable {lo : Nat} {β : Type}

/-! ## Fixed parts -/

private theorem needs_uint64 (bytes : List Byte) :
    Needs (Uint64.decodeSsz bytes) (bytes.length = 8) :=
  (Outcome.needs_copyFromSlice 8 bytes).map

private theorem needs_fromSlice (len width : Nat) (bytes : List Byte) :
    Needs (fromSlice len width bytes) (len ≤ bytes.length) :=
  (Outcome.needs_slice bytes 0 len).map.congr (by omega)

section

variable (bytes : List Byte)

include bytes

/-- The number of a field of eight bytes. -/
theorem needs_number (lo hi : Nat) (h : hi = lo + 8) :
    Needs (slice bytes lo hi >>= Uint64.decodeSsz) (hi ≤ bytes.length) :=
  needs_slice_bind (by omega) fun piece hp => (needs_uint64 piece).returns (by omega)

/-- A byte array needs its bytes. -/
theorem needs_bytes (lo hi len width : Nat) (h : hi = lo + len) :
    Needs (slice bytes lo hi >>= fromSlice len width) (hi ≤ bytes.length) :=
  needs_slice_bind (by omega) fun piece hp =>
    (needs_fromSlice len width piece).returns (by omega)

private theorem needs_config :
    Needs (Config.decodeSsz bytes) (bytes.length = 8) :=
  (needs_uint64 bytes).map

private theorem needs_checkpoint :
    Needs (Checkpoint.decodeSsz bytes) (40 ≤ bytes.length) :=
  ((needs_bytes bytes 0 32 32 256 rfl).bind fun _ _ => (needs_number bytes 32 40 rfl).map).congr
    (by omega)

private theorem needs_checkpointAt (lo hi : Nat) (h : hi = lo + 40) :
    Needs (slice bytes lo hi >>= Checkpoint.decodeSsz) (hi ≤ bytes.length) :=
  needs_slice_bind (by omega) fun piece hp => (needs_checkpoint piece).returns (by omega)

/-- Attestation data has a fixed length. -/
theorem needs_attestationData :
    Needs (AttestationData.decodeSsz bytes) (attestationDataLen ≤ bytes.length) := by
  have read := (needs_number bytes 0 8 rfl).bind fun slot _ =>
    (needs_checkpointAt bytes 8 48 rfl).bind fun head _ =>
    (needs_checkpointAt bytes 48 88 rfl).bind fun target _ =>
    (needs_checkpointAt bytes 88 128 rfl).map
      (g := fun source => (⟨slot, head, target, source⟩ : AttestationData))
  refine Needs.congr read ?_
  unfold attestationDataLen
  omega

private theorem needs_header :
    Needs (BlockHeader.decodeSsz bytes) (112 ≤ bytes.length) := by
  have read := (needs_number bytes 0 8 rfl).bind fun slot _ =>
    (needs_number bytes 8 16 rfl).bind fun proposerIndex _ =>
    (needs_bytes bytes 16 48 32 256 rfl).bind fun parentRoot _ =>
    (needs_bytes bytes 48 80 32 256 rfl).bind fun stateRoot _ =>
    (needs_bytes bytes 80 112 32 256 rfl).map
      (g := fun bodyRoot => (⟨slot, proposerIndex, parentRoot, stateRoot, bodyRoot⟩ : BlockHeader))
  exact Needs.congr read (by omega)

end

variable {bytes : List Byte}

/-- A checked decoder of fixed size is the trusting one on input of that size. -/
theorem decodeFixedChecked_eq {α : Type} {name : String} {len : Nat}
    {decode : List Byte → Outcome α} (h : bytes.length = len) :
    decodeFixedChecked name len decode bytes = decode bytes := by
  rw [decodeFixedChecked, Outcome.failIf, if_neg (fun hne => hne h)]
  rfl

private theorem needs_fixedChecked {α : Type} (name : String) {decode : List Byte → Outcome α}
    {len : Nat} (reads : ∀ piece, piece.length = len → ∃ a, decode piece = .ok a)
    (bytes : List Byte) (lo hi : Nat) (h : hi = lo + len) :
    Needs (slice bytes lo hi >>= decodeFixedChecked name len decode)
      (hi ≤ bytes.length) := by
  refine needs_slice_bind (by omega) fun piece hp => ?_
  rw [decodeFixedChecked_eq (by omega)]
  exact reads piece (by omega)

/-! ## Offsets -/

/-- The offset stored at `lo`. -/
def offsetAt (bytes : List Byte) (lo : Nat) : Nat :=
  natOfLeBytes ((bytes.take (lo + 4)).drop lo)

/-- An offset inside the bytes is read. -/
theorem readU32_eq (h : lo + 4 ≤ bytes.length) :
    readU32 bytes lo = .ok (offsetAt bytes lo) := by
  have range : lo ≤ lo + 4 ∧ lo + 4 ≤ bytes.length := ⟨by omega, h⟩
  have hs := Outcome.slice_ok range
  have hl := (Outcome.length_slice hs).1
  have hc : Outcome.copyFromSlice 4 ((bytes.take (lo + 4)).drop lo) =
      .ok ((bytes.take (lo + 4)).drop lo) := if_pos (by omega)
  simp only [readU32, hs, hc, bind, Except.bind, offsetAt]

/-- An offset is read, and the rest does not panic on it. -/
theorem total_readU32_bind {f : Nat → Outcome β} :
    Total (readU32 bytes lo >>= f) ↔
      lo + 4 ≤ bytes.length ∧ Total (f (offsetAt bytes lo)) := by
  by_cases h : lo + 4 ≤ bytes.length
  · rw [readU32_eq h]
    exact ⟨fun total => ⟨h, total⟩, And.right⟩
  · have needs : Needs (readU32 bytes lo) (lo + 4 ≤ bytes.length) :=
      needs_slice_bind (by omega) fun piece hp =>
        (Outcome.needs_copyFromSlice 4 piece).map.returns (by omega)
    exact ⟨fun total => absurd total (needs.not_total_bind h), fun hr => absurd hr.1 h⟩

/-- An offset the buffer has room for is read, and decides what follows. -/
theorem total_readU32 {f : Nat → Outcome β} (h : lo + 4 ≤ bytes.length) :
    Total (readU32 bytes lo >>= f) ↔ Total (f (offsetAt bytes lo)) := by
  rw [total_readU32_bind, and_iff_right h]

/-! ## Records a decoder trusts -/

/-- The offset of an attestation leaves room for the data before it and lies in the buffer. -/
def Attestation.Framed (bytes : List Byte) : Prop :=
  4 + attestationDataLen ≤ offsetAt bytes 0 ∧ offsetAt bytes 0 ≤ bytes.length
  deriving Decidable

/-- The two offsets of an aggregate proof are ordered and lie in the buffer. -/
def AggregatedSignatureProof.Framed (bytes : List Byte) : Prop :=
  8 ≤ bytes.length ∧ offsetAt bytes 0 ≤ offsetAt bytes 4 ∧ offsetAt bytes 4 ≤ bytes.length
  deriving Decidable

def Validator.Framed (bytes : List Byte) : Prop := 60 ≤ bytes.length
  deriving Decidable

variable {codec : SszCodec} (lawful : codec.Lawful)

include lawful in
/-- No panic exactly on framed bytes. -/
theorem Attestation.total_decodeSsz (bytes : List Byte) :
    Total (Attestation.decodeSsz codec bytes) ↔ Attestation.Framed bytes := by
  unfold Attestation.decodeSsz Attestation.Framed
  rw [total_readU32_bind, bind_assoc, total_slice_bind]
  -- The offset ends the range of the data, so its room is a condition on the offset.
  have room := needs_attestationData ((bytes.take (offsetAt bytes 0)).drop 4)
  rw [List.length_drop, List.length_take] at room
  constructor
  · rintro ⟨-, range, total⟩
    have := room.total.mp (total_bind.mp total).1
    omega
  · rintro ⟨low, high⟩
    have fits : attestationDataLen ≤ min (offsetAt bytes 0) bytes.length - 4 := by omega
    refine ⟨by omega, ⟨by omega, high⟩, (room.total_bind fits fun data _ => ?_).mpr high⟩
    rw [total_bind_ok, total_sliceFrom_bind]
    exact ⟨And.left, fun h => ⟨h, lawful.bitList_total _ _ _⟩⟩

include lawful in
/-- No panic exactly on framed bytes. -/
theorem AggregatedSignatureProof.total_decodeSsz (bytes : List Byte) :
    Total (AggregatedSignatureProof.decodeSsz codec bytes) ↔
      AggregatedSignatureProof.Framed bytes := by
  unfold AggregatedSignatureProof.decodeSsz AggregatedSignatureProof.Framed
  rw [total_readU32_bind, total_readU32_bind, bind_assoc, total_slice_bind,
    total_bind]
  constructor
  · rintro ⟨-, h8, range, -⟩
    exact ⟨h8, range⟩
  · rintro ⟨h8, range⟩
    refine ⟨by omega, h8, range, lawful.bitList_total _ _ _, fun participants _ => ?_⟩
    rw [total_bind_ok, total_sliceFrom_bind]
    exact ⟨range.2, total_ok _⟩

private theorem Validator.total_decodeSsz (bytes : List Byte) :
    Total (Validator.decodeSsz bytes) ↔ Validator.Framed bytes := by
  have read := (needs_bytes bytes 0 52 52 416 rfl).bind fun pubkey _ =>
    (needs_number bytes 52 60 rfl).map
      (g := fun index => (⟨pubkey, index, 0⟩ : Validator))
  have room : (52 ≤ bytes.length ∧ 60 ≤ bytes.length) ↔ Validator.Framed bytes := by
    unfold Validator.Framed
    omega
  exact (read.congr room).total

/-! ## Lists -/

/-- Every element is framed, up to the first whose decoder fails with an error. -/
def FramedUntil {α : Type} (decode : List Byte → Outcome α) (framed : List Byte → Prop) :
    List (List Byte) → Prop
  | [] => True
  | piece :: rest => framed piece ∧ ((decode piece).isOk = true → FramedUntil decode framed rest)

instance FramedUntil.decidable {α : Type} (decode : List Byte → Outcome α)
    (framed : List Byte → Prop) [DecidablePred framed] :
    (pieces : List (List Byte)) → Decidable (FramedUntil decode framed pieces)
  | [] => .isTrue trivial
  | piece :: rest =>
    have : Decidable (FramedUntil decode framed rest) := FramedUntil.decidable decode framed rest
    inferInstanceAs (Decidable (framed piece ∧ (_ → FramedUntil decode framed rest)))

theorem forall_ok_iff {α : Type} {x : Outcome α} {p : Prop} :
    (∀ a, x = .ok a → p) ↔ (x.isOk = true → p) := by
  cases x with
  | error e => exact ⟨fun _ h => absurd h Bool.false_ne_true, nofun⟩
  | ok a => exact ⟨fun h _ => h a rfl, fun h _ _ => h rfl⟩

section Elements

variable {α : Type} {decode : List Byte → Outcome α} {framed : List Byte → Prop}

private theorem total_decodeElements (exact_ : ∀ piece, Total (decode piece) ↔ framed piece)
    (pieces : List (List Byte)) :
    Total (decodeElements decode pieces) ↔ FramedUntil decode framed pieces := by
  induction pieces with
  | nil => exact ⟨fun _ => trivial, fun _ => total_ok _⟩
  | cons piece rest ih =>
    rw [decodeElements, total_bind, exact_, FramedUntil, ← forall_ok_iff]
    simp only [total_bind_ok, ih]

/-- **A list decoder panics exactly where an element does.** -/
theorem total_listDecode (exact_ : ∀ piece, Total (decode piece) ↔ framed piece)
    (checked : Bool) (fixedLen : Option Nat) (limit : Nat) (bytes : List Byte) :
    Total (SszList.decode codec decode checked fixedLen limit bytes) ↔
      FramedUntil decode framed (codec.elements checked fixedLen limit bytes).1 := by
  rw [← total_decodeElements exact_, SszList.decode, total_bind]
  refine ⟨And.left, fun total => ⟨total, fun items _ => ?_⟩⟩
  -- After the elements only the crate's own errors are left.
  split
  · exact Outcome.total_err _
  · exact total_ok _

private theorem total_limitedDecode (exact_ : ∀ piece, Total (decode piece) ↔ framed piece)
    (checked : Bool) (fixedLen : Option Nat) (limit : Nat) (bytes : List Byte) :
    Total (LimitedList.decode codec decode checked fixedLen limit bytes) ↔
      FramedUntil decode framed (codec.elements checked fixedLen limit bytes).1 := by
  rw [← total_listDecode exact_, LimitedList.decode, total_bind]
  refine and_iff_left fun list _ => ?_
  unfold LimitedList.new
  split
  · exact total_ok _
  · exact Outcome.total_err _

/-- Elements that are all framed. -/
theorem framedUntil_of_forall {pieces : List (List Byte)} (all : ∀ piece, framed piece) :
    FramedUntil decode framed pieces := by
  induction pieces with
  | nil => trivial
  | cons piece rest ih => exact ⟨all piece, fun _ => ih⟩

end Elements

/-! ## Containers

Each condition reads like the head of its decoder: the length and offset checks come first, as
premises, and then the parts. -/

section Containers

variable (codec) (bytes : List Byte)

def SignedAggregatedAttestation.Framed : Prop :=
  attestationDataLen + 4 ≤ bytes.length →
    attestationDataLen + 4 ≤ offsetAt bytes attestationDataLen ∧
      offsetAt bytes attestationDataLen ≤ bytes.length →
    AggregatedSignatureProof.Framed (bytes.drop (offsetAt bytes attestationDataLen))

def BlockBody.Framed : Prop :=
  4 ≤ bytes.length → offsetAt bytes 0 = 4 →
    FramedUntil (Attestation.decodeSsz codec) Attestation.Framed
      (codec.elements true none attestationsLimit (bytes.drop 4)).1
  deriving Decidable

def Block.Framed : Prop :=
  84 ≤ bytes.length → offsetAt bytes 80 = 84 → BlockBody.Framed codec (bytes.drop 84)
  deriving Decidable

/-- The message in the layout of the `ream` client, which carries its attestation inline. -/
def ReamFramed : Prop :=
  140 ≤ bytes.length → offsetAt bytes 0 = 140 →
    natOfLeBytes ((bytes.take 12).drop 4) < validatorRegistryLimit →
    Block.Framed codec (bytes.drop 140)
  deriving Decidable

/-- The message with an attestation of its own. It is read after the block, and only if it has the
length of a fixed part. -/
def OffsetFramed : Prop :=
  Block.Framed codec ((bytes.take (offsetAt bytes 4)).drop 8) ∧
    ((Block.decodeSszChecked codec ((bytes.take (offsetAt bytes 4)).drop 8)).isOk = true →
      4 + attestationDataLen ≤ (bytes.drop (offsetAt bytes 4)).length →
      Attestation.Framed (bytes.drop (offsetAt bytes 4)))
  deriving Decidable

/-- The offsets of the first layout are in order; other bytes are tried as the second. -/
def OffsetLayout : Prop :=
  offsetAt bytes 0 = 8 ∧ 8 ≤ offsetAt bytes 4 ∧ offsetAt bytes 4 ≤ bytes.length
  deriving Decidable

def BlockWithAttestation.Framed : Prop :=
  8 ≤ bytes.length →
    (OffsetLayout bytes → OffsetFramed codec bytes) ∧
      (¬ OffsetLayout bytes → ReamFramed codec bytes)
  deriving Decidable

def BlockSignatures.Framed : Prop :=
  4 + 3112 ≤ bytes.length → offsetAt bytes 0 = 4 + 3112 →
    FramedUntil (AggregatedSignatureProof.decodeSsz codec) AggregatedSignatureProof.Framed
      (codec.elements true none attestationsLimit (bytes.drop (4 + 3112))).1
  deriving Decidable

/-- The signatures are read after the message. -/
def SignedBlockWithAttestation.Framed : Prop :=
  8 ≤ bytes.length → offsetAt bytes 0 = 8 →
    8 ≤ offsetAt bytes 4 ∧ offsetAt bytes 4 ≤ bytes.length →
    BlockWithAttestation.Framed codec ((bytes.take (offsetAt bytes 4)).drop 8) ∧
      ((BlockWithAttestation.decodeSszChecked codec
        ((bytes.take (offsetAt bytes 4)).drop 8)).isOk = true →
        BlockSignatures.Framed codec (bytes.drop (offsetAt bytes 4)))
  deriving Decidable

/-- Offsets in order from `prev` on, inside the variable part. -/
def OffsetsFrom (fixedEnd scope : Nat) : Nat → List Nat → Prop
  | _, [] => True
  | prev, b :: rest => (fixedEnd ≤ b ∧ prev ≤ b ∧ b ≤ scope) ∧ OffsetsFrom fixedEnd scope b rest

/-- The five offsets of a state are ordered and lie in the buffer. -/
def StateOffsets : Prop :=
  228 ≤ bytes.length ∧ offsetAt bytes 208 = 228 ∧ 228 ≤ offsetAt bytes 212 ∧
    offsetAt bytes 212 ≤ offsetAt bytes 216 ∧ offsetAt bytes 216 ≤ offsetAt bytes 220 ∧
    offsetAt bytes 220 ≤ offsetAt bytes 224 ∧ offsetAt bytes 224 ≤ bytes.length

/-- The registry of a state is read after its history and its justified slots. -/
def State.Framed : Prop :=
  StateOffsets bytes →
    (LimitedList.decode codec codec.bytes32 true (some 32) historicalRootsLimit
      ((bytes.take (offsetAt bytes 212)).drop 228)).isOk = true →
    (codec.bitList true historicalRootsLimit
      ((bytes.take (offsetAt bytes 216)).drop (offsetAt bytes 212))).isOk = true →
    FramedUntil Validator.decodeSsz Validator.Framed
      (codec.elements true none validatorRegistryLimit
        ((bytes.take (offsetAt bytes 220)).drop (offsetAt bytes 216))).1

end Containers

section Exact

variable (bytes : List Byte)

include lawful

private theorem SignedAggregatedAttestation.total_decodeSszChecked :
    Total (SignedAggregatedAttestation.decodeSszChecked codec bytes) ↔
      SignedAggregatedAttestation.Framed bytes := by
  unfold SignedAggregatedAttestation.decodeSszChecked SignedAggregatedAttestation.Framed
  rw [total_failIf_bind]
  refine imp_congr_ctx (by omega) fun hlen => ?_
  rw [total_readU32 hlen, total_failIf_bind]
  refine imp_congr_ctx (by omega) fun hoff => ?_
  -- The trusting decoder reads the same offset again.
  have data : Needs (slice bytes 0 attestationDataLen >>= AttestationData.decodeSsz)
      (attestationDataLen ≤ bytes.length) :=
    needs_slice_bind (by omega) fun piece hp =>
      (needs_attestationData piece).returns (by omega)
  refine data.total_bind (by omega) fun _ _ => ?_
  rw [total_readU32 hlen, total_bind_ok, total_sliceFrom_bind,
    and_iff_right hoff.2, AggregatedSignatureProof.total_decodeSsz lawful]

private theorem BlockBody.total_decodeSszChecked :
    Total (BlockBody.decodeSszChecked codec bytes) ↔ BlockBody.Framed codec bytes := by
  unfold BlockBody.decodeSszChecked BlockBody.Framed
  rw [total_failIf_bind]
  refine imp_congr_ctx (by omega) fun hlen => ?_
  rw [total_readU32 hlen, total_failIf_bind]
  refine imp_congr_ctx (by omega) fun hoff => ?_
  rw [hoff, total_bind_ok, total_sliceFrom_bind, and_iff_right hlen,
    total_listDecode (Attestation.total_decodeSsz lawful)]

private theorem Block.total_decodeSszChecked :
    Total (Block.decodeSszChecked codec bytes) ↔ Block.Framed codec bytes := by
  unfold Block.decodeSszChecked Block.Framed
  rw [total_failIf_bind]
  refine imp_congr_ctx (by omega) fun hlen => ?_
  refine (needs_number bytes 0 8 rfl).total_bind (by omega) fun _ _ => ?_
  refine (needs_number bytes 8 16 rfl).total_bind (by omega) fun _ _ => ?_
  refine (needs_bytes bytes 16 48 32 256 rfl).total_bind (by omega) fun _ _ => ?_
  refine (needs_bytes bytes 48 80 32 256 rfl).total_bind (by omega) fun _ _ => ?_
  rw [total_readU32 (by omega), total_failIf_bind]
  refine imp_congr_ctx (by omega) fun hoff => ?_
  rw [hoff, total_bind_ok, total_sliceFrom_bind, and_iff_right hlen,
    BlockBody.total_decodeSszChecked lawful]

omit lawful in
/-- The indexed write lies in the bit string made for it, so only the registry limit can stop the
proposer's attestation. -/
theorem total_reamParts_bind {validatorId : Nat} {data : AttestationData}
    {f : Attestation → Outcome β} {p : Prop} (next : ∀ att, Total (f att) ↔ p) :
    Total (proposerAttestationFromReamParts validatorId data >>= f) ↔
      (validatorId < validatorRegistryLimit → p) := by
  unfold proposerAttestationFromReamParts
  rw [bind_assoc, total_failIf_bind]
  refine imp_congr_ctx (by omega) fun _ => ?_
  have write := Outcome.needs_update (List.replicate ((validatorId + 1 + 7) / 8) 0#8)
    (validatorId / 8) fun byte => byte ||| (1#8 <<< (validatorId % 8))
  rw [List.length_replicate] at write
  rw [bind_assoc]
  exact write.total_bind (by omega) fun bits _ => next _

private theorem total_decodeReam :
    Total (decodeReamBlockWithAttestation codec bytes true) ↔ ReamFramed codec bytes := by
  unfold decodeReamBlockWithAttestation ReamFramed
  rw [total_failIf_bind]
  refine imp_congr_ctx (by unfold attestationDataLen; omega) fun hlen => ?_
  rw [total_readU32 (by omega), total_failIf_bind]
  refine imp_congr_ctx (by simp only [attestationDataLen, true_and]; omega) fun hoff => ?_
  -- The second offset check repeats the first, and the two fixed ranges lie below the offset.
  rw [total_failIf_bind, hoff, imp_iff_right (by unfold attestationDataLen; omega),
    total_slice_bind, and_iff_right (by omega), total_failIf_bind,
    imp_iff_right (by simp only [List.length_drop, List.length_take]; omega)]
  have data := needs_fixedChecked "AttestationData"
    (fun piece hp => (needs_attestationData piece).returns (Nat.le_of_eq hp.symm)) bytes 12
    (12 + attestationDataLen) rfl
  refine data.total_bind (by unfold attestationDataLen; omega) fun _ _ => ?_
  refine total_reamParts_bind fun _ => ?_
  rw [total_bind_ok, total_sliceFrom_bind, and_iff_right hlen]
  exact Block.total_decodeSszChecked lawful _

/-- No panic exactly on framed bytes. -/
theorem BlockWithAttestation.total_decodeSszChecked :
    Total (BlockWithAttestation.decodeSszChecked codec bytes) ↔
      BlockWithAttestation.Framed codec bytes := by
  unfold BlockWithAttestation.decodeSszChecked BlockWithAttestation.Framed
  rw [total_failIf_bind]
  refine imp_congr_ctx (by omega) fun hlen => ?_
  rw [total_readU32 (by omega), total_readU32 (by omega)]
  by_cases hoff : OffsetLayout bytes
  · rw [imp_iff_right hoff, and_iff_left fun other => absurd hoff other]
    unfold OffsetLayout at hoff
    rw [if_neg (by omega), hoff.1, bind_assoc, total_slice_bind, and_iff_right hoff.2,
      total_bind, Block.total_decodeSszChecked lawful]
    unfold OffsetFramed
    rw [← forall_ok_iff]
    refine and_congr_right fun _ => forall_congr' fun block => imp_congr_right fun _ => ?_
    rw [total_bind_ok, total_sliceFrom_bind, and_iff_right hoff.2.2,
      Attestation.decodeSszChecked, total_failIf_bind, Nat.not_lt,
      Attestation.total_decodeSsz lawful]
  · rw [imp_iff_right hoff, and_iff_right fun first => absurd first hoff]
    unfold OffsetLayout at hoff
    rw [if_pos (by omega)]
    exact total_decodeReam lawful bytes

private theorem BlockSignatures.total_decodeSszChecked :
    Total (BlockSignatures.decodeSszChecked codec bytes) ↔
      BlockSignatures.Framed codec bytes := by
  unfold BlockSignatures.decodeSszChecked BlockSignatures.Framed
  rw [total_failIf_bind]
  refine imp_congr_ctx (by omega) fun hlen => ?_
  rw [total_readU32 (by omega), total_failIf_bind]
  refine imp_congr_ctx (by omega) fun hoff => ?_
  refine (needs_bytes bytes 4 (4 + 3112) 3112 24896 rfl).total_bind hlen fun _ _ => ?_
  rw [hoff, total_bind_ok, total_sliceFrom_bind, and_iff_right hlen,
    total_listDecode (AggregatedSignatureProof.total_decodeSsz lawful)]

private theorem SignedBlockWithAttestation.total_decodeSszChecked :
    Total (SignedBlockWithAttestation.decodeSszChecked codec bytes) ↔
      SignedBlockWithAttestation.Framed codec bytes := by
  unfold SignedBlockWithAttestation.decodeSszChecked SignedBlockWithAttestation.Framed
  rw [total_failIf_bind]
  refine imp_congr_ctx (by omega) fun hlen => ?_
  rw [total_readU32 (by omega), total_readU32 (by omega), total_failIf_bind, ← and_imp]
  refine imp_congr_ctx (by omega) fun hoff => ?_
  rw [hoff.1, bind_assoc, total_slice_bind, and_iff_right hoff.2, total_bind,
    BlockWithAttestation.total_decodeSszChecked lawful, ← forall_ok_iff]
  refine and_congr_right fun _ => forall_congr' fun message => imp_congr_right fun _ => ?_
  rw [total_bind_ok, total_sliceFrom_bind, and_iff_right hoff.2.2,
    BlockSignatures.total_decodeSszChecked lawful]

omit lawful in
/-- The loop over a state's offsets, as a condition on them. -/
private theorem total_checkStateOffsets_bind {fixedEnd scope : Nat} {f : Unit → Outcome β}
    (prev : Nat) (bounds : List Nat) : Total (checkStateOffsets fixedEnd scope prev bounds >>= f) ↔
      (OffsetsFrom fixedEnd scope prev bounds → Total (f ())) := by
  induction bounds generalizing prev with
  | nil => exact ⟨fun total _ => total, fun total => total trivial⟩
  | cons b rest ih =>
    rw [checkStateOffsets, bind_assoc, total_failIf_bind, ih, OffsetsFrom, and_imp]
    exact imp_congr_left (by omega)

private theorem State.total_decodeSszChecked :
    Total (State.decodeSszChecked codec bytes) ↔ State.Framed codec bytes := by
  unfold State.decodeSszChecked State.Framed StateOffsets
  rw [total_failIf_bind, and_imp]
  refine imp_congr_ctx (by omega) fun hlen => ?_
  have config := needs_fixedChecked "Config" (fun piece hp => (needs_config piece).returns hp)
    bytes 0 8 rfl
  refine config.total_bind (by omega) fun _ _ => ?_
  have slot := needs_fixedChecked "Slot" (fun piece hp => (needs_uint64 piece).returns hp)
    bytes 8 16 rfl
  refine slot.total_bind (by omega) fun _ _ => ?_
  have header := needs_fixedChecked "BlockHeader"
    (fun piece hp => (needs_header piece).returns (Nat.le_of_eq hp.symm)) bytes 16 128 rfl
  refine header.total_bind (by omega) fun _ _ => ?_
  have checkpoint := needs_fixedChecked "Checkpoint"
    (fun piece hp => (needs_checkpoint piece).returns (Nat.le_of_eq hp.symm)) bytes
  refine (checkpoint 128 168 rfl).total_bind (by omega) fun _ _ => ?_
  refine (checkpoint 168 208 rfl).total_bind (by omega) fun _ _ => ?_
  rw [total_readU32 (by omega), total_readU32 (by omega), total_readU32 (by omega),
    total_readU32 (by omega), total_readU32 (by omega), total_failIf_bind, and_imp]
  refine imp_congr_ctx (by omega) fun hfirst => ?_
  rw [total_checkStateOffsets_bind]
  refine imp_congr_ctx (by simp only [OffsetsFrom, hfirst, and_true]; omega) fun hoff => ?_
  have roots : ∀ piece, Total (LimitedList.decode codec codec.bytes32 true (some 32)
      historicalRootsLimit piece) := fun piece =>
    (total_limitedDecode (fun p => iff_true_intro (lawful.bytes32_total p)) _ _ _ _).mpr
      (framedUntil_of_forall fun _ => trivial)
  rw [hfirst, bind_assoc, total_slice_bind, and_iff_right (by omega), total_bind,
    and_iff_right (roots _), ← forall_ok_iff]
  refine forall_congr' fun hashes => imp_congr_right fun _ => ?_
  rw [bind_assoc, total_slice_bind, and_iff_right (by omega), total_bind,
    and_iff_right (lawful.bitList_total _ _ _), ← forall_ok_iff]
  refine forall_congr' fun justified => imp_congr_right fun _ => ?_
  rw [bind_assoc, total_slice_bind, and_iff_right (by omega), total_bind,
    total_limitedDecode Validator.total_decodeSsz]
  -- Nothing behind the registry can panic any more.
  refine and_iff_left fun validators _ => ?_
  rw [bind_assoc, total_slice_bind, total_bind]
  refine ⟨by omega, roots _, fun pending _ => ?_⟩
  rw [total_bind_ok, total_slice_bind]
  exact ⟨by omega, lawful.bitList_total _ _ _⟩

end Exact

/-! ## The three checked decoders -/

include lawful in
/-- **The checked decoders panic exactly on misframed records.** -/
theorem checkedDecoders_total_iff (bytes : List Byte) :
    (Total (SignedBlockWithAttestation.decodeSszChecked codec bytes) ↔
        SignedBlockWithAttestation.Framed codec bytes) ∧
      (Total (SignedAggregatedAttestation.decodeSszChecked codec bytes) ↔
        SignedAggregatedAttestation.Framed bytes) ∧
      (Total (State.decodeSszChecked codec bytes) ↔ State.Framed codec bytes) :=
  ⟨SignedBlockWithAttestation.total_decodeSszChecked lawful bytes,
    SignedAggregatedAttestation.total_decodeSszChecked lawful bytes,
    State.total_decodeSszChecked lawful bytes⟩

/-- A crate that takes a non-empty list to have one element. -/
def oneElementCodec : SszCodec where
  toSsz := sampleSsz
  elements _ _ _ bytes := (if bytes.isEmpty then [] else [bytes], none)
  bitList _ _ bytes := .ok ⟨bytes, 8 * bytes.length⟩
  bytes32 bytes := .ok (BitVec.ofNat 256 (natOfBytes bytes))

theorem oneElementCodec_lawful : oneElementCodec.Lawful where
  bitList_total _ _ _ := total_ok _
  bytes32_total _ := total_ok _

/-- An attestation with the given offset and nothing set but one byte of bits. -/
def attestationBytes (offset : Nat) : List Byte :=
  leBytes 4 offset ++ List.replicate attestationDataLen 0#8 ++ [3#8]

/-- A block around the bytes of its attestations. -/
def blockBytes (attestations : List Byte) : List Byte :=
  List.replicate 80 0#8 ++ leBytes 4 84 ++ leBytes 4 4 ++ attestations

/-- A signed block in the layout with two offsets. -/
def signedBytes (block proposer signatures : List Byte) : List Byte :=
  let message := leBytes 4 8 ++ leBytes 4 (8 + block.length) ++ block ++ proposer
  leBytes 4 8 ++ leBytes 4 (8 + message.length) ++ message ++ signatures

/-- One attestation, its proof, the proposer's attestation and a zero signature. -/
def framedBytes : List Byte :=
  signedBytes (blockBytes (attestationBytes 132)) (attestationBytes 132)
    (leBytes 4 3116 ++ List.replicate 3112 0#8 ++ leBytes 4 8 ++ leBytes 4 9 ++ [3#8, 0#8])

/-- The law at bytes that are framed. -/
theorem checkedDecoders_total_framedBytes :
    Total (SignedBlockWithAttestation.decodeSszChecked oneElementCodec framedBytes) :=
  (checkedDecoders_total_iff oneElementCodec_lawful framedBytes).1.mpr (by decide +kernel)

/-- **All three panic**: on a block of 236 bytes whose proposer attestation has offset 0, on an
aggregate whose proof is empty, and on a state whose registry holds a validator of four bytes. -/
theorem checkedDecoders_panic :
    SignedBlockWithAttestation.decodeSszChecked oneElementCodec
        (signedBytes (blockBytes []) (List.replicate 132 0#8) []) =
      .error (.panicked "slice index out of range") ∧
    SignedAggregatedAttestation.decodeSszChecked oneElementCodec
        (List.replicate attestationDataLen 0#8 ++ leBytes 4 132) =
      .error (.panicked "slice index out of range") ∧
    State.decodeSszChecked oneElementCodec
        (List.replicate 208 0#8 ++ leBytes 4 228 ++ leBytes 4 228 ++ leBytes 4 229 ++
          leBytes 4 233 ++ leBytes 4 233 ++ [1#8] ++ leBytes 4 4 ++ [1#8]) =
      .error (.panicked "slice index out of range") := by
  decide +kernel

end Peam
