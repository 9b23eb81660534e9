import Peam.ReqResp
import Peam.Laws.Decode

/-!
# Which payloads make a request or response decoder panic

The trusting decoders have no checks of their own, so what the checked ones ask of an input as a
premise (`Framed`) is asked here outright: `Fits` is the exact condition for a trusting decoder to
return. An empty payload fits none of the protocols.
-/

namespace Peam

open Packed (Byte)
open Calls (Outcome)
open Calls.Outcome (Total Needs total_bind_ok total_sliceFrom_bind total_failIf_bind total_ok
  total_err total_map)

/-! ## Blocks -/

section Fits

variable (codec : SszCodec) (bytes : List Byte)

def BlockBody.Fits : Prop :=
  4 ≤ bytes.length ∧ offsetAt bytes 0 ≤ bytes.length ∧
    FramedUntil (Attestation.decodeSsz codec) Attestation.Framed
      (codec.elements false none attestationsLimit (bytes.drop (offsetAt bytes 0))).1
  deriving Decidable

def Block.Fits : Prop :=
  84 ≤ bytes.length ∧ offsetAt bytes 80 ≤ bytes.length ∧
    BlockBody.Fits codec (bytes.drop (offsetAt bytes 80))
  deriving Decidable

/-- The layout of the `ream` client keeps its checks in the trusting decoder. -/
def ReamFits : Prop :=
  140 ≤ bytes.length → 140 ≤ offsetAt bytes 0 ∧ offsetAt bytes 0 ≤ bytes.length →
    natOfLeBytes ((bytes.take 12).drop 4) < validatorRegistryLimit →
    Block.Fits codec (bytes.drop (offsetAt bytes 0))
  deriving Decidable

/-- The trusting decoder takes the first layout whenever the two offsets are in order. -/
def OffsetsOrdered : Prop :=
  offsetAt bytes 0 ≤ offsetAt bytes 4 ∧ offsetAt bytes 4 ≤ bytes.length
  deriving Decidable

def BlockWithAttestation.Fits : Prop :=
  8 ≤ bytes.length →
    (OffsetsOrdered bytes →
      Block.Fits codec ((bytes.take (offsetAt bytes 4)).drop (offsetAt bytes 0)) ∧
        ((Block.decodeSsz codec
          ((bytes.take (offsetAt bytes 4)).drop (offsetAt bytes 0))).isOk = true →
          Attestation.Framed (bytes.drop (offsetAt bytes 4)))) ∧
      (¬ OffsetsOrdered bytes → ReamFits codec bytes)
  deriving Decidable

def BlockSignatures.Fits : Prop :=
  4 + 3112 ≤ bytes.length ∧ offsetAt bytes 0 ≤ bytes.length ∧
    FramedUntil (AggregatedSignatureProof.decodeSsz codec) AggregatedSignatureProof.Framed
      (codec.elements false none attestationsLimit (bytes.drop (offsetAt bytes 0))).1
  deriving Decidable

def SignedBlockWithAttestation.Fits : Prop :=
  8 ≤ bytes.length ∧ OffsetsOrdered bytes ∧
    BlockWithAttestation.Fits codec ((bytes.take (offsetAt bytes 4)).drop (offsetAt bytes 0)) ∧
      ((BlockWithAttestation.decodeSsz codec
        ((bytes.take (offsetAt bytes 4)).drop (offsetAt bytes 0))).isOk = true →
        BlockSignatures.Fits codec (bytes.drop (offsetAt bytes 4)))
  deriving Decidable

end Fits

section Exact

variable {codec : SszCodec} (lawful : codec.Lawful) (bytes : List Byte)

include lawful

private theorem BlockBody.total_decodeSsz :
    Total (BlockBody.decodeSsz codec bytes) ↔ BlockBody.Fits codec bytes := by
  unfold BlockBody.decodeSsz BlockBody.Fits
  rw [total_readU32_bind, total_bind_ok, total_sliceFrom_bind,
    total_listDecode (Attestation.total_decodeSsz lawful)]

private theorem Block.total_decodeSsz :
    Total (Block.decodeSsz codec bytes) ↔ Block.Fits codec bytes := by
  have read : Total (Block.decodeSsz codec bytes) ↔ 8 ≤ bytes.length ∧ 16 ≤ bytes.length ∧
      48 ≤ bytes.length ∧ 80 ≤ bytes.length ∧ Block.Fits codec bytes := by
    unfold Block.decodeSsz Block.Fits
    refine (needs_number bytes 0 8 rfl).total_bind_iff fun _ _ => ?_
    refine (needs_number bytes 8 16 rfl).total_bind_iff fun _ _ => ?_
    refine (needs_bytes bytes 16 48 32 256 rfl).total_bind_iff fun _ _ => ?_
    refine (needs_bytes bytes 48 80 32 256 rfl).total_bind_iff fun _ _ => ?_
    rw [total_readU32_bind, total_bind_ok, total_sliceFrom_bind,
      BlockBody.total_decodeSsz lawful]
  rw [read]
  constructor
  · rintro ⟨-, -, -, -, fits⟩
    exact fits
  · intro fits
    have room := fits.1
    exact ⟨by omega, by omega, by omega, by omega, fits⟩

private theorem total_decodeReamTrusting :
    Total (decodeReamBlockWithAttestation codec bytes false) ↔ ReamFits codec bytes := by
  unfold decodeReamBlockWithAttestation ReamFits
  rw [total_failIf_bind]
  refine imp_congr_ctx (by unfold attestationDataLen; omega) fun hlen => ?_
  -- The first offset check is only made by the checked variant.
  rw [total_readU32 (by omega), total_failIf_bind, imp_iff_right (by simp),
    total_failIf_bind]
  refine imp_congr_ctx (by unfold attestationDataLen; omega) fun hoff => ?_
  rw [Outcome.total_slice_bind, and_iff_right (by omega), total_failIf_bind,
    imp_iff_right (by simp only [List.length_drop, List.length_take]; omega)]
  have data : Needs (Outcome.slice bytes 12 (12 + attestationDataLen) >>=
      AttestationData.decodeSsz) (12 + attestationDataLen ≤ bytes.length) :=
    Outcome.needs_slice_bind (by omega) fun piece hp =>
      (needs_attestationData piece).returns (by omega)
  refine data.total_bind (by unfold attestationDataLen; omega) fun _ _ => ?_
  refine total_reamParts_bind fun _ => ?_
  rw [total_bind_ok, total_sliceFrom_bind, and_iff_right hoff.2]
  exact Block.total_decodeSsz lawful _

private theorem BlockWithAttestation.total_decodeSsz :
    Total (BlockWithAttestation.decodeSsz codec bytes) ↔
      BlockWithAttestation.Fits codec bytes := by
  unfold BlockWithAttestation.decodeSsz BlockWithAttestation.Fits
  rw [total_failIf_bind]
  refine imp_congr_ctx (by omega) fun hlen => ?_
  rw [total_readU32 (by omega), total_readU32 (by omega)]
  by_cases ordered : OffsetsOrdered bytes
  · rw [imp_iff_right ordered, and_iff_left fun other => absurd ordered other]
    unfold OffsetsOrdered at ordered
    rw [if_pos ordered, bind_assoc, Outcome.total_slice_bind, and_iff_right ordered,
      Outcome.total_bind, Block.total_decodeSsz lawful, ← forall_ok_iff]
    refine and_congr_right fun _ => forall_congr' fun block => imp_congr_right fun _ => ?_
    rw [total_bind_ok, total_sliceFrom_bind, and_iff_right ordered.2,
      Attestation.total_decodeSsz lawful]
  · rw [imp_iff_right ordered, and_iff_right fun first => absurd first ordered]
    unfold OffsetsOrdered at ordered
    rw [if_neg ordered]
    exact total_decodeReamTrusting lawful bytes

private theorem BlockSignatures.total_decodeSsz :
    Total (BlockSignatures.decodeSsz codec bytes) ↔ BlockSignatures.Fits codec bytes := by
  have read : Total (BlockSignatures.decodeSsz codec bytes) ↔
      4 ≤ bytes.length ∧ BlockSignatures.Fits codec bytes := by
    unfold BlockSignatures.decodeSsz BlockSignatures.Fits
    rw [total_readU32_bind]
    refine and_congr_right fun _ => ?_
    refine (needs_bytes bytes 4 (4 + 3112) 3112 24896 rfl).total_bind_iff fun _ _ => ?_
    rw [total_bind_ok, total_sliceFrom_bind,
      total_listDecode (AggregatedSignatureProof.total_decodeSsz lawful)]
  rw [read]
  exact and_iff_right_of_imp fun fits => by have := fits.1; omega

private theorem SignedBlockWithAttestation.total_decodeSsz :
    Total (SignedBlockWithAttestation.decodeSsz codec bytes) ↔
      SignedBlockWithAttestation.Fits codec bytes := by
  have read : Total (SignedBlockWithAttestation.decodeSsz codec bytes) ↔
      4 ≤ bytes.length ∧ SignedBlockWithAttestation.Fits codec bytes := by
    unfold SignedBlockWithAttestation.decodeSsz SignedBlockWithAttestation.Fits OffsetsOrdered
    rw [total_readU32_bind, total_readU32_bind, bind_assoc, Outcome.total_slice_bind,
      Outcome.total_bind, BlockWithAttestation.total_decodeSsz lawful, ← forall_ok_iff]
    refine and_congr_right fun _ => and_congr_right fun _ => and_congr_right fun ordered => ?_
    refine and_congr_right fun _ => forall_congr' fun message => imp_congr_right fun _ => ?_
    rw [total_bind_ok, total_sliceFrom_bind, and_iff_right ordered.2,
      BlockSignatures.total_decodeSsz lawful]
  rw [read]
  exact and_iff_right_of_imp fun fits => by have := fits.1; omega

end Exact

/-! ## Messages -/

/-- A container of one list: its offset lies in the buffer, and its elements fit. -/
def OneListFits {α : Type} (codec : SszCodec) (decode : List Byte → Outcome α)
    (fits : List Byte → Prop) (fixedLen : Option Nat) (limit : Nat) (bytes : List Byte) : Prop :=
  4 ≤ bytes.length ∧ offsetAt bytes 0 ≤ bytes.length ∧
    FramedUntil decode fits
      (codec.elements false fixedLen limit (bytes.drop (offsetAt bytes 0))).1

/-- A blocks response is read as one signed block; when that is an error, as a list of them. -/
def BlocksResponseFits (codec : SszCodec) (data : List Byte) : Prop :=
  SignedBlockWithAttestation.Fits codec data ∧
    ((SignedBlockWithAttestation.decodeSsz codec data).isOk = false →
      OneListFits codec (SignedBlockWithAttestation.decodeSsz codec)
        (SignedBlockWithAttestation.Fits codec) none maxBlocksPerRequest data)

def RequestFits (protocol : LeanSupportedProtocol) (data : List Byte) : Prop :=
  match protocol with
  | .statusV1 => 80 ≤ data.length
  | .blocksByRangeV1 => 24 ≤ data.length
  | .blocksByRootV1 => 4 ≤ data.length ∧ offsetAt data 0 ≤ data.length

def ResponseFits (codec : SszCodec) (protocol : LeanSupportedProtocol) (data : List Byte) : Prop :=
  match protocol with
  | .statusV1 => 80 ≤ data.length
  | .blocksByRangeV1 => BlocksResponseFits codec data
  | .blocksByRootV1 => BlocksResponseFits codec data

private theorem needs_status (bytes : List Byte) :
    Needs (Status.decodeSsz bytes) (80 ≤ bytes.length) := by
  have read := (needs_bytes bytes 0 32 32 256 rfl).bind fun finalizedRoot _ =>
    (needs_number bytes 32 40 rfl).bind fun finalizedSlot _ =>
    (needs_bytes bytes 40 72 32 256 rfl).bind fun headRoot _ =>
    (needs_number bytes 72 80 rfl).map
      (g := fun headSlot => (⟨finalizedRoot, finalizedSlot, headRoot, headSlot⟩ : Status))
  exact Needs.congr read (by omega)

private theorem needs_rangeRequest (bytes : List Byte) :
    Needs (BlocksByRangeRequest.decodeSsz bytes) (24 ≤ bytes.length) := by
  have read := (needs_number bytes 0 8 rfl).bind fun startSlot _ =>
    (needs_number bytes 8 16 rfl).bind fun count _ =>
    (needs_number bytes 16 24 rfl).map
      (g := fun step => (⟨startSlot, count, step⟩ : BlocksByRangeRequest))
  exact Needs.congr read (by omega)

/-- The second attempt matters only when the first was an error. -/
private theorem total_orOnError {α : Type} {first second : Outcome α} :
    Total (orOnError first second) ↔ Total first ∧ (first.isOk = false → Total second) := by
  cases first with
  | ok a =>
    refine iff_of_true (total_ok a) ⟨total_ok a, fun h => ?_⟩
    cases h
  | error failure =>
    cases failure with
    | err text => exact ⟨fun h => ⟨total_err text, fun _ => h⟩, fun h => h.2 rfl⟩
    | panicked text => exact iff_of_false (fun h => h text rfl) fun h => h.1 text rfl

private theorem total_decodeOneList {α : Type} {codec : SszCodec} {decode : List Byte → Outcome α}
    {fits : List Byte → Prop} (decode_total : ∀ piece, Total (decode piece) ↔ fits piece)
    (fixedLen : Option Nat) (limit : Nat) (bytes : List Byte) :
    Total (decodeOneList codec decode fixedLen limit bytes) ↔
      OneListFits codec decode fits fixedLen limit bytes := by
  unfold decodeOneList OneListFits
  rw [total_readU32_bind, total_sliceFrom_bind, total_listDecode decode_total]

section Messages

variable {codec : SszCodec} (lawful : codec.Lawful)

include lawful

/-- A list of roots is read by the crate alone. -/
theorem total_rootList (bytes : List Byte) :
    Total (SszList.decode codec codec.bytes32 false (some 32) maxBlocksPerRootRequest bytes) :=
  (total_listDecode (fun p => iff_true_intro (lawful.bytes32_total p)) _ _ _ _).mpr
    (framedUntil_of_forall fun _ => trivial)

/-- A request of roots panics on its first offset only. -/
theorem total_rootRequest (data : List Byte) :
    Total (decodeBlocksByRootRequestCompat codec data) ↔
      4 ≤ data.length ∧ offsetAt data 0 ≤ data.length := by
  unfold decodeBlocksByRootRequestCompat BlocksByRootRequest.decodeSsz
  rw [total_orOnError, and_iff_left fun _ => total_rootList lawful data, decodeOneList,
    total_readU32_bind, total_sliceFrom_bind, and_iff_left (total_rootList lawful _)]

private theorem total_blocksResponse (name : String) (data : List Byte) :
    Total (decodeBlocksResponseCompat codec name (decodeOneList codec
      (SignedBlockWithAttestation.decodeSsz codec) none maxBlocksPerRequest) data) ↔
      BlocksResponseFits codec data := by
  unfold decodeBlocksResponseCompat BlocksResponseFits
  rw [total_orOnError, SignedBlockWithAttestation.total_decodeSsz lawful,
    ← total_decodeOneList (SignedBlockWithAttestation.total_decodeSsz lawful)]
  refine and_congr_right fun _ => imp_congr_right fun _ => ?_
  -- Whatever the list decoder returns, only its panics are passed on.
  cases decodeOneList codec (SignedBlockWithAttestation.decodeSsz codec) none
      maxBlocksPerRequest data with
  | ok blocks =>
    refine iff_of_true ?_ (total_ok blocks)
    dsimp only
    split
    · exact total_ok _
    · exact total_err _
  | error failure =>
    cases failure with
    | err text => exact iff_of_true (total_err _) (total_err _)
    | panicked text => exact iff_of_false (fun h => h text rfl) fun h => h text rfl

/-- **The message decoders panic exactly on payloads that do not fit.** -/
theorem messageDecoders_total_iff (protocol : LeanSupportedProtocol) (data : List Byte) :
    (Total (LeanRequestMessage.decodeSsz codec protocol data) ↔ RequestFits protocol data) ∧
      (Total (LeanResponseMessage.decodeSsz codec protocol data) ↔
        ResponseFits codec protocol data) := by
  cases protocol with
  | statusV1 =>
    exact ⟨total_map.trans (needs_status data).total,
      total_map.trans (needs_status data).total⟩
  | blocksByRangeV1 =>
    exact ⟨total_map.trans (needs_rangeRequest data).total,
      total_map.trans (total_blocksResponse lawful "BlocksByRange" data)⟩
  | blocksByRootV1 =>
    exact ⟨total_map.trans (total_rootRequest lawful data),
      total_map.trans (total_blocksResponse lawful "BlocksByRoot" data)⟩

end Messages

/-- The law at a response that is framed. -/
theorem messageDecoders_total_framedBytes :
    Total (LeanResponseMessage.decodeSsz oneElementCodec .blocksByRootV1 framedBytes) :=
  (messageDecoders_total_iff oneElementCodec_lawful .blocksByRootV1 framedBytes).2.mpr
    ⟨by decide +kernel, fun failed => absurd failed (by decide +kernel)⟩

/-- **An empty payload panics a request and a response decoder.** -/
theorem messageDecoders_panic :
    LeanRequestMessage.decodeSsz oneElementCodec .statusV1 [] =
        .error (.panicked "slice index out of range") ∧
      LeanResponseMessage.decodeSsz oneElementCodec .blocksByRootV1 [] =
        .error (.panicked "slice index out of range") :=
  ⟨rfl, rfl⟩

end Peam
