import Peam.Encode

/-!
# The state's codec

`State::encode_ssz` and the decoder that trusts its input (`src/containers/state.rs`); the checked
decoder is in `Peam.Decode`. The fixed part has eleven fields and five offsets, 228 bytes in all,
and the five lists follow in the order of the offsets.

Each `write_bytes_at` covers the range between its neighbours, so the buffer is the list of the
written parts, in order.
-/

namespace Peam

open Packed (Byte)
open Calls (Outcome)
open Calls.Outcome (slice)

/-- The list encoders a state needs. -/
structure StateEncoder extends SszEncoder where
  /-- `SszList::encode_ssz` of roots, which have a fixed length. -/
  encodeRoots : List Bytes32 → List Byte

instance : Coe StateEncoder SszEncoder := ⟨StateEncoder.toSszEncoder⟩

def BlockHeader.encodeSsz (header : BlockHeader) : List Byte :=
  [leBytes 8 header.slot, leBytes 8 header.proposerIndex, asRef 32 header.parentRoot,
    asRef 32 header.stateRoot, asRef 32 header.bodyRoot].flatten

/-- `Validator::encode_ssz`. The balance is not written. -/
def Validator.encodeSsz (validator : Validator) : List Byte :=
  [asRef 52 validator.pubkey, leBytes 8 validator.index].flatten

/-- `State::encode_ssz`. The header and the two checkpoints are written field by field. -/
def State.encodeSsz (codec : StateEncoder) (state : State) : List Byte :=
  let fixedLen := 8 + 8 + 112 + 40 + 40
  let offsetsLen := 4 * 5
  let hist := codec.encodeRoots state.historicalBlockHashes.items
  let justified := codec.encodeBitList _ state.justifiedSlots
  let validators := codec.encodeElements (state.validators.items.map Validator.encodeSsz)
  let roots := codec.encodeRoots state.justificationsRoots.items
  let justValidators := codec.encodeBitList _ state.justificationsValidators
  let offset0 := fixedLen + offsetsLen
  let offset1 := offset0 + hist.length
  let offset2 := offset1 + justified.length
  let offset3 := offset2 + validators.length
  let offset4 := offset3 + roots.length
  [leBytes 8 state.config.genesisTime, leBytes 8 state.slot,
    leBytes 8 state.latestBlockHeader.slot, leBytes 8 state.latestBlockHeader.proposerIndex,
    asRef 32 state.latestBlockHeader.parentRoot, asRef 32 state.latestBlockHeader.stateRoot,
    asRef 32 state.latestBlockHeader.bodyRoot,
    asRef 32 state.latestJustified.root, leBytes 8 state.latestJustified.slot,
    asRef 32 state.latestFinalized.root, leBytes 8 state.latestFinalized.slot,
    leBytes 4 offset0, leBytes 4 offset1, leBytes 4 offset2, leBytes 4 offset3, leBytes 4 offset4,
    hist, justified, validators, roots, justValidators].flatten

/-- `State::decode_ssz`. -/
def State.decodeSsz (codec : SszCodec) (bytes : List Byte) : Outcome State := do
  let config ← slice bytes 0 8 >>= Config.decodeSsz
  let slot ← slice bytes 8 16 >>= Slot.decodeSsz
  let latestBlockHeader ← slice bytes 16 128 >>= BlockHeader.decodeSsz
  let latestJustified ← slice bytes 128 168 >>= Checkpoint.decodeSsz
  let latestFinalized ← slice bytes 168 208 >>= Checkpoint.decodeSsz
  let b0 ← readU32 bytes 208
  let b1 ← readU32 bytes 212
  let b2 ← readU32 bytes 216
  let b3 ← readU32 bytes 220
  let b4 ← readU32 bytes 224
  let scope := bytes.length
  let historicalBlockHashes ← slice bytes b0 b1 >>=
    LimitedList.decode codec codec.bytes32 false (some 32) historicalRootsLimit
  let justifiedSlots ← slice bytes b1 b2 >>= codec.bitList false historicalRootsLimit
  let validators ← slice bytes b2 b3 >>=
    LimitedList.decode codec Validator.decodeSsz false none validatorRegistryLimit
  let justificationsRoots ← slice bytes b3 b4 >>=
    LimitedList.decode codec codec.bytes32 false (some 32) historicalRootsLimit
  let justificationsValidators ←
    slice bytes b4 scope >>= codec.bitList false justificationValidatorsLimit
  .ok
    { config, slot, latestBlockHeader, latestJustified, latestFinalized, historicalBlockHashes,
      justifiedSlots, validators, justificationsRoots, justificationsValidators }

end Peam
