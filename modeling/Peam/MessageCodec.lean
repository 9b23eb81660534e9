import Peam.ReqResp
import Peam.StateCodec

/-!
# Encoders of the block requests and responses

`BlocksByRootRequest` and `BlocksByRootResponse` (`src/containers/req_resp.rs`): one list behind one
offset. Their decoders are in `Peam.ReqResp`.
-/

namespace Peam

open Packed (Byte)
open Calls (Outcome)

/-- `BlocksByRootRequest::encode_ssz`. -/
def BlocksByRootRequest.encodeSsz (codec : StateEncoder)
    (roots : SszList Bytes32 maxBlocksPerRootRequest) : List Byte :=
  [leBytes 4 4, codec.encodeRoots roots.items].flatten

/-- `BlocksByRootResponse::encode_ssz`. A block without one proposer has no encoding. -/
def BlocksByRootResponse.encodeSsz (codec : SszEncoder)
    (blocks : SszList SignedBlockWithAttestation maxBlocksPerRequest) : Outcome (List Byte) := do
  let pieces ← blocks.items.mapM (·.encodeSsz codec)
  .ok [leBytes 4 4, codec.encodeElements pieces].flatten

end Peam
