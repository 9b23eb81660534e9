import Peam.Signing

/-!
# Merging bit lists in memory

`merge_aggregation_bits` (`src/node/head.rs`) as it touches its two buffers: eight bytes at a time
through raw pointers, then the tail through checked indices. A read or write that leaves its buffer
is undefined behaviour in the source and `none` here. The bytes of a word are in the order of the
machine.
-/

namespace Peam

open Packed

inductive ByteOrder where
  | little
  | big
  deriving DecidableEq

/-- The word that eight bytes in memory stand for. -/
def ByteOrder.word : ByteOrder → List Byte → Nat
  | .little, bytes => natOfLeBytes bytes
  | .big, bytes => natOfBytes bytes

/-- The bytes a word leaves in memory. -/
def ByteOrder.bytes : ByteOrder → Nat → List Byte
  | .little, word => leBytes 8 word
  | .big, word => (leBytes 8 word).reverse

variable (order : ByteOrder)

/-- `(ptr.add(off) as *const u64).read_unaligned()`. -/
def readUnaligned (buffer : List Byte) (off : Nat) : Option Nat :=
  if off + 8 ≤ buffer.length then some (order.word ((buffer.drop off).take 8)) else none

/-- `(ptr.add(off) as *mut u64).write_unaligned(word)`. -/
def writeUnaligned (buffer : List Byte) (off word : Nat) : Option (List Byte) :=
  if off + 8 ≤ buffer.length then
    some (buffer.take off ++ order.bytes word ++ buffer.drop (off + 8))
  else none

/-- One turn of the loop over words. -/
def mergeChunk (src dst : List Byte) (i : Nat) : Option (List Byte) := do
  let off := i * 8
  let d ← readUnaligned order dst off
  let s ← readUnaligned order src off
  writeUnaligned order dst off (d ||| s)

/-- One turn of the loop over the tail, `dst.data[i] |= src.data[i]`. -/
def mergeTailByte (src dst : List Byte) (i : Nat) : Option (List Byte) := do
  let d ← dst[i]?
  let s ← src[i]?
  return dst.set i (d ||| s)

/-- `merge_aggregation_bits`, access by access. -/
def mergeAggregationBitsRaw (dst src : BitList validatorRegistryLimit) :
    Option (BitList validatorRegistryLimit) := do
  let targetLen := max dst.len src.len
  let data := grow dst.data ((targetLen + 7) / 8)
  let mergeTailBytes := min src.data.length data.length
  let fullChunks := mergeTailBytes / 8
  let data ← (List.range fullChunks).foldlM (mergeChunk order src.data) data
  let tail := fullChunks * 8
  let data ← (List.range' tail (mergeTailBytes - tail)).foldlM (mergeTailByte src.data) data
  return { data, len := targetLen }

end Peam
