import Peam.Lib.Bits
import Peam.Lib.Outcome

/-!
# Primitive types

The types of `src/types/` and the part of the `peam-ssz` crate the containers lean on.

A slot, an index and every other `u64` is a natural number; where the source subtracts without a
guard the wrap of the release build is written out (`subU64`). Fixed byte arrays are bit vectors
read big-endian, so the lexicographic order of `as_array` is the numeric order.

`Ssz` collects what the crate itself supplies: the merkleization functions and the text of its
over-limit error. A result that needs something of them (that two headers of a run have different
roots, say) has it as a premise.
-/

namespace Peam

open Packed (Byte)
open Calls (Outcome)

/-- `u64` subtraction of the release build: it wraps below zero. -/
def subU64 (a b : Nat) : Nat :=
  if b ≤ a then a - b else a + 2 ^ 64 - b

/-- Without underflow the wrapped subtraction is the subtraction. -/
theorem subU64_eq {a b : Nat} (h : b ≤ a) : subU64 a b = a - b := if_pos h

/-- A 32-byte root. -/
abbrev Bytes32 := BitVec 256

/- What is asked of every member is asked of one after the other; there are too many roots to go
through them all. -/
section Members

variable {α : Type} {p : α → Prop} [DecidablePred p]

instance decidableForallMem (items : List α) :
    Decidable (∀ item ∈ items, p item) := List.decidableBAll p items

instance decidableExistsMem (items : List α) :
    Decidable (∃ item ∈ items, p item) := List.decidableBEx p items

instance decidableForallFound (found : Option α) :
    Decidable (∀ item ∈ found, p item) := found.decidableForallMem

instance decidableExistsFound (found : Option α) :
    Decidable (∃ item ∈ found, p item) := found.decidableExistsMem

end Members

/-- A 52-byte XMSS public key. -/
abbrev Bytes52 := BitVec 416

/-- A 3112-byte XMSS signature. -/
abbrev Bytes3112 := BitVec 24896

instance Bytes32.lawfulBEq : LawfulBEq Bytes32 := inferInstance

/-- `Bytes32::zero()`. -/
def Bytes32.zero : Bytes32 := 0#256

/-- A byte string read as one big-endian number. -/
def natOfBytes (bytes : List Byte) : Nat :=
  bytes.foldl (fun acc b => acc * 256 + b.toNat) 0

/-- `n.to_le_bytes()` on `len` bytes. -/
def leBytes (len n : Nat) : List Byte :=
  (List.range len).map fun i => BitVec.ofNat 8 (n >>> (8 * i))

/-- `from_le_bytes`: the least significant byte comes first. -/
def natOfLeBytes (bytes : List Byte) : Nat :=
  bytes.foldr (fun b acc => b.toNat + 256 * acc) 0

/-- `HashTreeRoot for Uint64`: the eight little-endian bytes, padded with zeros to 32. -/
def uint64Root (n : Nat) : Bytes32 :=
  BitVec.ofNat 256 (natOfBytes (leBytes 8 n ++ List.replicate 24 0#8))

/-- `BitList<LIMIT>`: the byte string and the declared number of bits. The source writes both
fields directly, so neither is assumed to fit the other. -/
structure BitList (limit : Nat) where
  data : List Byte
  len : Nat
  deriving DecidableEq

/-- `BitList::default()`. -/
def BitList.default {limit : Nat} : BitList limit := ⟨[], 0⟩

/-- Bit `i` is set: it lies below the declared length and the byte string carries it. -/
def BitList.get {limit : Nat} (bits : BitList limit) (i : Nat) : Bool :=
  decide (i < bits.len) && Packed.bitAt bits.data i

/-- `SszList<T, LIMIT>`. A list read by a decoder that trusts its input may be longer than the
limit. -/
structure SszList (α : Type) (limit : Nat) where
  items : List α
  deriving DecidableEq

/-- A list within its limit. -/
structure LimitedList (α : Type) (limit : Nat) where
  items : List α
  bounded : items.length ≤ limit
  deriving DecidableEq

/-- `SszList::default()`. -/
def SszList.empty {α : Type} {limit : Nat} : SszList α limit := ⟨[]⟩

def LimitedList.empty {α : Type} {limit : Nat} : LimitedList α limit := ⟨[], Nat.zero_le limit⟩

/-- The parts of `peam-ssz` the containers call. -/
structure Ssz where
  /-- `merkleize` over a container's field roots. -/
  merkleize : List Bytes32 → Bytes32
  /-- `merkleize_tree_root`, the padded tree of the block header. -/
  merkleizeTreeRoot : List Bytes32 → Bytes32
  /-- `hash_nodes`, one inner node. -/
  hashNodes : Bytes32 → Bytes32 → Bytes32
  /-- `SszList::hash_tree_root`, from the limit and the element roots. -/
  listRoot : Nat → List Bytes32 → Bytes32
  /-- `BitList::hash_tree_root`, from the limit, the bytes and the bit length. -/
  bitListRoot : Nat → List Byte → Nat → Bytes32
  /-- The error text of a list that would outgrow its limit. -/
  limitError : Nat → String

variable (ssz : Ssz)

/-- `SszList::new`. -/
def LimitedList.new {α : Type} (limit : Nat) (items : List α) : Outcome (LimitedList α limit) :=
  if h : items.length ≤ limit then .ok ⟨items, h⟩ else .error (.err (ssz.limitError limit))

/-- `SszList::new`, for a list of which the limit is not remembered. -/
def SszList.new {α : Type} (limit : Nat) (items : List α) : Outcome (SszList α limit) :=
  (LimitedList.new ssz limit items).map fun list => ⟨list.items⟩

/-- `SszList::push`. -/
def LimitedList.push {α : Type} {limit : Nat} (list : LimitedList α limit) (x : α) :
    Outcome (LimitedList α limit) :=
  LimitedList.new ssz limit (list.items ++ [x])

/-- `SszList::extend_copy`: `add` copies of one value. -/
def LimitedList.extendCopy {α : Type} {limit : Nat} (list : LimitedList α limit) (add : Nat)
    (x : α) : Outcome (LimitedList α limit) :=
  LimitedList.new ssz limit (list.items ++ List.replicate add x)

section New

variable {α : Type} {limit : Nat} {items : List α}

/-- A list built by `SszList::new` holds exactly the given items. -/
theorem LimitedList.new_ok {list : LimitedList α limit}
    (built : LimitedList.new ssz limit items = .ok list) : list.items = items := by
  unfold LimitedList.new at built
  split at built
  · cases built
    rfl
  · cases built

/-- `SszList::new` succeeds on every list within the limit. -/
theorem LimitedList.new_of_le (h : items.length ≤ limit) :
    LimitedList.new ssz limit items = .ok ⟨items, h⟩ := dif_pos h

/-- `SszList::new` succeeds on the lists within the limit alone, and holds the given items. -/
theorem SszList.new_eq_ok {list : SszList α limit} :
    SszList.new ssz limit items = .ok list ↔ items.length ≤ limit ∧ list = ⟨items⟩ := by
  unfold SszList.new LimitedList.new
  split <;> simp_all [Except.map, eq_comm]

end New

end Peam
