import Fz.Terms.Heap

/-!
# Heap objects as the collector sees them

An object carries what the collector reads, copies and rewrites: the values in its slots, the alias
flag of a list cell, the link of a stub in the chain of off-heap owners.  Byte offsets inside an
object are modelled only where they matter to the collector: its size, and its first two words,
which is where a collection leaves its forwarding mark (`Object.word0`, `Object.word1`).

Fields of a struct stand one after the other in schema order, as `tuple_of_arity` and `named_struct`
lay them out, so a struct object holds one slot for each field of its schema.  Maps are published
ones: an unfinished destination is never live at a collection.
-/

namespace Fz.Gc

open Fz.Terms (ValueKind AnyValue F64 FieldSlot)

/-! ## Tags and words -/

def tagFwd : Nat := 8

/-- The tag of a kind.  No kind has the forwarding tag. -/
def tag : ValueKind → Nat
  | .null => 0
  | .list => 1
  | .map => 2
  | .struct => 3
  | .closure => 4
  | .bitstring => 5
  | .procbin => 6
  | .resource => 7
  | .int => 13
  | .float => 14
  | .atom => 15

def isHeap : ValueKind → Bool
  | .list | .map | .struct | .closure | .bitstring | .procbin | .resource => true
  | .null | .int | .float | .atom => false

/-- The bit pattern of a float. -/
def floatBits (x : F64) : Nat := x.negative.toNat * 2 ^ 63 + x.exponent * 2 ^ 52 + x.fraction

/-- The word a value is stored as, next to its kind. -/
def raw : AnyValue → Nat
  | .null | .emptyList => 0
  | .int n => n.toUInt64.toNat
  | .float x => floatBits x
  | .atom id => id
  | .heapRef _ a => a

/-- The word in eight bytes, lowest byte first; bytes that are not there are zero. -/
def leWord (bytes : List UInt8) : Nat := (bytes.take 8).foldr (fun b word => b.toNat + 256 * word) 0

def leBytes (word : Nat) : List UInt8 := (List.range 8).map fun i => UInt8.ofNat (word / 256 ^ i)

/-! ## Objects -/

inductive Object where
  | cons (head : AnyValue) (tail : Nat) (aliased : Bool)
  | map (entries : List (AnyValue × AnyValue))
  | struct (schemaId : Nat) (slots : List FieldSlot)
  | closure (denotationId arity haltKind code : Nat) (captures : List AnyValue)
  | bitstring (bitLen : Nat) (bytes : List UInt8)
  | procbin (shared : Nat) (msoNext : Nat) (byteOffset : Nat)
  | resource (shared : Nat) (dtor : AnyValue) (msoNext : Nat)
  /-- A boxed scalar: a word that a scalar reference points at. -/
  | scalar (word : Nat)
  deriving DecidableEq

/-- The bytes a field takes in its struct. -/
def slotBytes : FieldSlot → List UInt8
  | .value v => leBytes (raw v)
  | .rawI64 n => leBytes n.toUInt64.toNat
  | .rawF64 x => leBytes (floatBits x)
  | .rawBytes bytes => bytes

/-- The value in a field the collector traces. -/
def slotValue? : FieldSlot → Option AnyValue
  | .value v => some v
  | _ => none

/-- The kind byte of a map entry. -/
def mapPackTag (entry : AnyValue × AnyValue) : UInt8 :=
  UInt8.ofNat (tag entry.1.kind * 16 + tag entry.2.kind)

def closureHeaderWord (captured haltKind arity : Nat) : Nat :=
  captured + haltKind * 2 ^ 14 + arity * 2 ^ 16

/-- The second word of a list cell: the tail, the kind of the head and the alias flag. -/
def listLink (head : AnyValue) (tail : Nat) (aliased : Bool) : Nat :=
  tail + tag head.kind * 2 ^ 57 + aliased.toNat * 2 ^ 61

def resourceStubMagic : Nat := 0xF75E5012CE570B0B

namespace Object

/-- The payload of a struct: its fields, then the kinds of its values. -/
def payloadBytes (slots : List FieldSlot) : List UInt8 :=
  slots.flatMap slotBytes ++
    (slots.filterMap slotValue?).map fun v => UInt8.ofNat (tag v.kind)

def word0 : Object → Nat
  | cons head _ _ => raw head
  | map entries => entries.length
  | struct schemaId _ => schemaId
  | closure denotationId arity haltKind _ captures =>
    denotationId + closureHeaderWord captures.length haltKind arity * 2 ^ 32
  | bitstring bitLen _ => bitLen
  | procbin shared _ _ => shared
  | resource shared _ _ => shared
  | scalar word => word

def word1 : Object → Nat
  | cons head tail aliased => listLink head tail aliased
  | map entries => leWord (entries.map mapPackTag)
  | struct _ slots => leWord (payloadBytes slots)
  | closure _ _ _ code _ => code
  | bitstring _ bytes => leWord bytes
  | procbin _ msoNext _ => msoNext
  | resource _ _ _ => resourceStubMagic
  | scalar _ => 0

def hasKind : Object → ValueKind → Bool
  | cons .., .list => true
  | map .., .map => true
  | struct .., .struct => true
  | closure .., .closure => true
  | bitstring .., .bitstring => true
  | procbin .., .procbin => true
  | resource .., .resource => true
  | _, _ => false

/-! ## Sizes -/

/-- Round up to a multiple of `n`. -/
def roundUp (n size : Nat) : Nat := (size + (n - 1)) / n * n

def mapSizeForCount (count : Nat) : Nat := roundUp 16 (8 + roundUp 8 count + count * 16)

def structSizeForPayload (payload : Nat) : Nat := roundUp 16 (8 + payload)

def closureSizeForCount (captured : Nat) : Nat :=
  roundUp 16 (8 + (captured + 1) * 8 + roundUp 8 captured)

def bitstringSizeForBitLen (bitLen : Nat) : Nat := roundUp 16 (8 + (bitLen + 7) / 8 + 1)

/-- What a struct's fields and the kinds of its values take. -/
def allocationPayloadSize (slots : List FieldSlot) : Nat :=
  (slots.map fun slot => (slotBytes slot).length).sum +
    roundUp 8 (slots.filterMap slotValue?).length

def size : Object → Nat
  | cons .. => 16
  | map entries => mapSizeForCount entries.length
  | struct _ slots => structSizeForPayload (allocationPayloadSize slots)
  | closure _ _ _ _ captures => closureSizeForCount captures.length
  | bitstring bitLen _ => bitstringSizeForBitLen bitLen
  | procbin .. => 32
  | resource .. => 48
  | scalar _ => 16

theorem dvd_roundUp (n size : Nat) : n ∣ roundUp n size := Nat.dvd_mul_left _ _

theorem le_roundUp {n : Nat} (hn : 0 < n) (size : Nat) : size ≤ roundUp n size := by
  have h := Nat.div_add_mod (size + (n - 1)) n
  have hlt := Nat.mod_lt (size + (n - 1)) hn
  rw [roundUp, Nat.mul_comm]
  omega

theorem dvd_size (o : Object) : 16 ∣ o.size := by
  cases o with
  | cons => exact Nat.dvd_refl 16
  | map | struct | closure | bitstring => exact dvd_roundUp 16 _
  | procbin => exact ⟨2, rfl⟩
  | resource => exact ⟨3, rfl⟩
  | scalar => exact Nat.dvd_refl 16

theorem size_pos (o : Object) : 0 < o.size := by
  cases o with
  | cons | procbin | resource | scalar => exact Nat.zero_lt_succ _
  | map entries =>
    exact Nat.lt_of_lt_of_le (by omega) (le_roundUp (by omega) _)
  | struct id slots => exact Nat.lt_of_lt_of_le (by omega) (le_roundUp (by omega) _)
  | closure => exact Nat.lt_of_lt_of_le (by omega) (le_roundUp (by omega) _)
  | bitstring => exact Nat.lt_of_lt_of_le (by omega) (le_roundUp (by omega) _)

/-! ## Slots -/

/-- The values an object holds, in the order the collector meets them. -/
def values : Object → List AnyValue
  | cons head tail _ => [head, .heapRef .list tail]
  | map entries => entries.flatMap fun entry => [entry.1, entry.2]
  | struct _ slots => slots.filterMap slotValue?
  | closure _ _ _ _ captures => captures
  | resource _ dtor _ => [dtor]
  | bitstring .. | procbin .. | scalar .. => []

end Object

end Fz.Gc
