import Fz.Bitstr.Stream
import Mathlib.Data.List.TakeDrop

/-!
# Bit fields

A bitstring expression writes its fields one after the other into a builder, and a bitstring
pattern reads them back with the same specifications.  The writer gets a specification as separate
arguments; the reader gets it packed in one word beside the size.

Integer, binary and bits fields are modelled; the reader has no code for the others.  Machine words
are bit vectors, so that the product of a size and a unit wraps as it does in the runtime.  `none`
stands for the failure tuple of the reader and for an assertion that fails.
-/

namespace Fz.Bitstr

open Fz.Base Fz.Terms

inductive BitType where
  | integer
  | binary
  | bits
  deriving DecidableEq

def BitType.tag : BitType → BitVec 32
  | integer => 0
  | binary => 2
  | bits => 3

def decodeBitType (t : BitVec 32) : Option BitType :=
  if t = 0 then some .integer
  else if t = 2 then some .binary
  else if t = 3 then some .bits
  else none

def Endian.tag : Endian → BitVec 32
  | big => 0
  | little => 1
  | native => 2

def decodeEndian (e : BitVec 32) : Option Endian :=
  if e = 0 then some .big
  else if e = 1 then some .little
  else if e = 2 then some .native
  else none

/-- The specification of one field; the size counts units. -/
structure FieldSpec where
  ty : BitType
  size : Option (BitVec 32)
  unit : BitVec 32
  endian : Endian
  signed : Bool
  deriving DecidableEq

/-- A binary on the heap: inline, or a stub over a shared buffer. -/
inductive Bitstring where
  | inline (payload : BitPayload)
  | procbin (stub : ProcBin)
  deriving DecidableEq

def Bitstring.payload : Bitstring → BitPayload
  | inline payload => payload
  | procbin stub => stub.view

/-- A value that a field carries: the word of an `i64`, or a binary. -/
inductive FieldValue where
  | int (n : BitVec 64)
  | bitstring (b : Bitstring)
  deriving DecidableEq

/-! ## Allocation -/

/-- An object of so many bits; what the given bytes leave open is zero. -/
def payloadOf (bytes : List UInt8) (bitLen : Nat) : BitPayload where
  bitLen := bitLen
  bytes := bytes.takeD ((bitLen + 7) / 8) 0
  length_bytes := List.takeD_length ..

def sharedBinThresholdBytes : Nat := 64

def allocBitstring (bytes : List UInt8) (bitLen : Nat) : Bitstring :=
  if bytes.length > sharedBinThresholdBytes then
    .procbin ⟨payloadOf bytes bitLen, 0, Nat.zero_mul 8 ▸ Nat.zero_le _⟩
  else .inline (payloadOf bytes bitLen)

/-- The suffix of a shared buffer: a further stub over it, or a copy when it is short. -/
def allocBitstringSuffix (shared : BitPayload) (byteOffset : Nat) : Option Bitstring :=
  if byteOffset > shared.bytes.length then none
  else if h : shared.bytes.length - byteOffset > sharedBinThresholdBytes then
    some (.procbin ⟨shared, byteOffset, by
      have hlen := shared.length_bytes
      simp only [sharedBinThresholdBytes] at h
      omega⟩)
  else some (allocBitstring (shared.bytes.drop byteOffset) (shared.bitLen - byteOffset * 8))

/-! ## The packed specification -/

def fzBsFieldSpec (tyTag sizePresent unit endianTag signed isLast : BitVec 32) : BitVec 64 :=
  ((tyTag.setWidth 64 &&& 0x7) <<< 0)
    ||| ((BitVec.ofBool (sizePresent != 0)).setWidth 64 <<< 3)
    ||| ((unit.setWidth 64 &&& 0xffff) <<< 4)
    ||| ((endianTag.setWidth 64 &&& 0x3) <<< 20)
    ||| ((BitVec.ofBool (signed != 0)).setWidth 64 <<< 22)
    ||| ((BitVec.ofBool (isLast != 0)).setWidth 64 <<< 23)

/-- The six fields of a packed specification. -/
structure DecodedSpec where
  tyTag : BitVec 32
  sizePresent : BitVec 32
  unit : BitVec 32
  endianTag : BitVec 32
  signed : BitVec 32
  isLast : BitVec 32

def decodeBsFieldSpec (spec : BitVec 64) : DecodedSpec where
  tyTag := ((spec >>> 0) &&& 0x7).setWidth 32
  sizePresent := ((spec >>> 3) &&& 1).setWidth 32
  unit := ((spec >>> 4) &&& 0xffff).setWidth 32
  endianTag := ((spec >>> 20) &&& 0x3).setWidth 32
  signed := ((spec >>> 22) &&& 1).setWidth 32
  isLast := ((spec >>> 23) &&& 1).setWidth 32

def flag (b : Bool) : BitVec 32 := (BitVec.ofBool b).setWidth 32

def FieldSpec.pack (f : FieldSpec) (isLast : Bool) : BitVec 64 :=
  fzBsFieldSpec f.ty.tag (flag f.size.isSome) f.unit f.endian.tag (flag f.signed) (flag isLast)

/-! ## Writing a field -/

section Host

variable (hostIsLittleEndian : Bool)

/-- The size of an integer field in bits. -/
def FieldSpec.total (f : FieldSpec) : Nat := (f.size.getD 8 * f.unit).toNat

/-- The low bits of a word. -/
def maskTo (n : BitVec 64) (total : Nat) : BitVec 64 :=
  if total < 64 then n &&& ((1 : BitVec 64) <<< total - 1) else n

/-- The number of bits a binary field takes from its source. -/
def FieldSpec.neededBits (f : FieldSpec) (srcBitLen : Nat) : Nat :=
  match f.size with
  | none => srcBitLen
  | some n => (n * f.unit).toNat

/-- Append the first bits of a source, by whole bytes where both sides are aligned. -/
def writeBinary (w : BitWriter) (f : FieldSpec) (src : BitPayload) : Option BitWriter :=
  let needed := f.neededBits src.bitLen
  if needed ≤ src.bitLen then
    if needed % 8 = 0 ∧ w.bitLen % 8 = 0 then
      some (w.extend (src.bytes.take (needed / 8)) needed)
    else copyBits ⟨src.bytes, src.bitLen, 0⟩ w needed
  else none

def writeFieldValue (w : BitWriter) (f : FieldSpec) (value : FieldValue) : Option BitWriter :=
  match f.ty, value with
  | .integer, .int n =>
    let total := f.total
    if total ≤ 64 then
      some (w.writeBits (applyEndianForWrite hostIsLittleEndian (maskTo n total) total f.endian)
        total)
    else none
  | .integer, .bitstring _ => none
  | .binary, .bitstring b | .bits, .bitstring b => writeBinary w f b.payload
  | .binary, .int _ | .bits, .int _ => none

def writeFields (w : BitWriter) : List (FieldSpec × FieldValue) → Option BitWriter
  | [] => some w
  | (f, value) :: fields => do
    let w ← writeFieldValue hostIsLittleEndian w f value
    writeFields w fields

def finalize (w : BitWriter) : Bitstring := allocBitstring w.bytes w.bitLen

/-! ## Reading a field -/

/-- The reader tuple. -/
structure Reader where
  bs : Bitstring
  bitLen : Nat
  pos : Nat

def readerInit (bs : Bitstring) : Reader := ⟨bs, bs.payload.bitLen, 0⟩

def readerDone (r : Reader) : Bool := r.bitLen == r.pos

/-- The number of bits a binary field takes: without a size the rest, and only at the end. -/
def Reader.neededBits (r : Reader) (size : Option (BitVec 32)) (unit : BitVec 32)
    (isLast : Bool) : Option Nat :=
  match size, isLast with
  | none, true => some (r.bitLen - r.pos)
  | none, false => none
  | some n, _ => some (n * unit).toNat

/-- The value of a binary field, by sharing the tail of a shared buffer or by a copy. -/
def readBinary (r : Reader) (needed : Nat) : Option Bitstring :=
  let bytes := r.bs.payload.bytes.take ((r.bitLen + 7) / 8)
  let copy : Option Bitstring :=
    if r.pos % 8 = 0 ∧ needed % 8 = 0 then
      some (allocBitstring ((bytes.drop (r.pos / 8)).take (needed / 8)) needed)
    else do
      let w ← copyBits ⟨bytes, r.bitLen, r.pos⟩ .empty needed
      some (allocBitstring w.bytes needed)
  match r.bs with
  | .procbin stub =>
    if r.pos % 8 = 0 ∧ r.pos + needed = r.bitLen ∧ needed % 8 = 0 then
      allocBitstringSuffix stub.shared (stub.byteOffset + r.pos / 8)
    else copy
  | .inline _ => copy

def readFieldBits (r : Reader) (ty : BitType) (size : Option (BitVec 32)) (unit : BitVec 32)
    (endian : Endian) (signed isLast : Bool) : Option (FieldValue × Reader) :=
  match ty with
  | .integer => do
    let total := (size.getD 8 * unit).toNat
    if total > 64 then none
    else do
      let bytes := r.bs.payload.bytes.take ((r.bitLen + 7) / 8)
      let (raw, _) ← (BitReader.mk bytes r.bitLen r.pos).readBits total
      let raw := applyEndianForRead hostIsLittleEndian raw total endian
      let n := if signed then signExtend raw total else raw
      some (.int n, { r with pos := r.pos + total })
  | .binary | .bits => do
    let needed ← r.neededBits size unit isLast
    if r.pos + needed > r.bitLen then none
    else do
      let b ← readBinary r needed
      some (.bitstring b, { r with pos := r.pos + needed })

/-- Read one field from its packed specification and its size. -/
def readFieldRef (r : Reader) (fieldSpec : BitVec 64) (sizeValue : BitVec 32) :
    Option (FieldValue × Reader) := do
  let spec := decodeBsFieldSpec fieldSpec
  let ty ← decodeBitType spec.tyTag
  let size := if spec.sizePresent ≠ 0 then some sizeValue else none
  let endian ← decodeEndian spec.endianTag
  readFieldBits hostIsLittleEndian r ty size spec.unit endian (spec.signed != 0) (spec.isLast != 0)

/-- A pattern: its fields in order, each told whether it is the last. -/
def readFields (r : Reader) : List FieldSpec → Option (List FieldValue × Reader)
  | [] => some ([], r)
  | f :: fields => do
    let (value, r) ← readFieldRef hostIsLittleEndian r (f.pack fields.isEmpty) (f.size.getD 0)
    let (values, r) ← readFields r fields
    some (value :: values, r)

end Host

end Fz.Bitstr
