import Fz.Base.Codec
import Fz.Terms.Identity

/-!
# The table of closure denotations

The compiler hands the runtime a table from closure ids to source denotations, as bytes.  A field of
four bytes holds a number in the byte order of the host, a string is its length and its UTF-8 bytes,
and a generated function is written before its owner, so that a denotation is read from the outside
in and built from the inside out.

The decoder gives up with a message where the carrier is malformed.  Where the program indexes,
expects or asserts, the model has a failure of its own (`panicked`).
-/

namespace Fz.Terms

open Fz.Base

/-- How decoding fails. -/
inductive DecodeFault where
  | rejected (message : String)
  /-- An assertion fails, or an index is out of bounds. -/
  | panicked
  deriving DecidableEq

/-- A closure id, and its source function. -/
abbrev DenotationTable := List (UInt32 × FunctionDenotation)

/-- The id of internal continuations. -/
def INTERNAL : UInt32 := 0xffffffff

section Host

variable (hostIsLittleEndian : Bool)

/-! ## Encoding -/

/-- The four bytes of a number in the order of the host. -/
def toNeBytes (value : Nat) : List UInt8 :=
  let bytes := [UInt8.ofNat value, UInt8.ofNat (value / 2 ^ 8), UInt8.ofNat (value / 2 ^ 16),
    UInt8.ofNat (value / 2 ^ 24)]
  if hostIsLittleEndian then bytes else bytes.reverse

def encodeU32 (value : Nat) : Except String (List UInt8) :=
  if value < 2 ^ 32 then .ok (toNeBytes hostIsLittleEndian value)
  else .error "source denotation field exceeds u32"

def encodeString (value : String) : Except String (List UInt8) := do
  let length ← encodeU32 hostIsLittleEndian value.toUTF8.size
  pure (length ++ value.toUTF8.data.toList)

def encodeEach {α : Type} (encode : α → Except String (List UInt8)) :
    List α → Except String (List UInt8)
  | [] => pure []
  | a :: as => do
    let bytes ← encode a
    let rest ← encodeEach encode as
    pure (bytes ++ rest)

def encodeModuleName (name : ModuleName) : Except String (List UInt8) := do
  let count ← encodeU32 hostIsLittleEndian name.segments.length
  let segments ← encodeEach (encodeString hostIsLittleEndian) name.segments
  pure (count ++ segments)

def encodeModule : Option ModuleDenotation → Except String (List UInt8)
  | none => pure [0]
  | some (.named name) => do
    let name ← encodeModuleName hostIsLittleEndian name
    pure (1 :: name)
  | some (.protocolImpl protocol target) => do
    let protocol ← encodeModuleName hostIsLittleEndian protocol
    let target ← encodeModuleName hostIsLittleEndian target
    pure (2 :: (protocol ++ target))

def encodeDenotation : FunctionDenotation → Except String (List UInt8)
  | .named module name arity => do
    let arity ← encodeU32 hostIsLittleEndian arity
    let module ← encodeModule hostIsLittleEndian module
    let name ← encodeString hostIsLittleEndian name
    pure (arity ++ 0 :: (module ++ name))
  | .generated owner occurrence arity => do
    let arity ← encodeU32 hostIsLittleEndian arity
    let occurrence ← encodeU32 hostIsLittleEndian occurrence
    let owner ← encodeDenotation owner
    pure (arity ++ 1 :: (occurrence ++ owner))

def encodeEntry (entry : UInt32 × FunctionDenotation) : Except String (List UInt8) :=
  if entry.1 = INTERNAL then .error "internal continuation has no source denotation"
  else do
    let id ← encodeU32 hostIsLittleEndian entry.1.toNat
    let denotation ← encodeDenotation hostIsLittleEndian entry.2
    pure (id ++ denotation)

def encodeClosureDenotations (table : DenotationTable) : Except String (List UInt8) := do
  let count ← encodeU32 hostIsLittleEndian table.length
  let entries ← encodeEach (encodeEntry hostIsLittleEndian) table
  pure (count ++ entries)

/-! ## Decoding -/

abbrev DenotationReader (α : Type) := Decoder DecodeFault UInt8 α

def reject {α : Type} (message : String) : DenotationReader α := throw (.rejected message)

def take (length : Nat) : DenotationReader (List UInt8) := do
  let bytes ← get
  if length ≤ bytes.length then
    set (bytes.drop length)
    pure (bytes.take length)
  else reject "truncated source denotation"

/-- The number that four bytes hold in the order of the host. -/
def fromNeBytes (bytes : List UInt8) : Option Nat :=
  match if hostIsLittleEndian then bytes else bytes.reverse with
  | [a, b, c, d] => some (a.toNat + 2 ^ 8 * b.toNat + 2 ^ 16 * c.toNat + 2 ^ 24 * d.toNat)
  | _ => none

def readU32 : DenotationReader Nat := do
  let bytes ← take 4
  match fromNeBytes hostIsLittleEndian bytes with
  | some value => pure value
  | none => throw .panicked

def readTag : DenotationReader UInt8 := do
  let bytes ← take 1
  match bytes with
  | tag :: _ => pure tag
  | [] => throw .panicked

def readString : DenotationReader String := do
  let length ← readU32 hostIsLittleEndian
  let bytes ← take length
  match String.fromUTF8? ⟨bytes.toArray⟩ with
  | some value => pure value
  | none => reject "invalid source denotation UTF-8"

def readSegment : DenotationReader String := do
  let segment ← readString hostIsLittleEndian
  if segment = "" then reject "empty source module segment" else pure segment

/-- A module name has a segment, and none is empty. -/
def ModuleName.fromSegments (segments : List String) : Option ModuleName :=
  if h : segments ≠ [] ∧ ∀ s ∈ segments, s ≠ "" then some ⟨segments, h.1, h.2⟩ else none

def readModuleName : DenotationReader ModuleName := do
  let count ← readU32 hostIsLittleEndian
  if count = 0 then reject "empty source module"
  else do
    let segments ← decodeMany (readSegment hostIsLittleEndian) count
    match ModuleName.fromSegments segments with
    | some name => pure name
    | none => throw .panicked

def readModule : DenotationReader (Option ModuleDenotation) := do
  let tag ← readTag
  if tag = 0 then pure none
  else if tag = 1 then do
    let name ← readModuleName hostIsLittleEndian
    pure (some (.named name))
  else if tag = 2 then do
    let protocol ← readModuleName hostIsLittleEndian
    let target ← readModuleName hostIsLittleEndian
    pure (some (.protocolImpl protocol target))
  else reject "invalid source module tag"

/-- Wrap a function in the generated ones read before it, the last one read first. -/
def wrapGenerated (generated : List (Nat × Nat)) ( denotation : FunctionDenotation) :
    FunctionDenotation :=
  generated.foldl (fun owner (arity, occurrence) => .generated owner occurrence arity) denotation

/-- Read generated functions, the last one first in the list, until a named one. -/
def readOrigins (generated : List (Nat × Nat)) (bytes : List UInt8) :
    Except DecodeFault ( FunctionDenotation × List UInt8) := do
  let (arity, bytes₁) ← readU32 hostIsLittleEndian bytes
  let (tag, bytes₂) ← readTag bytes₁
  if tag = 0 then do
    let (module, bytes₃) ← readModule hostIsLittleEndian bytes₂
    let (name, bytes₄) ← readString hostIsLittleEndian bytes₃
    pure (wrapGenerated generated (.named module name arity), bytes₄)
  else if tag = 1 then do
    let (occurrence, bytes₃) ← readU32 hostIsLittleEndian bytes₂
    -- a field was taken, so the loop ends
    if bytes₃.length < bytes.length then readOrigins ((arity, occurrence) :: generated) bytes₃
    else .error .panicked
  else .error (.rejected "invalid source denotation tag")
termination_by bytes.length

def readDenotation : DenotationReader FunctionDenotation := readOrigins hostIsLittleEndian []

def readEntry : DenotationReader (UInt32 × FunctionDenotation) := do
  let id ← readU32 hostIsLittleEndian
  if UInt32.ofNat id = INTERNAL then reject "internal continuation has no source denotation"
  else do
    let denotation ← readDenotation hostIsLittleEndian
    pure (UInt32.ofNat id, denotation)

def decodeClosureDenotations (bytes : List UInt8) : Except DecodeFault DenotationTable := do
  let (count, bytes) ← readU32 hostIsLittleEndian bytes
  let (table, bytes) ← decodeMany (readEntry hostIsLittleEndian) count bytes
  if bytes.isEmpty then pure table else .error (.rejected "trailing source denotation bytes")

end Host

end Fz.Terms
