import Fz.Base.Wp
import Fz.Terms.MapSound

/-!
# Fast comparisons

The comparisons of the interpreter and of the runtime: `==`, the orderings and identity, on
operands that are held as unboxed scalars, as raw lanes or as references.  Most pairs of kinds
have a shortcut; the others box both operands and ask the term comparator.

A reference is a tag with an address.  For a scalar the address is that of a box, which holds the
raw word of the value; the packing of tag and address into one word is not modelled.  Boxing may
allocate, so the interpreter's functions run on the state of a process.
-/

namespace Fz.Terms

open Std Fz.Base

/-! ## Raw words -/

namespace F64

/-- The bit pattern of a float. -/
def toBits (x : F64) : UInt64 :=
  UInt64.ofNat (if x.negative then 2 ^ 63 + x.magnitude else x.magnitude)

def ofBits (w : UInt64) : F64 := ofMagnitude (decide (2 ^ 63 ≤ w.toNat)) (w.toNat % 2 ^ 63)

/-- The `==` of the machine, for which the two zeros are equal. -/
def ieeeEq (x y : F64) : Bool := x.partialCmp y == some .eq

def le (x y : F64) : Bool := (x.partialCmp y).any Ordering.isLE

def gt (x y : F64) : Bool := (x.partialCmp y).any Ordering.isGT

end F64

namespace ValueKind

def tag : ValueKind → UInt8
  | null => 0x0
  | list => 0x1
  | map => 0x2
  | struct => 0x3
  | closure => 0x4
  | bitstring => 0x5
  | procbin => 0x6
  | resource => 0x7
  | int => 0xD
  | float => 0xE
  | atom => 0xF

def new (tag : UInt8) : Option ValueKind :=
  [null, list, map, struct, closure, bitstring, procbin, resource, int, float, atom].find?
    fun kind => kind.tag == tag

end ValueKind

/-- How an entry point ends that does not answer. -/
inductive Failure where
  | panic (p : Panic)
  | message (text : String)
  deriving DecidableEq

namespace AnyValue

/-- A float as a value; only finite floats are values. -/
def ofFloat (x : F64) : Except Failure AnyValue :=
  if x.isFinite then .ok (.float x) else .error (.panic .nonfiniteFloat)

/-- A heap word; only the empty list has the null address. -/
def heapPtr (addr : Addr) (kind : ValueKind) : Except Failure AnyValue :=
  if addr = 0 ∧ kind ≠ .list then .error (.panic .malformedObject) else .ok (.heapRef kind addr)

/-- The value of a raw word of a kind. -/
def decodeParts (raw : UInt64) (kind : ValueKind) : Except Failure AnyValue :=
  match kind with
  | .null => .ok .null
  | .int => .ok (.int raw.toInt64)
  | .float => ofFloat (F64.ofBits raw)
  | .atom => .ok (.atom raw.toUInt32.toNat)
  | .list => if raw = 0 then .ok .emptyList else heapPtr raw.toNat .list
  | kind => heapPtr raw.toNat kind

end AnyValue

/-! ## References and processes -/

/-- A reference to a value, of which the tag says what stands at the address. -/
structure AnyValueRef where
  tag : ValueKind
  addr : Addr
  deriving DecidableEq

def AnyValueRef.isEmptyList (r : AnyValueRef) : Bool := r.tag == .list && r.addr == 0

/-- What comparisons see of a process: its heap, and its scalar boxes by address.  Atoms are
interned, so no name has two ids. -/
structure Process where
  heap : Heap
  boxes : List UInt64
  atoms_nodup : heap.terms.node.atoms.Nodup

/-- A computation of a process. -/
abbrev ProcessM := StateT Process (Except Failure)

namespace Process

/-- One more object on the heap. -/
def extend (p : Process) (o : Object) : Process := ⟨p.heap.extend o, p.boxes, p.atoms_nodup⟩

/-- One more scalar box. -/
def box (p : Process) (raw : UInt64) : Process := ⟨p.heap, p.boxes ++ [raw], p.atoms_nodup⟩

/-- The word in a scalar box. -/
def load (p : Process) : Addr → Except Failure UInt64
  | 0 => .error (.panic .malformedObject)
  | i + 1 => match p.boxes[i]? with
    | some raw => .ok raw
    | none => .error (.panic .malformedObject)

def anyValueFromRefWord (p : Process) (r : AnyValueRef) : Except Failure AnyValue :=
  if r.isEmptyList then .ok .emptyList
  else match r.tag with
    | .null => .ok .null
    | .int => do return .int (← p.load r.addr).toInt64
    | .float => do AnyValue.ofFloat (F64.ofBits (← p.load r.addr))
    | .atom => do return .atom (← p.load r.addr).toUInt32.toNat
    | kind => AnyValue.heapPtr r.addr kind

/-- The raw word of the value a reference stands for. -/
def storageRaw (p : Process) (r : AnyValueRef) : Except Failure UInt64 :=
  if r.isEmptyList then .ok 0
  else match r.tag with
    | .null => .ok 0
    | .int | .float | .atom => p.load r.addr
    | _ => .ok (UInt64.ofNat r.addr)

def compareValues (n : Nat) (p : Process) (a b : AnyValue) (mode : NumericMode) :
    Except Failure Ordering :=
  (p.heap.terms.compare n a b mode).mapError .panic

end Process

/-- A new scalar box. -/
def allocBox (tag : ValueKind) (raw : UInt64) : ProcessM AnyValueRef := do
  modify fun p => p.box raw
  return ⟨tag, (← get).boxes.length⟩

def boxAnyValueRef : AnyValue → ProcessM AnyValueRef
  | .null => return ⟨.null, 0⟩
  | .emptyList => return ⟨.list, 0⟩
  | .heapRef kind addr => return ⟨kind, addr⟩
  | .int n => allocBox .int n.toUInt64
  | .float x => do
    let _ ← AnyValue.ofFloat x
    allocBox .float x.toBits
  | .atom id => allocBox .atom (UInt64.ofNat id)

def boxScalarForAny (raw : UInt64) (tag : ValueKind) : ProcessM AnyValueRef := do
  boxAnyValueRef (← AnyValue.decodeParts raw tag)

/-! ## The entry points of the runtime -/

/-- An ordering as a machine integer. -/
def orderingToI64 : Ordering → Int64
  | .lt => -1
  | .eq => 0
  | .gt => 1

section Runtime

variable (n : Nat) (p : Process)

def compareRefWords (left right : AnyValueRef) (mode : NumericMode) :
    Except Failure Ordering := do
  let a ← p.anyValueFromRefWord left
  let b ← p.anyValueFromRefWord right
  p.compareValues n a b mode

def fzValueCmpRef (left right : AnyValueRef) : Except Failure Int64 := do
  return orderingToI64 (← compareRefWords n p left right .widening)

def fzValueEqWideningRef (left right : AnyValueRef) : Except Failure UInt64 := do
  return (← compareRefWords n p left right .widening).isEq.toUInt64

def fzValueEqRef (left right : AnyValueRef) : Except Failure UInt64 := do
  return (← compareRefWords n p left right .strict).isEq.toUInt64

/-- Whether a reference stands for the value of a raw lane, by kind and payload. -/
def fzValueEqRawConst (ref : AnyValueRef) (expectedTag : UInt32) (raw : UInt64) :
    Except Failure UInt64 :=
  match ValueKind.new expectedTag.toUInt8 with
  | none => .ok 0
  | some kind =>
    if ref.tag = kind then do return ((← p.storageRaw ref) == raw).toUInt64
    else .ok 0

/-- The order of a reference and a raw lane; with `swap` the lane is the left operand. -/
def fzValueCmpRawConst (ref : AnyValueRef) (kindTag : UInt32) (raw : UInt64) (swap : UInt32) :
    Except Failure Int64 := do
  let dynamic ← p.anyValueFromRefWord ref
  match ValueKind.new kindTag.toUInt8 with
  | none => .error (.panic .malformedObject)
  | some kind =>
    let unboxed ← AnyValue.decodeParts raw kind
    let (left, right) := if swap = 0 then (dynamic, unboxed) else (unboxed, dynamic)
    return orderingToI64 (← p.compareValues n left right .widening)

end Runtime

/-- The comparisons that have entry points for numeric lanes. -/
inductive CompareOp where
  | lt
  | lte
  | gt
  | gte
  | eq
  | neq
  deriving DecidableEq

def CompareOp.holds : CompareOp → Ordering → Bool
  | lt, o => o.isLT
  | lte, o => o.isLE
  | gt, o => o.isGT
  | gte, o => o.isGE
  | eq, o => o.isEq
  | neq, o => o.isNe

/-- The comparison with its operands exchanged. -/
def CompareOp.flip : CompareOp → CompareOp
  | lt => gt
  | lte => gte
  | gt => lt
  | gte => lte
  | op => op

/-- `fz_op_*_ii`. -/
def fzOpIi (left right : Int64) : CompareOp → Bool
  | .lt => left < right
  | .lte => left ≤ right
  | .gt => right < left
  | .gte => right ≤ left
  | .eq => left == right
  | .neq => left != right

/-- `fz_op_*_ff`. -/
def fzOpFf (left right : F64) : CompareOp → Bool
  | .lt => left.lt right
  | .lte => left.le right
  | .gt => left.gt right
  | .gte => left.ge right
  | .eq => left.ieeeEq right
  | .neq => !left.ieeeEq right

/-- `fz_op_*_if`. -/
def fzOpIf (left : Int64) (right : F64) (op : CompareOp) : Except Panic Bool := do
  return op.holds (← compareIntFloat left right)

/-- `fz_op_*_fi`, which compares the operands the other way around. -/
def fzOpFi (left : F64) (right : Int64) (op : CompareOp) : Except Panic Bool := do
  return op.flip.holds (← compareIntFloat right left)

def fzOpIdenticalIi (left right : Int64) : Bool := left == right

def fzOpIdenticalFf (left right : F64) : Bool := (left.totalCmp right).isEq

def fzIntFloatCmp (integer : Int64) (float : F64) : Except Panic Int64 := do
  return orderingToI64 (← compareIntFloat integer float)

/-! ## The entry points of the interpreter -/

/-- A value as the interpreter holds it. -/
inductive InterpValue where
  | null
  | int (n : Int64)
  | float (x : F64)
  | atom (id : UInt32)
  | emptyList
  | fnRef (fnId arity denotationId : Nat)
  | ref (r : AnyValueRef)
  deriving DecidableEq

/-- A function reference becomes a closure without captures.  Its body and its arity are written
to the object too; a comparison reads the denotation only. -/
def materializeFnRef (denotationId : Nat) : ProcessM AnyValueRef := do
  let p ← get
  set (p.extend (.closure denotationId []))
  return ⟨.closure, p.heap.next⟩

def InterpValue.asRefWord : InterpValue → ProcessM AnyValueRef
  | .null => return ⟨.null, 0⟩
  | .int n => boxScalarForAny n.toUInt64 .int
  | .float x => boxScalarForAny x.toBits .float
  | .atom id => boxScalarForAny id.toUInt64 .atom
  | .emptyList => return ⟨.list, 0⟩
  | .fnRef _ _ denotationId => materializeFnRef denotationId
  | .ref r => return r

/-- Box both operands and ask the runtime. -/
def onRefWords {α : Type} (ask : Process → AnyValueRef → AnyValueRef → Except Failure α)
    (a b : InterpValue) : ProcessM α := do
  let left ← a.asRefWord
  let right ← b.asRefWord
  ask (← get) left right

def interpOperatorEq (n : Nat) (a b : InterpValue) : ProcessM Bool :=
  match a, b with
  | .int left, .int right => return left == right
  | .float left, .float right => return left.ieeeEq right
  | .int integer, .float float | .float float, .int integer => do
    return (← liftM ((compareIntFloat integer float).mapError Failure.panic)).isEq
  | a, b => do return (← onRefWords (fzValueEqWideningRef n) a b) != 0

def interpCmp (n : Nat) (a b : InterpValue) : ProcessM Int64 :=
  match a, b with
  | .int left, .int right => return orderingToI64 (compare left.toInt right.toInt)
  | .float left, .float right => match left.partialCmp right with
    | some o => return orderingToI64 o
    | none => throw (.message "nonfinite float is not a language value")
  | .int left, .float right => do
    return orderingToI64 (← liftM ((compareIntFloat left right).mapError Failure.panic))
  | .float left, .int right => do
    return orderingToI64 (← liftM ((compareIntFloat right left).mapError Failure.panic)).swap
  | a, b => onRefWords (fzValueCmpRef n) a b

def interpValueEq (n : Nat) (a b : InterpValue) : ProcessM Bool :=
  match a, b with
  | .null, .null => return true
  | .int left, .int right => return left == right
  | .int _, .float _ | .float _, .int _ => return false
  -- by bits: the two zeros are different values
  | .float left, .float right => return left.toBits == right.toBits
  | .atom left, .atom right => return left == right
  | .emptyList, .emptyList => return true
  | .ref left, .ref right => do return (← fzValueEqRef n (← get) left right) != 0
  | a, b => do return (← onRefWords (fzValueEqRef n) a b) != 0

end Fz.Terms
