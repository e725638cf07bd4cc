import Fz.Bitstr.Field
import Fz.Dispatch.Producer
import Fz.Terms.Float

/-!
# Values and operators of the interpreter

What a dispatch decides about: the interpreter's values, and the operators a guard applies to
them.  A value is the tree its words denote; two words of one tree are read alike, so where they
live on the heap is left out.  An atom is its id, and the module's table gives a name its id.

A guard and an expression have operators of their own.  A guard takes integers and gives up where
an operand is something else (`guardBinOp`); an expression also computes with floats and reports an
error (`evalBinOp`).  They share negation, equality and the order.  Integer arithmetic is that of
the machine: where it overflows it panics or wraps, as the build has it (`overflowChecks`), and a
division by zero panics in every build.
-/

namespace Fz.Dispatch

open Fz.Terms Fz.Bitstr

/-! ## Values -/

inductive Value where
  | int (n : Int64)
  | float (x : F64)
  | atom (id : Nat)
  | bits (b : Bitstring)
  | emptyList
  | cons (head tail : Value)
  | tuple (fields : List Value)
  | struct (schema : String) (fields : List (String × Value))
  | map (entries : List (Value × Value))
  /-- A callable, a process, a reference or a resource. -/
  | handle (id : Nat)

def nilAtomId : Nat := 0

def trueAtomId : Nat := 1

def falseAtomId : Nat := 2

namespace Value

/-- `interp_bool_value`. -/
def ofBool (b : Bool) : Value := .atom (if b then trueAtomId else falseAtomId)

def asI64 : Value → Option Int64
  | .int n => some n
  | _ => none

/-- A number as a float; an integer is rounded. -/
def asFloat : Value → Option F64
  | .int n => some (F64.ofI64 n)
  | .float x => some x
  | _ => none

def isTruthy : Value → Bool
  | .atom id => id ≠ falseAtomId ∧ id ≠ nilAtomId
  | _ => true

end Value

/-! ## The runtime -/

/-- Why an operator of the runtime gives no value: an error it reports, or a panic. -/
inductive Fault where
  | error
  | panic
deriving DecidableEq, Repr

/-- What the operators leave to the build and to the runtime's term comparator.  `valueEqWidening`
and `valueCmp` are asked where an operand is not an unboxed number. -/
structure Operators where
  overflowChecks : Bool
  floatOp : PatternGuardBinOp → F64 → F64 → F64
  valueEqWidening : Value → Value → Except Fault Bool
  valueCmp : Value → Value → Except Fault Ordering

namespace Operators

variable (o : Operators)

/-- The result of an integer operation: out of range it panics or wraps. -/
def checked (n : Int) : Except Fault Int64 :=
  if -2 ^ 63 ≤ n ∧ n < 2 ^ 63 then .ok (Int64.ofInt n)
  else if o.overflowChecks then .error .panic
  else .ok (Int64.ofInt n)

/-- A division.  It panics at zero, and where the quotient is out of range. -/
def divided (f : Int → Int → Int) (a b : Int64) : Except Fault Int64 :=
  if b = 0 ∨ a = Int64.minValue ∧ b = -1 then .error .panic
  else .ok (Int64.ofInt (f a.toInt b.toInt))

/-- Arithmetic on two machine integers. -/
def intOp (op : PatternGuardBinOp) (a b : Int64) : Except Fault Int64 :=
  match op with
  | .add => o.checked (a.toInt + b.toInt)
  | .sub => o.checked (a.toInt - b.toInt)
  | .mul => o.checked (a.toInt * b.toInt)
  | .div => divided Int.tdiv a b
  | .rem => divided Int.tmod a b
  | .eq | .neq | .lt | .ltEq | .gt | .gtEq | .and | .or => .error .error

/-- What a comparison asserts about its operands. -/
def ofPanic {α : Type} : Except Panic α → Except Fault α
  | .ok a => .ok a
  | .error _ => .error .panic

/-- The `==` operator. -/
def interpOperatorEq : Value → Value → Except Fault Bool
  | .int a, .int b => .ok (a = b)
  | .float x, .float y => .ok (x.partialCmp y = some .eq)
  | .int n, .float x | .float x, .int n => (· = .eq) <$> ofPanic (compareIntFloat n x)
  | a, b => o.valueEqWidening a b

def interpCmp : Value → Value → Except Fault Ordering
  | .int a, .int b => .ok (compare a.toInt b.toInt)
  | .float x, .float y =>
    match x.partialCmp y with
    | some ordering => .ok ordering
    | none => .error .error
  | .int n, .float x => ofPanic (compareIntFloat n x)
  | .float x, .int n => Ordering.swap <$> ofPanic (compareIntFloat n x)
  | a, b => o.valueCmp a b

/-- `eval_unop`. -/
def evalUnOp (op : PatternGuardUnaryOp) (v : Value) : Except Fault Value :=
  match op with
  | .not => .ok (.ofBool (!v.isTruthy))
  | .neg =>
    match v with
    | .int n => .int <$> o.checked (-n.toInt)
    | .float x => .ok (.float x.neg)
    | _ => .error .error

/-- `eval_binop`, on the operators a guard may hold. -/
def evalBinOp (op : PatternGuardBinOp) (a b : Value) : Except Fault Value :=
  match op with
  | .add | .sub | .mul | .div | .rem =>
    match a.asI64, b.asI64 with
    | some x, some y => .int <$> o.intOp op x y
    | _, _ =>
      match a.asFloat, b.asFloat with
      | some x, some y => .ok (.float (o.floatOp op x y))
      | _, _ => .error .error
  | .eq => .ofBool <$> o.interpOperatorEq a b
  | .neq => (fun e => .ofBool (!e)) <$> o.interpOperatorEq a b
  | .lt => (fun c => .ofBool (c = .lt)) <$> o.interpCmp a b
  | .ltEq => (fun c => .ofBool (c ≠ .gt)) <$> o.interpCmp a b
  | .gt => (fun c => .ofBool (c = .gt)) <$> o.interpCmp a b
  | .gtEq => (fun c => .ofBool (c ≠ .lt)) <$> o.interpCmp a b
  | .and => .ok (if a.isTruthy then b else a)
  | .or => .ok (if a.isTruthy then a else b)

end Operators

/-! ## Why a step stops -/

/-- What a plan and the values it was given disagree about. -/
inductive Broken where
  | noRuntimeValue (subject : SubjectId)
  | missingInput (ordinal : Nat)
  | fieldOutOfBounds (index : Nat)
  | notMaterialized
  | typeTest
deriving DecidableEq, Repr

/-- Why a step of a dispatch produced no value. -/
inductive DispatchStop where
  /-- The subject does not match: the next edge gets its turn. -/
  | noMatch
  | broken (why : Broken)
  /-- A panic. -/
  | abort
deriving DecidableEq, Repr

/-- An error a guard runs into is a value that is not there; a panic is a panic. -/
def DispatchStop.ofFault : Fault → DispatchStop
  | .error => .noMatch
  | .panic => .abort

def requiredOk {α : Type} : Except Fault α → Except DispatchStop α
  | .ok a => .ok a
  | .error fault => .error (.ofFault fault)

/-! ## The operators of a guard -/

namespace Operators

variable (o : Operators)

def guardUnOp (op : PatternGuardUnaryOp) (v : Value) : Except DispatchStop Value :=
  match op with
  | .not => .ok (.ofBool (!v.isTruthy))
  | .neg => requiredOk (o.evalUnOp .neg v)

/-- The answer the left operand gives alone. -/
def shortCircuit (op : PatternGuardBinOp) (l : Value) : Option Value :=
  match op with
  | .and => if l.isTruthy then none else some (.ofBool false)
  | .or => if l.isTruthy then some (.ofBool true) else none
  | _ => none

/-- An integer operator of a guard, on integers only. -/
def guardIntOp (op : PatternGuardBinOp) (l r : Value) : Except DispatchStop Value :=
  match l.asI64, r.asI64 with
  | some x, some y => .int <$> requiredOk (o.intOp op x y)
  | _, _ => .error .noMatch

def guardBinOp (op : PatternGuardBinOp) (l r : Value) : Except DispatchStop Value :=
  match op with
  | .add | .sub | .mul | .div | .rem => o.guardIntOp op l r
  | .eq => .ofBool <$> requiredOk (o.interpOperatorEq l r)
  | .neq => (fun e => .ofBool (!e)) <$> requiredOk (o.interpOperatorEq l r)
  | .lt => (fun c => .ofBool (c = .lt)) <$> requiredOk (o.interpCmp l r)
  | .ltEq => (fun c => .ofBool (c ≠ .gt)) <$> requiredOk (o.interpCmp l r)
  | .gt => (fun c => .ofBool (c = .gt)) <$> requiredOk (o.interpCmp l r)
  | .gtEq => (fun c => .ofBool (c ≠ .lt)) <$> requiredOk (o.interpCmp l r)
  | .and | .or => .ok (.ofBool r.isTruthy)

end Operators

end Fz.Dispatch
