import Fz.Base.Sorted
import Fz.Terms.Identity
import Fz.Types.Intern
import Mathlib.Data.Prod.Lex
import Mathlib.Data.String.Basic

/-!
# The order of types

Two total orders on the interned types, both lexicographic over the stored descriptors.  The storage
order is the one the clauses of a descriptor are sorted by when it is interned.  The activation
order is the one rows of inputs are listed in.  It reads the arguments and the result of an arrow
before its literal, compares two callables by their origins, and puts the longer of two axes first
when one is a prefix of the other.

A type is compared by its descriptor, and that one names only types interned before it, so the depth
of a comparison is bounded by the later of the two.
-/

namespace Fz.Types

open Base (sorted)
open Terms ( FunctionDenotation)

/-! ## Lists -/

section Lists

variable {T : Type} (cmp : T → T → Ordering)

/-- The first verdict that is not `eq`. -/
def firstDifference (a b : List T) : Ordering :=
  ((a.zip b).map fun (x, y) => cmp x y).foldr Ordering.then .eq

/-- Shared elements first, then the shorter one. -/
def lexElementsFirst (a b : List T) : Ordering :=
  (firstDifference cmp a b).then (compare a.length b.length)

/-- Shared elements first, then the longer one. -/
def lexElementsThenLonger (a b : List T) : Ordering :=
  (firstDifference cmp a b).then (compare b.length a.length)

end Lists

/-! ## Leaves -/

/-- The bits of the kinds as a number. -/
def BasicBits.bits (b : BasicBits) : Nat := b.binary.toNat + 2 * b.int.toNat + 4 * b.float.toNat

def cmpModuleName : List String → List String → Ordering := lexElementsFirst compare

def OpaqueTag.rank : OpaqueTag → Nat ×ₗ Nat ×ₗ List String
  | builtin .pid => toLex (0, toLex (0, []))
  | builtin .ref => toLex (0, toLex (1, []))
  | builtin .cPointer => toLex (0, toLex (2, []))
  | named name => toLex (1, toLex (0, [name]))
  | protocolTarget module => toLex (2, toLex (0, module))

theorem OpaqueTag.rank_injective : Function.Injective OpaqueTag.rank := by
  intro a b h
  cases a with
  | builtin a =>
    cases b with
    | builtin b => cases a <;> cases b <;> first | rfl | cases h
    | named b => cases a <;> cases h
    | protocolTarget b => cases a <;> cases h
  | named a =>
    cases b with
    | builtin b => cases b <;> cases h
    | named b => cases h; rfl
    | protocolTarget b => cases h
  | protocolTarget a =>
    cases b with
    | builtin b => cases b <;> cases h
    | named b => cases h
    | protocolTarget b => cases h; rfl

/-- Builtins, then names, then protocol targets. -/
instance : LinearOrder OpaqueTag := LinearOrder.lift' OpaqueTag.rank OpaqueTag.rank_injective

/-- The listed values in order, then whether they are the excluded ones. -/
def FiniteSet.cmp {T : Type} [LinearOrder T] (a b : FiniteSet T) : Ordering :=
  (lexElementsFirst compare (sorted a.values) (sorted b.values)).then
    (compare a.cofinite b.cofinite)

def MapKey.cmp : MapKey → MapKey → Ordering
  | atom a, atom b => compare a b
  | atom _, int _ => .lt
  | int _, atom _ => .gt
  | int a, int b => compare a.toInt b.toInt

def MapTag.cmp : MapTag → MapTag → Ordering
  | plain, plain => .eq
  | plain, struct _ => .lt
  | struct _, plain => .gt
  | struct a, struct b => cmpModuleName a b

/-- The fields in the order of their keys. -/
def MapSig.sortedFields (sig : MapSig) : List (MapKey × Ty) :=
  sortBy (fun a b => MapKey.cmp a.1 b.1) sig.fields

def CallableValueKind.rank : CallableValueKind → Nat
  | fnRef => 0
  | closure => 1

/-! ## Variables -/

/-- One step of a structural address. -/
inductive AddrStep where
  | param (i : Nat)
  | result
  | capture (i : Nat)
  | field (j : Nat)
  | variant (k : Nat)
  | elem
  | payload
  | mapField (j : Nat)
  | varSlot (k : Nat)
  deriving DecidableEq

def AddrStep.rank : AddrStep → Nat × Nat
  | param i => (0, i)
  | result => (1, 0)
  | capture i => (2, i)
  | field j => (3, j)
  | variant k => (4, k)
  | elem => (5, 0)
  | payload => (6, 0)
  | mapField j => (7, j)
  | varSlot k => (8, k)

def AddrStep.cmp (a b : AddrStep) : Ordering :=
  (compare a.rank.1 b.rank.1).then (compare a.rank.2 b.rank.2)

/-- Ids from this one on are structural addresses; the ids below it are free variables. -/
def ADDRESS_TAG : Nat := 2 ^ 31

/-- The path behind the id of a structural address. -/
def addressPath (paths : List (List AddrStep)) (id : Nat) : Option (List AddrStep) :=
  if id < ADDRESS_TAG then none else paths[id - ADDRESS_TAG]?

/-- A structural address is ordered by its path, a free variable by its id. -/
def cmpVar (paths : List (List AddrStep)) (a b : Nat) : Ordering :=
  if a = b then .eq
  else
    match addressPath paths a, addressPath paths b with
    | some x, some y => lexElementsFirst AddrStep.cmp x y
    | some _, none => .lt
    | none, some _ => .gt
    | none, none => compare a b

def cmpVars (paths : List (List AddrStep)) (a b : FiniteSet Nat) : Ordering :=
  ((compare a.cofinite b.cofinite).then (compare a.values.card b.values.card)).then
    (firstDifference (cmpVar paths) (sorted a.values) (sorted b.values))

/-! ## Signatures -/

/-- Which of the two orders it is.  Only the activation order has the origins of the callables. -/
inductive OrderPurpose where
  | storage
  | activation (origins : Nat → FunctionDenotation)

section Signatures

variable (paths : List (List AddrStep)) (purpose : OrderPurpose) (cmpTy : Ty → Ty → Ordering)

def cmpTys (a b : List Ty) : Ordering :=
  match purpose with
  | .storage => lexOrder cmpTy a b
  | .activation _ => lexElementsFirst cmpTy a b

def cmpOption {T : Type} (cmp : T → T → Ordering) : Option T → Option T → Ordering
  | none, none => .eq
  | none, some _ => .lt
  | some _, none => .gt
  | some a, some b => cmp a b

def cmpCallable (a b : Nat) : Ordering :=
  if a = b then .eq
  else
    match purpose with
    | .storage => compare a b
    | .activation origins => (origins a).semanticCmp (origins b)

def cmpLit : Option ClosureLit → Option ClosureLit → Ordering :=
  cmpOption fun a b => ((cmpOption (cmpCallable purpose) a.fnId b.fnId).then
    (compare a.kind.rank b.kind.rank)).then (cmpTys purpose cmpTy a.captures b.captures)

def cmpTupleSig (a b : TupleSig) : Ordering := cmpTys purpose cmpTy a.elems b.elems

def cmpListSig (a b : ListSig) : Ordering :=
  (compare a.empty b.empty).then (cmpOption cmpTy a.elem b.elem)

def cmpResourceSig (a b : ResourceSig) : Ordering := cmpTy a.payload b.payload

/-- The literal leads in storage, and comes last in the activation order. -/
def cmpArrowSig (a b : ArrowSig) : Ordering :=
  match purpose with
  | .storage => ((cmpLit purpose cmpTy a.lit b.lit).then (cmpTys purpose cmpTy a.args b.args)).then
      (cmpTy a.ret b.ret)
  | .activation _ => ((cmpTys purpose cmpTy a.args b.args).then (cmpTy a.ret b.ret)).then
      (cmpLit purpose cmpTy a.lit b.lit)

def cmpMapSig (a b : MapSig) : Ordering :=
  ((MapTag.cmp a.tag b.tag).then (compare a.fields.length b.fields.length)).then
    (firstDifference (fun x y => (MapKey.cmp x.1 y.1).then (cmpTy x.2 y.2)) a.sortedFields
      b.sortedFields)

/-! ## Descriptors -/

def cmpAxis {T : Type} (cmpSig : T → T → Ordering) (a b : List (Conj T)) : Ordering :=
  match purpose with
  | .storage => lexOrder (cmpConj cmpSig) a b
  | .activation _ => lexElementsThenLonger (cmpConj cmpSig) a b

def cmpDescr (a b : Descr) : Ordering :=
  (compare a.basic.bits b.basic.bits).then <|
  (FiniteSet.cmp a.atoms b.atoms).then <|
  (FiniteSet.cmp a.opaques b.opaques).then <|
  (FiniteSet.cmp a.brands b.brands).then <|
  (cmpVars paths a.vars b.vars).then <|
  (cmpAxis purpose (cmpTupleSig purpose cmpTy) a.tuples b.tuples).then <|
  (cmpAxis purpose (cmpListSig cmpTy) a.lists b.lists).then <|
  (cmpAxis purpose (cmpResourceSig cmpTy) a.resources b.resources).then <|
  (cmpAxis purpose (cmpArrowSig purpose cmpTy) a.funcs b.funcs).then
  (cmpAxis purpose (cmpMapSig cmpTy) a.maps b.maps)

end Signatures

section Types

variable (paths : List (List AddrStep)) (purpose : OrderPurpose)

/-- Types are compared by their descriptors, to depth `n`. -/
def cmpTyAt (cx : TyCtx) : Nat → Ty → Ty → Ordering
  | 0, _, _ => .eq
  | n + 1, a, b =>
    if a = b then .eq else cmpDescr paths purpose (cmpTyAt cx n) (cx.descr a) (cx.descr b)

def cmpTy (cx : TyCtx) (a b : Ty) : Ordering := cmpTyAt paths purpose cx (max a b + 1) a b

/-- The order the clauses of a descriptor are stored in. -/
def storageOrder : ClauseOrder where
  tuple cx := cmpTupleSig .storage (cmpTy paths .storage cx)
  list cx := cmpListSig (cmpTy paths .storage cx)
  resource cx := cmpResourceSig (cmpTy paths .storage cx)
  arrow cx := cmpArrowSig .storage (cmpTy paths .storage cx)
  map cx := cmpMapSig (cmpTy paths .storage cx)

/-- The total order of activation-bearing identities. -/
def cmpActivationTy (origins : Nat → FunctionDenotation) (cx : TyCtx) (a b : Ty) : Ordering :=
  cmpTy paths (.activation origins) cx a b

def cmpActivationTys (origins : Nat → FunctionDenotation) (cx : TyCtx) :
    List Ty → List Ty → Ordering :=
  lexElementsFirst (cmpActivationTy paths origins cx)

end Types

end Fz.Types
