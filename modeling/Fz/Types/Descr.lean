import Fz.Types.Dnf
import Fz.Types.FiniteSet

/-!
# Type descriptors

A descriptor is one set of values written kind by kind: bits for the kinds without finer
distinctions, finite or cofinite sets of names for atoms, opaques and variables, and normal forms
of signatures for tuples, lists, resources, functions and maps.  The brand slot refines the whole
descriptor.  Coordinates of signatures are interned: a `Ty` names a descriptor in an arena, where
a descriptor only mentions descriptors interned before it.

Intersection works axis by axis.  There is no complement of a descriptor, because of the brand
slot; `diff` subtracts the structural factor and the brand factor separately.
-/

namespace Fz.Types

/-- An interned type: its place in the arena. -/
abbrev Ty := Nat

/-! ## Basic kinds -/

/-- Presence of the kinds without value-level distinctions. -/
structure BasicBits where
  binary : Bool
  int : Bool
  float : Bool
  deriving DecidableEq

namespace BasicBits

def none : BasicBits := ⟨false, false, false⟩

def all : BasicBits := ⟨true, true, true⟩

def isEmpty (b : BasicBits) : Bool := !b.binary && !b.int && !b.float

def union (a b : BasicBits) : BasicBits :=
  ⟨a.binary || b.binary, a.int || b.int, a.float || b.float⟩

def intersect (a b : BasicBits) : BasicBits :=
  ⟨a.binary && b.binary, a.int && b.int, a.float && b.float⟩

def neg (a : BasicBits) : BasicBits := ⟨!a.binary, !a.int, !a.float⟩

end BasicBits

/-! ## Signatures -/

structure TupleSig where
  elems : List Ty
  deriving DecidableEq

/-- `[]` when `empty`, and the non-empty lists over `elem`. -/
structure ListSig where
  empty : Bool
  elem : Option Ty
  deriving DecidableEq

structure ResourceSig where
  payload : Ty
  deriving DecidableEq

inductive CallableValueKind where
  | fnRef
  | closure
  deriving DecidableEq

/-- One callable value, or, without a function, the closures of some function over the captures. -/
structure ClosureLit where
  kind : CallableValueKind
  fnId : Option Nat
  captures : List Ty
  deriving DecidableEq

structure ArrowSig where
  args : List Ty
  ret : Ty
  lit : Option ClosureLit
  deriving DecidableEq

inductive MapKey where
  | atom (name : String)
  | int (n : Int64)
  deriving DecidableEq

inductive MapTag where
  | plain
  | struct (name : List String)
  deriving DecidableEq

/-- Maps with at least the listed keys; no key is listed twice. -/
structure MapSig where
  tag : MapTag
  fields : List (MapKey × Ty)
  nodup : (fields.map Prod.fst).Nodup
  deriving DecidableEq

inductive BuiltinOpaque where
  | pid
  | ref
  | cPointer
  deriving DecidableEq

inductive OpaqueTag where
  | builtin (b : BuiltinOpaque)
  | named (name : String)
  | protocolTarget (module : List String)
  deriving DecidableEq

/-! ## Descriptors -/

structure Descr where
  basic : BasicBits
  atoms : FiniteSet String
  opaques : FiniteSet OpaqueTag
  brands : FiniteSet String
  vars : FiniteSet Nat
  tuples : List (Conj TupleSig)
  lists : List (Conj ListSig)
  resources : List (Conj ResourceSig)
  funcs : List (Conj ArrowSig)
  maps : List (Conj MapSig)
  deriving DecidableEq

namespace Descr

def any : Descr where
  basic := .all
  atoms := .any
  opaques := .any
  brands := .any
  vars := .any
  tuples := [.top]
  lists := [.top]
  resources := [.top]
  funcs := [.top]
  maps := [.top]

def none : Descr where
  basic := .none
  atoms := .none
  opaques := .none
  brands := .none
  vars := .none
  tuples := []
  lists := []
  resources := []
  funcs := []
  maps := []

/-- The base of a value constructor: nothing yet, with the brand slot unconstrained. -/
def unbranded : Descr := { none with brands := .any }

def tupleOf (elems : List Ty) : Descr := { unbranded with tuples := [.posOf ⟨elems⟩] }

def structureLooksEmpty (d : Descr) : Bool :=
  d.basic.isEmpty && d.atoms.isNone && d.opaques.isNone && d.vars.isNone && d.tuples.isEmpty &&
    d.lists.isEmpty && d.resources.isEmpty && d.funcs.isEmpty && d.maps.isEmpty

def looksEmpty (d : Descr) : Bool := d.brands.isNone || d.structureLooksEmpty

/-- The join, with a bottom as its identity. -/
def union (a b : Descr) : Descr :=
  if a.looksEmpty then (if b.looksEmpty then none else b)
  else if b.looksEmpty then a
  else
    { basic := a.basic.union b.basic
      atoms := a.atoms.union b.atoms
      opaques := a.opaques.union b.opaques
      brands := a.brands.union b.brands
      vars := a.vars.union b.vars
      tuples := dnfUnion a.tuples b.tuples
      lists := dnfUnion a.lists b.lists
      resources := dnfUnion a.resources b.resources
      funcs := dnfUnion a.funcs b.funcs
      maps := dnfUnion a.maps b.maps }

def intersect (a b : Descr) : Descr where
  basic := a.basic.intersect b.basic
  atoms := a.atoms.intersect b.atoms
  opaques := a.opaques.intersect b.opaques
  brands := a.brands.intersect b.brands
  vars := a.vars.intersect b.vars
  tuples := dnfIntersect a.tuples b.tuples
  lists := dnfIntersect a.lists b.lists
  resources := dnfIntersect a.resources b.resources
  funcs := dnfIntersect a.funcs b.funcs
  maps := dnfIntersect a.maps b.maps

/-- The complement of the structural axes, the brand slot left unconstrained. -/
def negStructure (d : Descr) : Descr where
  basic := d.basic.neg
  atoms := d.atoms.neg
  opaques := d.opaques.neg
  brands := .any
  vars := d.vars.neg
  tuples := dnfNeg d.tuples
  lists := dnfNeg d.lists
  resources := dnfNeg d.resources
  funcs := dnfNeg d.funcs
  maps := dnfNeg d.maps

def sameStructureByConstruction (a b : Descr) : Bool :=
  a.basic = b.basic && a.atoms = b.atoms && a.opaques = b.opaques && a.vars = b.vars &&
    a.tuples = b.tuples && a.lists = b.lists && a.resources = b.resources &&
    a.funcs = b.funcs && a.maps = b.maps

/-- The difference: structural where the subtrahend's slot covers ours, nothing where the slots are
disjoint, by slot where the structures are equal, and the whole minuend otherwise. -/
def diff (a b : Descr) : Descr :=
  if b.brands.containsAll a.brands then
    { a.intersect b.negStructure with brands := a.brands }
  else if !a.brands.overlaps b.brands then a
  else if a.sameStructureByConstruction b then
    { a with brands := a.brands.intersect b.brands.neg }
  else a

/-- The types a descriptor names. -/
def children (d : Descr) : List Ty :=
  d.tuples.flatMap (fun c => (c.pos ++ c.neg).flatMap TupleSig.elems) ++
  d.lists.flatMap (fun c => (c.pos ++ c.neg).flatMap fun s => s.elem.toList) ++
  d.resources.flatMap (fun c => (c.pos ++ c.neg).map ResourceSig.payload) ++
  d.funcs.flatMap (fun c => (c.pos ++ c.neg).flatMap fun s =>
    s.ret :: s.args ++ (s.lit.map ClosureLit.captures).getD []) ++
  d.maps.flatMap (fun c => (c.pos ++ c.neg).flatMap fun s => s.fields.map Prod.snd)

end Descr

/-- The arena of interned descriptors: each names only descriptors interned before it. -/
structure TyCtx where
  arena : List Descr
  children_lt : ∀ (t : Ty) (d : Descr), arena[t]? = some d → ∀ s ∈ d.children, s < t

namespace TyCtx

/-- The descriptor of an interned type. -/
def descr (cx : TyCtx) (t : Ty) : Descr := cx.arena.getD t .none

end TyCtx

end Fz.Types
