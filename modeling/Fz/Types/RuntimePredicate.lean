import Fz.Types.Meaning
import Mathlib.Data.Finset.Union

/-!
# Runtime type predicates

A runtime test asks a value what can be seen of it: its kind, an atom's name, whether a list is
empty and what its head is, the arity of a tuple and what its fields are, the schema of a struct,
the construction a closure was minted through.  `Descr.runtimeTypePredicate` projects a descriptor
to such a test and `matchesRuntimeTypePredicate` puts it to a value.

Runtime values are read through a `RuntimeValueReader`: the runtime numbers atoms and schemas, and
the backend says which construction a code word stands for.
-/

namespace Fz.Types

/-! ## Predicates -/

inductive ListShape where
  | empty
  | nonEmpty
  deriving DecidableEq

/-- The list shapes a test admits, and one question for the head per clause that admits a cons
cell.  A test that is not exact asks about the shape alone. -/
structure ListShapes (P : Type) where
  shapes : FiniteSet ListShape
  heads : List P
  isExact : Bool

/-- The arities a test admits, and one question per position for each clause.  A test that is not
exact asks about the arity alone. -/
structure TupleShapes (P : Type) where
  arities : FiniteSet Nat
  shapes : List (List P)
  isExact : Bool

/-- A construction: a function, and one question per capture. -/
structure CallableShape (P : Type) where
  target : Nat
  captures : List P

structure CallableShapes (P : Type) where
  targets : FiniteSet Nat
  shapes : List (CallableShape P)
  isExact : Bool

structure RuntimeTypePredicate where
  ints : FiniteSet Int64
  floats : FiniteSet UInt64
  atoms : FiniteSet String
  lists : ListShapes RuntimeTypePredicate
  tuples : TupleShapes RuntimeTypePredicate
  namedStructs : FiniteSet (List String)
  allowOtherStructs : Bool
  maps : Bool
  binaries : Bool
  callables : CallableShapes RuntimeTypePredicate
  resources : Bool

variable {P : Type}

namespace ListShapes

def none : ListShapes P := ⟨.none, [], true⟩

def shapeOnly (shapes : FiniteSet ListShape) : ListShapes P := ⟨shapes, [], false⟩

def exactly (shapes : FiniteSet ListShape) (heads : List P) : ListShapes P := ⟨shapes, heads, true⟩

def any : ListShapes P := shapeOnly .any

def asksTheHead (l : ListShapes P) : Bool :=
  l.isExact && !l.heads.isEmpty && l.shapes.contains .nonEmpty

end ListShapes

namespace TupleShapes

/-- The arities of an exact test are the lengths of its shapes. -/
def exactly (shapes : List (List P)) : TupleShapes P :=
  ⟨⟨(shapes.map List.length).toFinset, false⟩, shapes, true⟩

def arityOnly (arities : FiniteSet Nat) : TupleShapes P := ⟨arities, [], false⟩

def any : TupleShapes P := arityOnly .any

end TupleShapes

namespace CallableShapes

def exactly (shapes : List (CallableShape P)) : CallableShapes P :=
  ⟨⟨(shapes.map CallableShape.target).toFinset, false⟩, shapes, true⟩

def none : CallableShapes P := exactly []

def any : CallableShapes P := ⟨.any, [], false⟩

end CallableShapes

namespace RuntimeTypePredicate

def none : RuntimeTypePredicate where
  ints := .none
  floats := .none
  atoms := .none
  lists := .none
  tuples := .exactly []
  namedStructs := .none
  allowOtherStructs := false
  maps := false
  binaries := false
  callables := .none
  resources := false

/-- The test every value passes. -/
def any : RuntimeTypePredicate where
  ints := .any
  floats := .any
  atoms := .any
  lists := .any
  tuples := .any
  namedStructs := .any
  allowOtherStructs := true
  maps := true
  binaries := true
  callables := .any
  resources := true

mutual
/-- Whether every value that passes the first test passes the second, axis by axis. -/
def containedIn : RuntimeTypePredicate → RuntimeTypePredicate → Bool
  | ⟨ints, floats, atoms, ⟨shapes, heads, listsExact⟩, ⟨arities, tuples, tuplesExact⟩, named, other,
      maps, binaries, ⟨targets, callables, callablesExact⟩, resources⟩, o =>
    o.ints.containsAll ints && o.floats.containsAll floats && o.atoms.containsAll atoms &&
      (o.lists.shapes.containsAll shapes &&
        (!o.lists.isExact || listsExact && headsContainedIn heads o.lists.heads)) &&
      (o.tuples.arities.containsAll arities &&
        (!o.tuples.isExact || tuplesExact && shapesContainedIn tuples o.tuples.shapes)) &&
      o.namedStructs.containsAll named && (o.allowOtherStructs || !other) && (o.maps || !maps) &&
      (o.binaries || !binaries) &&
      (o.callables.targets.containsAll targets && (!o.callables.isExact ||
        callablesExact && callablesContainedIn callables o.callables.shapes)) &&
      (o.resources || !resources)

def headsContainedIn : List RuntimeTypePredicate → List RuntimeTypePredicate → Bool
  | [], _ => true
  | theirs :: rest, ours =>
    ours.any (fun p => containedIn theirs p) && headsContainedIn rest ours

def shapesContainedIn : List (List RuntimeTypePredicate) → List (List RuntimeTypePredicate) → Bool
  | [], _ => true
  | theirs :: rest, ours =>
    ours.any (fun s => s.length = theirs.length && positionsContainedIn theirs s) &&
      shapesContainedIn rest ours

def positionsContainedIn : List RuntimeTypePredicate → List RuntimeTypePredicate → Bool
  | theirs :: rest, p :: ours => containedIn theirs p && positionsContainedIn rest ours
  | _, _ => true

def callablesContainedIn :
    List (CallableShape RuntimeTypePredicate) → List (CallableShape RuntimeTypePredicate) → Bool
  | [], _ => true
  | ⟨target, captures⟩ :: rest, ours =>
    ours.any (fun s => target = s.target && captures.length = s.captures.length &&
      positionsContainedIn captures s.captures) && callablesContainedIn rest ours
end

mutual
/-- Whether one value could pass both tests, axis by axis. -/
def overlaps : RuntimeTypePredicate → RuntimeTypePredicate → Bool
  | ⟨ints, floats, atoms, ⟨shapes, heads, listsExact⟩, ⟨arities, tuples, tuplesExact⟩, named, other,
      maps, binaries, ⟨targets, callables, callablesExact⟩, resources⟩, o =>
    let lists : ListShapes RuntimeTypePredicate := ⟨shapes, heads, listsExact⟩
    ints.overlaps o.ints || floats.overlaps o.floats || atoms.overlaps o.atoms ||
      (shapes.overlaps o.lists.shapes &&
        (shapes.contains .empty && o.lists.shapes.contains .empty ||
          (!lists.asksTheHead || !o.lists.asksTheHead || headsOverlap heads o.lists.heads))) ||
      (arities.overlaps o.tuples.arities &&
        (!tuplesExact || !o.tuples.isExact || someShapesOverlap tuples o.tuples.shapes)) ||
      named.overlaps o.namedStructs || (other && o.allowOtherStructs) || (maps && o.maps) ||
      (binaries && o.binaries) ||
      (targets.overlaps o.callables.targets &&
        (!callablesExact || !o.callables.isExact ||
          callablesOverlap callables o.callables.shapes)) ||
      (resources && o.resources)

def headsOverlap : List RuntimeTypePredicate → List RuntimeTypePredicate → Bool
  | [], _ => false
  | left :: rest, heads => heads.any (fun right => overlaps left right) || headsOverlap rest heads

def someShapesOverlap : List (List RuntimeTypePredicate) → List (List RuntimeTypePredicate) → Bool
  | [], _ => false
  | left :: rest, shapes =>
    shapes.any (fun right => left.length = right.length && positionsOverlap left right) ||
      someShapesOverlap rest shapes

def positionsOverlap : List RuntimeTypePredicate → List RuntimeTypePredicate → Bool
  | l :: left, r :: right => overlaps l r && positionsOverlap left right
  | _, _ => true

def callablesOverlap :
    List (CallableShape RuntimeTypePredicate) → List (CallableShape RuntimeTypePredicate) → Bool
  | [], _ => false
  | ⟨target, captures⟩ :: rest, shapes =>
    shapes.any (fun right => target = right.target && captures.length = right.captures.length &&
      positionsOverlap captures right.captures) || callablesOverlap rest shapes
end

end RuntimeTypePredicate

namespace CallableShape

/-- Every value minted through this construction is one the other names. -/
def inside (s o : CallableShape RuntimeTypePredicate) : Bool :=
  s.target = o.target && s.captures.length = o.captures.length &&
    RuntimeTypePredicate.positionsContainedIn s.captures o.captures

end CallableShape

namespace CallableShapes

def enumerates (c : CallableShapes RuntimeTypePredicate)
    (shape : CallableShape RuntimeTypePredicate) : Bool :=
  if c.isExact then c.shapes.any shape.inside else shape.target ∈ c.targets.values

def admits (c : CallableShapes RuntimeTypePredicate)
    (shape : CallableShape RuntimeTypePredicate) : Bool :=
  c.enumerates shape != c.targets.cofinite

end CallableShapes

/-! ## Runtime values -/

/-- What a value is at run time: no brands, atoms by number, a struct by its schema and fields, a
closure by the code word it carries. -/
inductive RuntimeAnyValue where
  | null
  | emptyList
  | int (n : Int64)
  | float (bits : UInt64)
  | atom (index : Nat)
  | cons (head tail : RuntimeAnyValue)
  | map
  | binary
  | closure (code : Nat)
  | resource
  | struct (schema : Nat) (fields : List RuntimeAnyValue)

/-- What the matcher needs to read a value: the module's atoms and struct names, the runtime's
numbering of schemas as far as the reader knows it, and the constructions behind code words. -/
structure RuntimeValueReader where
  atomNames : List String
  structSchemas : List (List String)
  tupleSchemaIds : List (Nat × Nat)
  namedSchemaIds : List (List String × Nat)
  callables : Nat → Option (CallableShape RuntimeTypePredicate)

namespace RuntimeValueReader

variable (R : RuntimeValueReader)

def knownNamedSchemas : List Nat :=
  R.structSchemas.filterMap fun name => R.namedSchemaIds.lookup name

/-- The schemas of a set of arities. -/
def schemasOfArities (arities : Finset Nat) (schema : Nat) : Bool :=
  decide (∃ arity ∈ arities, R.tupleSchemaIds.lookup arity = some schema)

/-- Whether a schema is an unnamed struct of one of the arities. -/
def unnamedStructOfArity (schema : Nat) (arities : FiniteSet Nat) : Bool :=
  if !arities.cofinite then R.schemasOfArities arities.values schema
  else !decide (schema ∈ R.knownNamedSchemas) && !R.schemasOfArities arities.values schema

def tupleArityOf (schema : Nat) : Option Nat :=
  (R.tupleSchemaIds.find? fun entry => entry.2 = schema).map Prod.fst

/-- Whether the set, carried over to atom numbers, holds the number. -/
def atomMembership (atoms : FiniteSet String) (index : Nat) : Bool :=
  decide (∃ name ∈ atoms.values, R.atomNames.findIdx? (· = name) = some index) != atoms.cofinite

end RuntimeValueReader

namespace RuntimeTypePredicate

/-- The arities of unnamed structs that the other-structs axis admits. -/
def otherStructArities (p : RuntimeTypePredicate) : FiniteSet Nat :=
  if p.allowOtherStructs then ⟨p.tuples.arities.values, true⟩ else .none

/-- What a test asks of an unnamed tuple of one arity; `anyOf` stands for its shapes of that
arity. -/
inductive TuplePositions where
  | never
  | always
  | anyOf

def tuplePositions (p : RuntimeTypePredicate) (arity : Nat) : TuplePositions :=
  if p.otherStructArities.contains arity then .always
  else if !p.tuples.arities.contains arity then .never
  else if !p.tuples.isExact then .always
  else .anyOf

def matchesNamedStructAxis (R : RuntimeValueReader) (p : RuntimeTypePredicate) (schema : Nat) :
    Bool :=
  if p.namedStructs.isNone then false
  else if p.namedStructs.isAny then decide (schema ∈ R.knownNamedSchemas)
  else
    let relevant :=
      decide (∃ name ∈ p.namedStructs.values, R.namedSchemaIds.lookup name = some schema)
    if p.namedStructs.cofinite then decide (schema ∈ R.knownNamedSchemas) && !relevant
    else relevant

def matchesOtherStructAxis (R : RuntimeValueReader) (p : RuntimeTypePredicate) (schema : Nat) :
    Bool := R.unnamedStructOfArity schema p.otherStructArities

def matchesRuntimeCallable (R : RuntimeValueReader) (p : RuntimeTypePredicate) (code : Nat) :
    Bool :=
  if p.callables.targets.isNone then false
  else if p.callables.targets.isAny then true
  else
    match R.callables code with
    | .some shape => p.callables.admits shape
    | .none => p.callables.targets.cofinite

variable (R : RuntimeValueReader)

mutual
/-- Whether a value passes a test: one of the axes its kind reaches admits it. -/
def matchesRuntimeTypePredicate : RuntimeTypePredicate → RuntimeAnyValue → Bool
  | ⟨ints, floats, atoms, ⟨shapes, heads, listsExact⟩, ⟨arities, tuples, tuplesExact⟩, named, other,
      maps, binaries, callables, resources⟩, v =>
    let lists : ListShapes RuntimeTypePredicate := ⟨shapes, heads, listsExact⟩
    let p : RuntimeTypePredicate := ⟨ints, floats, atoms, lists, ⟨arities, tuples, tuplesExact⟩,
      named, other, maps, binaries, callables, resources⟩
    match v with
    | .null => false
    | .emptyList => lists.shapes.contains .empty
    | .int n => ints.contains n
    | .float bits => floats.contains bits
    | .atom index => R.atomMembership atoms index
    | .cons head _ =>
      lists.shapes.contains .nonEmpty && (!lists.asksTheHead || someHeadMatches heads head)
    | .map => maps
    | .binary => binaries
    | .closure code => p.matchesRuntimeCallable R code
    | .resource => resources
    | .struct schema fields =>
      (R.unnamedStructOfArity schema arities &&
        match R.tupleArityOf schema with
        | .none => true
        | .some arity =>
          match p.tuplePositions arity with
          | .never => false
          | .always => true
          | .anyOf => someShapeMatches tuples arity fields) ||
        p.matchesNamedStructAxis R schema || p.matchesOtherStructAxis R schema

def someHeadMatches : List RuntimeTypePredicate → RuntimeAnyValue → Bool
  | [], _ => false
  | p :: heads, head => matchesRuntimeTypePredicate p head || someHeadMatches heads head

def someShapeMatches : List (List RuntimeTypePredicate) → Nat → List RuntimeAnyValue → Bool
  | [], _, _ => false
  | shape :: shapes, arity, fields =>
    (decide (shape.length = arity) && positionsMatch shape fields) ||
      someShapeMatches shapes arity fields

def positionsMatch : List RuntimeTypePredicate → List RuntimeAnyValue → Bool
  | [], _ => true
  | p :: shape, field :: fields =>
    matchesRuntimeTypePredicate p field && positionsMatch shape fields
  | _ :: _, [] => false
end

theorem matches_eq {R : RuntimeValueReader} (p : RuntimeTypePredicate) (v : RuntimeAnyValue) :
    p.matchesRuntimeTypePredicate R v =
      match v with
      | .null => false
      | .emptyList => p.lists.shapes.contains .empty
      | .int n => p.ints.contains n
      | .float bits => p.floats.contains bits
      | .atom index => R.atomMembership p.atoms index
      | .cons head _ => p.lists.shapes.contains .nonEmpty &&
        (!p.lists.asksTheHead || someHeadMatches R p.lists.heads head)
      | .map => p.maps
      | .binary => p.binaries
      | .closure code => p.matchesRuntimeCallable R code
      | .resource => p.resources
      | .struct schema fields =>
        (R.unnamedStructOfArity schema p.tuples.arities &&
          match R.tupleArityOf schema with
          | .none => true
          | .some arity =>
            match p.tuplePositions arity with
            | .never => false
            | .always => true
            | .anyOf => someShapeMatches R p.tuples.shapes arity fields) ||
          p.matchesNamedStructAxis R schema || p.matchesOtherStructAxis R schema := by
  obtain ⟨_, _, _, ⟨_, _, _⟩, ⟨_, _, _⟩, _, _, _, _, _, _⟩ := p
  cases v <;> rw [matchesRuntimeTypePredicate]

mutual
/-- Every arity a test can ask about, at any depth. -/
def tupleAritiesAtEveryDepth : RuntimeTypePredicate → Finset Nat
  | ⟨_, _, _, ⟨_, heads, _⟩, ⟨arities, tuples, _⟩, _, _, _, _, _, _⟩ =>
    arities.values ∪ aritiesOfPositions heads ∪ aritiesOfShapes tuples

def aritiesOfPositions : List RuntimeTypePredicate → Finset Nat
  | [] => ∅
  | p :: ps => tupleAritiesAtEveryDepth p ∪ aritiesOfPositions ps

def aritiesOfShapes : List (List RuntimeTypePredicate) → Finset Nat
  | [] => ∅
  | s :: ss => aritiesOfPositions s ∪ aritiesOfShapes ss
end

end RuntimeTypePredicate

/-! ## Projection -/

/-- A set of names without one of them. -/
def runtimeTypePredicateRemove {T : Type} [DecidableEq T] (set : FiniteSet T) (value : T) :
    FiniteSet T :=
  if set.cofinite then ⟨insert value set.values, true⟩ else ⟨set.values.erase value, false⟩

/-- Whether a clause is one positive factor and nothing else. -/
def Conj.plain? {T : Type} (c : Conj T) : Option T :=
  match c.pos, c.neg with
  | [p], [] => some p
  | _, _ => none

def OpaqueTag.isProtocolTarget : OpaqueTag → Bool
  | protocolTarget _ => true
  | _ => false

namespace ListSig

def isExactEmpty (s : ListSig) : Bool := s.empty && s.elem.isNone

def isExactNonEmpty (s : ListSig) : Bool := !s.empty && s.elem.isSome

/-- The shapes a positive signature allows. -/
def allowedShapes (s : ListSig) : FiniteSet ListShape :=
  if s.isExactEmpty then .lit .empty
  else if s.isExactNonEmpty then .lit .nonEmpty
  else ⟨{.empty, .nonEmpty}, false⟩

end ListSig

/-- Whether a negative factor takes the whole non-empty part of a clause. -/
def negativeSwallowsTheFragment (c : Conj ListSig) (negative : ListSig) : Bool :=
  match c.pos with
  | [positive] => positive.elem.isSome && positive.elem = negative.elem
  | _ => false

namespace Descr

variable (d : Descr)

def runtimeTypePredicateWidensNonStructs : Bool :=
  d.opaques.cofinite || decide (∃ tag ∈ d.opaques.values, tag.isProtocolTarget = false) ||
    d.vars.cofinite || decide (d.vars.values ≠ ∅)

/-- What one clause of the record axis lets through: plain maps, and structs by name. -/
def clauseMapTags (c : Conj MapSig) : Bool × FiniteSet (List String) :=
  if c.pos.tail.any fun s => some s.tag ≠ c.pos.head?.map MapSig.tag then (false, .none)
  else
    c.neg.foldl
      (fun tags negative =>
        if !negative.fields.isEmpty then tags
        else match negative.tag with
          | .plain => (false, tags.2)
          | .struct name => (tags.1, runtimeTypePredicateRemove tags.2 name))
      (match c.pos.head?.map MapSig.tag with
        | Option.none => (true, FiniteSet.any)
        | some .plain => (true, FiniteSet.none)
        | some (.struct name) => (false, FiniteSet.lit name))

def runtimeTypePredicateMapTags : Bool × FiniteSet (List String) :=
  d.maps.foldl
    (fun out c => (out.1 || (clauseMapTags c).1, out.2.union (clauseMapTags c).2))
    (false, .none)

def runtimeTypePredicateNamedStructs (structs : FiniteSet (List String)) :
    FiniteSet (List String) :=
  let nominal : FiniteSet (List String) :=
    if d.opaques.cofinite then .none
    else ⟨d.opaques.values.biUnion fun tag => match tag with
      | .protocolTarget module => {module}
      | _ => ∅, false⟩
  nominal.union structs

/-- The shapes one clause of the list axis lets through. -/
def clauseListShapes (c : Conj ListSig) : FiniteSet ListShape :=
  c.neg.foldl
    (fun allowed s =>
      if s.isExactEmpty then runtimeTypePredicateRemove allowed .empty
      else if negativeSwallowsTheFragment c s then runtimeTypePredicateRemove allowed .nonEmpty
      else allowed)
    (c.pos.foldl (fun allowed s => allowed.intersect s.allowedShapes) ⟨{.empty, .nonEmpty}, false⟩)

def runtimeTypePredicateListShapes : FiniteSet ListShape :=
  d.lists.foldl (fun out c => out.union (clauseListShapes c)) .none

/-- The arities one clause of the tuple axis lets through.  A negative signature takes its arity
away, whatever its coordinates say. -/
def clauseTupleArities (c : Conj TupleSig) : FiniteSet Nat :=
  match c.pos with
  | [] => c.neg.foldl (fun allowed s => runtimeTypePredicateRemove allowed s.elems.length) .any
  | p :: ps =>
    if ps.any fun q => q.elems.length ≠ p.elems.length then .none
    else c.neg.foldl (fun allowed s => runtimeTypePredicateRemove allowed s.elems.length)
      (.lit p.elems.length)

def runtimeTypePredicateTupleArities : FiniteSet Nat :=
  d.tuples.foldl (fun out c => out.union (clauseTupleArities c)) .none

/-- The literal a callable clause pins, if it subtracts nothing and the literal names a function.
The source asserts that there is no second one: interning drops such clauses. -/
def callableIdentityLiteral (c : Conj ArrowSig) : Option (Nat × ClosureLit) :=
  if !c.neg.isEmpty then Option.none
  else match (c.pos.filterMap ArrowSig.lit).head? with
    | Option.none => Option.none
    | some lit => lit.fnId.map fun fnId => (fnId, lit)

section Step

variable (sub : Ty → RuntimeTypePredicate)

/-- The head questions of the clauses, `none` when one clause is not a single element type. -/
def listHeads : List (Conj ListSig) → Option (List RuntimeTypePredicate)
  | [] => some []
  | c :: cs =>
    if c.isTop then (listHeads cs).map (RuntimeTypePredicate.any :: ·)
    else match c.plain? with
      | Option.none => Option.none
      | some s => match s.elem with
        | Option.none => listHeads cs
        | some elem => (listHeads cs).map (sub elem :: ·)

def runtimeTypePredicateLists : ListShapes RuntimeTypePredicate :=
  let shapes := d.runtimeTypePredicateListShapes
  if !shapes.contains .nonEmpty then .exactly shapes []
  else match listHeads sub d.lists with
    | Option.none => .shapeOnly shapes
    | some [] => .shapeOnly shapes
    | some heads => .exactly shapes heads

/-- The shapes of the clauses, `none` when one clause is not a single product. -/
def tupleShapes : List (Conj TupleSig) → Option (List (List RuntimeTypePredicate))
  | [] => some []
  | c :: cs => match c.plain? with
    | Option.none => Option.none
    | some s => (tupleShapes cs).map (s.elems.map sub :: ·)

def runtimeTypePredicateTuples : TupleShapes RuntimeTypePredicate :=
  match tupleShapes sub d.tuples with
  | Option.none => .arityOnly d.runtimeTypePredicateTupleArities
  | some shapes => .exactly shapes

/-- The constructions of the clauses, `none` when one clause pins no literal. -/
def callableShapes : List (Conj ArrowSig) → Option (List (CallableShape RuntimeTypePredicate))
  | [] => some []
  | c :: cs => match callableIdentityLiteral c with
    | Option.none => Option.none
    | some (target, lit) => (callableShapes cs).map (⟨target, lit.captures.map sub⟩ :: ·)

def runtimeTypePredicateCallables : CallableShapes RuntimeTypePredicate :=
  match callableShapes sub d.funcs with
  | Option.none => .any
  | some shapes => .exactly shapes

/-- One level of the projection, over the projections of the types it names. -/
def runtimeTypePredicateStep : RuntimeTypePredicate :=
  let widen := d.runtimeTypePredicateWidensNonStructs
  let namedStructs := d.runtimeTypePredicateNamedStructs d.runtimeTypePredicateMapTags.2
  { ints := if widen || d.basic.int then .any else .none
    floats := if widen || d.basic.float then .any else .none
    atoms := if widen then .any else d.atoms
    lists := if widen then .any else d.runtimeTypePredicateLists sub
    tuples := if widen then .any else d.runtimeTypePredicateTuples sub
    namedStructs := namedStructs
    allowOtherStructs := namedStructs.cofinite
    maps := widen || d.runtimeTypePredicateMapTags.1
    binaries := widen || d.basic.binary
    callables := if widen then .any else d.runtimeTypePredicateCallables sub
    resources := widen || !d.resources.isEmpty }

end Step

/-- The projection, cut at depth `n`. -/
def runtimeTypePredicateAt (cx : TyCtx) : Nat → Descr → RuntimeTypePredicate
  | 0, _ => .none
  | n + 1, d => d.runtimeTypePredicateStep fun t => runtimeTypePredicateAt cx n (cx.descr t)

end Descr

/-- The test an interned type projects to.  The types a descriptor names are interned before it, so
its rank bounds the depth. -/
def TyCtx.runtimeTypePredicate (cx : TyCtx) (t : Ty) : RuntimeTypePredicate :=
  (cx.descr t).runtimeTypePredicateAt cx ((cx.descr t).rank + 1)

end Fz.Types
