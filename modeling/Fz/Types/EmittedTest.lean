import Fz.Terms.Heap
import Fz.Types.PredicateRelations
import Mathlib.Data.Finset.Sort
import Mathlib.Data.List.Lex
import Mathlib.Data.String.Basic

/-!
# The native runtime type test

The native backend emits a runtime test as straight-line code over flags.  A test is the `or` of the
axes it says anything on; an axis reads the value's tag and asks the rest under a guard, so that no
payload of the wrong kind is ever read.  The three struct axes share one schema read: whichever
comes first emits all three.

Emitted code is an expression tree.  A `FlagExpr` is what the builder returns for one flag, and its
`eval` is the meaning of the operations: a guard that fails answers 0, and a read of a field or a
payload the value does not have has no answer at all.
-/

namespace Fz.Types

open Fz.Terms (ValueKind)

/-! ## Emitted code -/

/-- A value in the emitted code: the tested one, or one it reads out of another. -/
inductive ValueExpr where
  | input
  | listHead (list : ValueExpr)
  | tupleField (tuple : ValueExpr) (index : Nat)

/-- A 64-bit word, read as a number. -/
inductive WordExpr where
  | iconst (n : Int)
  | rawInt (value : ValueExpr)
  | rawFloatBits (value : ValueExpr)
  | rawAtom (value : ValueExpr)
  | schemaId (value : ValueExpr)
  | closureCode (value : ValueExpr)

inductive FlagExpr where
  | iconst (n : UInt8)
  | kindFlag (value : ValueExpr) (kind : ValueKind)
  | emptyListFlag (value : ValueExpr)
  | consFlag (value : ValueExpr)
  | icmpEqual (left right : WordExpr)
  | icmpImmEqual (flag : FlagExpr) (n : UInt8)
  | icmpImmNotEqual (flag : FlagExpr) (n : UInt8)
  | bor (left right : FlagExpr)
  | band (left right : FlagExpr)
  | bxorImm (flag : FlagExpr) (n : UInt8)
  /-- A block reached only when the condition holds, joined with the answer no. -/
  | guarded (condition answer : FlagExpr)

/-- The value under test, and which of the binaries in it are held in a shared buffer. -/
structure TestedValue where
  value : RuntimeAnyValue
  sharedBinary : ValueExpr → Bool

def ValueExpr.eval (v : RuntimeAnyValue) : ValueExpr → Option RuntimeAnyValue
  | input => some v
  | listHead list => match list.eval v with
    | some (.cons head _) => some head
    | _ => none
  | tupleField tuple index => match tuple.eval v with
    | some (.struct _ fields) => fields[index]?
    | _ => none

/-- The tag of a value. -/
def RuntimeAnyValue.kind (sharedBinary : Bool) : RuntimeAnyValue → ValueKind
  | null => .null
  | emptyList | cons _ _ => .list
  | int _ => .int
  | float _ => .float
  | atom _ => .atom
  | map => .map
  | binary => if sharedBinary then .procbin else .bitstring
  | closure _ => .closure
  | resource => .resource
  | struct _ _ => .struct

def WordExpr.eval (v : RuntimeAnyValue) : WordExpr → Option Int
  | iconst n => some n
  | rawInt value => match value.eval v with
    | some (.int n) => some n.toInt
    | _ => none
  | rawFloatBits value => match value.eval v with
    | some (.float bits) => some bits.toNat
    | _ => none
  | rawAtom value => match value.eval v with
    | some (.atom index) => some index
    | _ => none
  | schemaId value => match value.eval v with
    | some (.struct schema _) => some schema
    | _ => none
  | closureCode value => match value.eval v with
    | some (.closure code) => some code
    | _ => none

namespace FlagExpr

/-- The flag the emitted operations compute. -/
def eval (m : TestedValue) : FlagExpr → Option UInt8
  | iconst n => some n
  | kindFlag value kind =>
    (value.eval m.value).map fun v => (decide (v.kind (m.sharedBinary value) = kind)).toUInt8
  | emptyListFlag value =>
    (value.eval m.value).map fun v => match v with
      | .emptyList => 1
      | _ => 0
  | consFlag value =>
    (value.eval m.value).map fun v => match v with
      | .cons _ _ => 1
      | _ => 0
  | icmpEqual left right => do
    let l ← left.eval m.value
    let r ← right.eval m.value
    return (decide (l = r)).toUInt8
  | icmpImmEqual flag n => (flag.eval m).map fun f => (decide (f = n)).toUInt8
  | icmpImmNotEqual flag n => (flag.eval m).map fun f => (decide (f ≠ n)).toUInt8
  | bor left right => do
    let l ← left.eval m
    let r ← right.eval m
    return l ||| r
  | band left right => do
    let l ← left.eval m
    let r ← right.eval m
    return l &&& r
  | bxorImm flag n => (flag.eval m).map (· ^^^ n)
  | guarded condition answer => do
    let c ← condition.eval m
    if c = 0 then return 0 else answer.eval m

end FlagExpr

attribute [grind =] ValueExpr.eval WordExpr.eval FlagExpr.eval RuntimeAnyValue.kind

/-! ## The emitter -/

/-- What is already known of a value's kind before a test runs. -/
inductive KindEvidence where
  | tagged
  | unboxed (kind : ValueKind)
  /-- Held in a form that answers no question of kind. -/
  | unanswered

/-- What a door supplies: how it holds values, the module's tables, and the code addresses of the
constructions a callable test lists. -/
structure RuntimeTestEmitter where
  kindEvidence : ValueExpr → KindEvidence
  atomNames : List String
  tupleSchemaIds : List (Nat × Nat)
  namedSchemaIds : List (List String × Nat)
  callableAddresses : CallableShapes RuntimeTypePredicate → List Nat

/-- The axes of a test. -/
inductive RuntimeTestAxis where
  | ints
  | floats
  | atoms
  | lists
  | tuples
  | namedStructs
  | otherStructs
  | maps
  | binaries
  | callables
  | resources

namespace RuntimeTestAxis

def all : List RuntimeTestAxis :=
  [ints, floats, atoms, lists, tuples, namedStructs, otherStructs, maps, binaries, callables,
    resources]

def isStruct : RuntimeTestAxis → Bool
  | tuples | namedStructs | otherStructs => true
  | _ => false

end RuntimeTestAxis

namespace RuntimeTypePredicate

/-- Whether a test says nothing at all on an axis. -/
def isNoneOn (p : RuntimeTypePredicate) : RuntimeTestAxis → Bool
  | .ints => p.ints.isNone
  | .floats => p.floats.isNone
  | .atoms => p.atoms.isNone
  | .lists => p.lists.shapes.isNone
  | .tuples => p.tuples.arities.isNone
  | .namedStructs => p.namedStructs.isNone
  | .otherStructs => !p.allowOtherStructs
  | .maps => !p.maps
  | .binaries => !p.binaries
  | .callables => p.callables.targets.isNone
  | .resources => !p.resources

/-- The axes a test says anything on, in table order. -/
def axes (p : RuntimeTypePredicate) : List RuntimeTestAxis :=
  RuntimeTestAxis.all.filter fun axis => !p.isNoneOn axis

end RuntimeTypePredicate

/-- A test of one value, as the emitter builds it. -/
abbrev ValueTest := ValueExpr → FlagExpr

/-- A set carried over to the words that stand for its members. -/
def FiniteSet.words {T : Type} (s : FiniteSet T) (word : T → Int) : FiniteSet Int :=
  ⟨s.values.image word, s.cofinite⟩

/-- Whether the word is one of those listed. -/
def emitAnyEqual (raw : WordExpr) (wants : List Int) : FlagExpr :=
  wants.foldl (fun hit want => .bor hit (.icmpEqual raw (.iconst want))) (.iconst 0)

def emitAnySchemaIdMatch (schema : WordExpr) (ids : List Nat) : FlagExpr :=
  emitAnyEqual schema (ids.map Int.ofNat)

def emitI64Membership (raw : WordExpr) (values : FiniteSet Int) : FlagExpr :=
  if values.isAny then .iconst 1
  else
    let eqAny := emitAnyEqual raw (values.values.sort (· ≤ ·))
    if values.cofinite then .icmpImmEqual eqAny 0 else eqAny

def emitU64Membership (raw : WordExpr) (values : FiniteSet UInt64) : FlagExpr :=
  emitI64Membership raw (values.words fun bits => bits.toNat)

namespace RuntimeTestEmitter

variable (E : RuntimeTestEmitter)

/-- Run `build` only where the value is of `kind`, and answer no elsewhere. -/
def kindGuarded (value : ValueExpr) (kind : ValueKind) (build : FlagExpr) : FlagExpr :=
  match E.kindEvidence value with
  | .unboxed known => if known = kind then build else .iconst 0
  | .unanswered => .iconst 0
  | .tagged => .guarded (.kindFlag value kind) build

/-- The number of an atom: a later entry of the table replaces an earlier one. -/
def nameToId (name : String) : Option Nat := E.atomNames.zipIdx.reverse.lookup name

/-- The atom axis in the runtime's own numbering. -/
def atomIdMembership (atoms : FiniteSet String) : FiniteSet Int :=
  ⟨atoms.values.biUnion fun name => match E.nameToId name with
    | some id => {(id : Int)}
    | none => ∅, atoms.cofinite⟩

def emitListAxis (value : ValueExpr) (lists : ListShapes RuntimeTypePredicate)
    (heads : List ValueTest) : FlagExpr :=
  let empty := lists.shapes.contains .empty
  let nonEmpty := lists.shapes.contains .nonEmpty
  if !nonEmpty then if empty then .emptyListFlag value else .iconst 0
  else if !lists.asksTheHead then if empty then .kindFlag value .list else .consFlag value
  else
    let head := ValueExpr.listHead value
    let admitted := FlagExpr.guarded (.consFlag value)
      (heads.foldl (fun flag question => .bor flag (question head)) (.iconst 0))
    if !empty then admitted else .bor (.emptyListFlag value) admitted

/-- Whether the value carries one of the listed code addresses.  The axis applies the cofinite
complement itself. -/
def emitCallableAxis (value : ValueExpr) (callables : CallableShapes RuntimeTypePredicate) :
    FlagExpr :=
  if callables.targets.isAny then .kindFlag value .closure
  else
    let hit := emitAnyEqual (.closureCode value) ((E.callableAddresses callables).map Int.ofNat)
    E.kindGuarded value .closure (if callables.targets.cofinite then .bxorImm hit 1 else hit)

/-- Whether the schema is an unnamed struct whose arity is in the set.  An arity without a schema
drops out of either reading. -/
def emitAritySetMembership (schema : WordExpr) (arities : FiniteSet Nat) : FlagExpr :=
  let ofArities := (arities.values.sort (· ≤ ·)).filterMap fun arity =>
    E.tupleSchemaIds.lookup arity
  if !arities.cofinite then emitAnySchemaIdMatch schema ofArities
  else
    let knownNamed := emitAnySchemaIdMatch schema (E.namedSchemaIds.map Prod.snd)
    if arities.isAny then .icmpImmEqual knownNamed 0
    else
      let excluded := emitAnySchemaIdMatch schema ofArities
      .band (.bxorImm (.icmpImmNotEqual knownNamed 0) 1) (.icmpImmEqual excluded 0)

def emitNamedStructAxis (schema : WordExpr) (names : FiniteSet (List String)) : FlagExpr :=
  if names.isNone then .iconst 0
  else
    let allNamed := E.namedSchemaIds.map Prod.snd
    if names.isAny then emitAnySchemaIdMatch schema allNamed
    else
      let relevant := (names.values.sort (· ≤ ·)).filterMap fun name => E.namedSchemaIds.lookup name
      let matched := emitAnySchemaIdMatch schema relevant
      if !names.cofinite then matched
      else .band (emitAnySchemaIdMatch schema allNamed) (.icmpImmEqual matched 0)

/-- One shape: the conjunction of its positions, each asked of its field. -/
def emitShape (value : ValueExpr) (shape : List ValueTest) : FlagExpr :=
  let matched : Option FlagExpr := shape.zipIdx.foldl (fun matched position =>
    let flag := position.1 (.tupleField value position.2)
    match matched with
    | none => some flag
    | some prev => some (.band prev flag)) none
  matched.getD (.iconst 1)

/-- Whether some shape of the arity matches the value's fields. -/
def emitShapesOfArity (value : ValueExpr) (p : RuntimeTypePredicate)
    (shapes : List (List ValueTest)) (arity : Nat) : FlagExpr :=
  match p.tuplePositions arity with
  | .never => .iconst 0
  | .always => .iconst 1
  | .anyOf =>
    (shapes.filter fun shape => shape.length = arity).foldl
      (fun hit shape => .bor hit (emitShape value shape)) (.iconst 0)

/-- The arity question, and each position's own question beneath it where the shapes are known. -/
def emitTupleAxis (value : ValueExpr) (p : RuntimeTypePredicate) (shapes : List (List ValueTest))
    (schema : WordExpr) : FlagExpr :=
  let arities := p.tuples.arities
  if arities.isNone then .iconst 0
  else if !p.tuples.isExact then E.emitAritySetMembership schema arities
  else
    (arities.values.sort (· ≤ ·)).foldl (fun hit arity =>
      match E.tupleSchemaIds.lookup arity with
      | none => hit
      | some schemaId => .bor hit (.guarded (.icmpEqual schema (.iconst schemaId))
        (emitShapesOfArity value p shapes arity))) (.iconst 0)

/-- The three struct axes, sharing one schema read. -/
def emitStructAxes (value : ValueExpr) (p : RuntimeTypePredicate)
    (shapes : List (List ValueTest)) : FlagExpr :=
  if p.otherStructArities.isAny && p.namedStructs.isAny then .kindFlag value .struct
  else
    let schema := WordExpr.schemaId value
    .guarded (.kindFlag value .struct)
      (.bor (.bor (E.emitTupleAxis value p shapes schema)
        (E.emitNamedStructAxis schema p.namedStructs))
        (E.emitAritySetMembership schema p.otherStructArities))

/-- One axis' answer. -/
def emitAxis (value : ValueExpr) (p : RuntimeTypePredicate) (heads : List ValueTest)
    (shapes : List (List ValueTest)) : RuntimeTestAxis → FlagExpr
  | .ints =>
    E.kindGuarded value .int (emitI64Membership (.rawInt value) (p.ints.words Int64.toInt))
  | .floats => E.kindGuarded value .float (emitU64Membership (.rawFloatBits value) p.floats)
  | .atoms =>
    E.kindGuarded value .atom (emitI64Membership (.rawAtom value) (E.atomIdMembership p.atoms))
  | .lists => emitListAxis value p.lists heads
  | .maps => .kindFlag value .map
  | .binaries => .bor (.kindFlag value .bitstring) (.kindFlag value .procbin)
  | .resources => .kindFlag value .resource
  | .callables => E.emitCallableAxis value p.callables
  | .tuples | .namedStructs | .otherStructs => E.emitStructAxes value p shapes

/-- The loop over the axes: the flag so far, and whether the struct axes are already in it. -/
def emitAxes (value : ValueExpr) (p : RuntimeTypePredicate) (heads : List ValueTest)
    (shapes : List (List ValueTest)) : List RuntimeTestAxis → Bool → Option FlagExpr → FlagExpr
  | [], _, flag => flag.getD (.iconst 0)
  | axis :: axes, structsEmitted, flag =>
    if axis.isStruct && structsEmitted then emitAxes value p heads shapes axes structsEmitted flag
    else
      let next := E.emitAxis value p heads shapes axis
      emitAxes value p heads shapes axes (structsEmitted || axis.isStruct)
        (some (match flag with
          | none => next
          | some prev => .bor prev next))

mutual
/-- Ask a test of a value: a flag, 1 where the value is admitted. -/
def emitRuntimeTypeTest : RuntimeTypePredicate → ValueTest
  | ⟨ints, floats, atoms, ⟨listShapes, heads, listsExact⟩, ⟨arities, tuples, tuplesExact⟩, named,
      other, maps, binaries, callables, resources⟩, value =>
    let p : RuntimeTypePredicate := ⟨ints, floats, atoms, ⟨listShapes, heads, listsExact⟩,
      ⟨arities, tuples, tuplesExact⟩, named, other, maps, binaries, callables, resources⟩
    E.emitAxes value p (emitQuestions heads) (emitQuestionLists tuples) p.axes false none

/-- The questions of a list clause, or of the positions of one shape. -/
def emitQuestions : List RuntimeTypePredicate → List ValueTest
  | [] => []
  | question :: rest => emitRuntimeTypeTest question :: emitQuestions rest

def emitQuestionLists : List (List RuntimeTypePredicate) → List (List ValueTest)
  | [] => []
  | shape :: rest => emitQuestions shape :: emitQuestionLists rest
end

end RuntimeTestEmitter

end Fz.Types
