import Fz.Base.Except
import Fz.Types.PredicateRelations
import Mathlib.Data.Finset.Sort

/-!
# Type tests on lanes

A tuple need not be a heap object: it may travel as the lanes of its fields, laid end to end.  Its
shape says which fields travel as one word and which as the lanes of a structure of their own.  Such
a value has no schema to read, so a type test of it asks the predicate what it wants of a tuple of
that arity and puts one question to each field (`TypeTest.matchesValue`).  Only a field that is one
word is offered to the matcher of whole values, under a reader built for that field's question.

The value that lanes denote is the one `materializeTransportValue` builds of them.
-/

namespace Fz.Types

open Fz.Base

/-! ## Shapes -/

inductive TransportCarrier where
  | absent
  | valueRef
  deriving DecidableEq

/-- How a field travels: as the lanes of its structure, or as one published word. -/
structure TransportLayout (S : Type) where
  structural : S
  carrier : TransportCarrier

/-- A callable as its captures; one of no known function has a published word instead. -/
structure CallableDescr (S : Type) where
  function : Option Nat
  arity : Nat
  captureLayouts : List (TransportLayout S)

/-- What a value's lanes stand for.  The source interns shapes; here a shape is the tree its ids
spell. -/
inductive ShapeDescr where
  | nothing
  | lane
  | tuple (fields : List (TransportLayout ShapeDescr))
  | callable (callable : CallableDescr ShapeDescr)

namespace ShapeDescr

mutual
def shapeWidth : ShapeDescr → Nat
  | nothing => 0
  | lane => 1
  | tuple fields => layoutsWidth fields
  | callable ⟨_, _, captures⟩ => layoutsWidth captures

def layoutsWidth : List (TransportLayout ShapeDescr) → Nat
  | [] => 0
  | ⟨structural, .absent⟩ :: rest => structural.shapeWidth + layoutsWidth rest
  | ⟨_, .valueRef⟩ :: rest => 1 + layoutsWidth rest
end

def fieldLayouts : ShapeDescr → Option (List (TransportLayout ShapeDescr))
  | tuple fields => some fields
  | callable c => some c.captureLayouts
  | nothing | lane => none

def tupleArity : ShapeDescr → Option Nat
  | tuple fields => some fields.length
  | _ => none

end ShapeDescr

def TransportLayout.layoutWidth (layout : TransportLayout ShapeDescr) : Nat :=
  match layout.carrier with
  | .absent => layout.structural.shapeWidth
  | .valueRef => 1

/-- A field, and the half-open range of lanes it occupies. -/
structure FieldSpan where
  layout : TransportLayout ShapeDescr
  start : Nat
  stop : Nat

/-- The spans of fields laid end to end from an offset. -/
def spansFrom (offset : Nat) : List (TransportLayout ShapeDescr) → List FieldSpan
  | [] => []
  | layout :: rest =>
    ⟨layout, offset, offset + layout.layoutWidth⟩ :: spansFrom (offset + layout.layoutWidth) rest

def ShapeDescr.fieldSpans (shape : ShapeDescr) : Option (List FieldSpan) :=
  shape.fieldLayouts.map (spansFrom 0)

/-! ## Words and lanes -/

/-- A word of the interpreter.  A reference is held as what it reads to: `none` stands for a word
with no storage behind it. -/
inductive AnyValue where
  | null
  | int (n : Int64)
  | float (bits : UInt64)
  | atom (index : Nat)
  | emptyList
  | fnRef (fn arity denotation : Nat)
  | ref (target : Option RuntimeAnyValue)

inductive BackendBoundValue where
  | absent
  | runtime (word : AnyValue)
  | transport (shape : ShapeDescr) (lanes : List AnyValue)

/-- Why a value could not be read in the form it was asked for. -/
inductive LaneError where
  | notMaterialized
  | laneCount (shape : ShapeDescr) (expected got : Nat)
  | noFields (shape : ShapeDescr)
  | invalidSpan (shape : ShapeDescr)
  | noFieldLane (shape : ShapeDescr)
  | noScalarLane (shape : ShapeDescr)
  | noRuntimeLane (shape : ShapeDescr)
  | noPublishedLane (shape : ShapeDescr)
  | noEnvironment
  | storageView
  | noValueToAsk
  | cannotReadLaneForm (shape : ShapeDescr)

/-- The text of an error, given how shapes are printed. -/
def LaneError.text (debug : ShapeDescr → String) : LaneError → String
  | notMaterialized => "backend value was absent and cannot be materialized"
  | laneCount shape expected got =>
    s!"backend transport shape {debug shape} expected {expected} lane(s), got {got}"
  | noFields shape => s!"backend transport shape {debug shape} has no fields"
  | invalidSpan shape => s!"backend transport shape {debug shape} has an invalid lane span"
  | noFieldLane shape => s!"backend ValueRef field in {debug shape} has no runtime lane"
  | noScalarLane shape => s!"backend scalar transport shape {debug shape} has no runtime lane"
  | noRuntimeLane shape => s!"backend transport shape {debug shape} has no runtime lane"
  | noPublishedLane shape =>
    s!"backend generic callable shape {debug shape} has no published lane"
  | noEnvironment => "direct-only callable transport has no published runtime environment"
  | storageView => "interpreter ref storage view"
  | noValueToAsk => "backend type test has no value to ask"
  | cannotReadLaneForm shape => s!"backend type test cannot read lane-form {debug shape}"

/-- What a word reads to.  A function reference is given a closure with no captures. -/
def AnyValue.value : AnyValue → Except LaneError RuntimeAnyValue
  | null => .ok .null
  | int n => .ok (.int n)
  | float bits => .ok (.float bits)
  | atom index => .ok (.atom index)
  | emptyList => .ok .emptyList
  | fnRef fn _ _ => .ok (.closure fn)
  | ref (some target) => .ok target
  | ref none => .error .storageView

def decodeBackendValueFromLanes (shape : ShapeDescr) (lanes : List AnyValue) :
    Except LaneError BackendBoundValue :=
  if lanes.length ≠ shape.shapeWidth then
    .error (.laneCount shape shape.shapeWidth lanes.length)
  else match shape with
    | .nothing => .ok .absent
    | .lane => match lanes.head? with
      | some word => .ok (.runtime word)
      | none => .error (.noScalarLane shape)
    | .tuple _ | .callable _ => .ok (.transport shape lanes)

/-- The lane spans of a shape's fields, checked against the lanes in hand. -/
def fieldSpansFor (shape : ShapeDescr) (lanes : List AnyValue) :
    Except LaneError (List FieldSpan) :=
  if lanes.length ≠ shape.shapeWidth then
    .error (.laneCount shape shape.shapeWidth lanes.length)
  else match shape.fieldSpans with
    | some spans => .ok spans
    | none => .error (.noFields shape)

/-- One field of a value in lanes, read out of the span it occupies. -/
def decodeField (shape : ShapeDescr) (lanes : List AnyValue) (span : FieldSpan) :
    Except LaneError BackendBoundValue :=
  if span.stop ≤ lanes.length then
    let fieldLanes := (lanes.drop span.start).take (span.stop - span.start)
    match span.layout.carrier with
    | .valueRef => match fieldLanes.head? with
      | some word => .ok (.runtime word)
      | none => .error (.noFieldLane shape)
    | .absent => decodeBackendValueFromLanes span.layout.structural fieldLanes
  else .error (.invalidSpan shape)

def transportFieldViews (shape : ShapeDescr) (lanes : List AnyValue) :
    Except LaneError (List BackendBoundValue) := do
  let spans ← fieldSpansFor shape lanes
  spans.mapM (decodeField shape lanes)

variable {fields : List (TransportLayout ShapeDescr)}

theorem mem_spansFrom {offset : Nat}
    {span : FieldSpan} (h : span ∈ spansFrom offset fields) : span.layout ∈ fields := by
  induction fields generalizing offset with
  | nil => exact nomatch h
  | cons layout rest ih =>
    rcases List.mem_cons.mp h with rfl | h
    · exact .head _
    · exact .tail _ (ih h)

theorem sizeOf_structural_lt {layout : TransportLayout ShapeDescr} (h : layout ∈ fields) :
    sizeOf layout.structural < sizeOf fields := by
  have hlayout := List.sizeOf_lt_of_mem h
  obtain ⟨structural, carrier⟩ := layout
  rw [TransportLayout.mk.sizeOf_spec] at hlayout
  dsimp only
  omega

theorem decodeField_transport {shape structural : ShapeDescr} {lanes fieldLanes : List AnyValue}
    {span : FieldSpan} (h : decodeField shape lanes span = .ok (.transport structural fieldLanes)) :
    span.layout.carrier = .absent ∧ structural = span.layout.structural ∧
      ((∃ fields, structural = .tuple fields) ∨ ∃ c, structural = .callable c) := by
  obtain ⟨⟨s, carrier⟩, start, stop⟩ := span
  rw [decodeField] at h
  split at h
  · cases carrier with
    | valueRef => dsimp only at h; split at h <;> cases h
    | absent =>
      dsimp only [decodeBackendValueFromLanes] at h
      split at h
      · cases h
      · cases s with
        | nothing => cases h
        | lane => dsimp only at h; split at h <;> cases h
        | tuple fields => cases h; exact ⟨rfl, rfl, .inl ⟨fields, rfl⟩⟩
        | callable c => cases h; exact ⟨rfl, rfl, .inr ⟨c, rfl⟩⟩
  · cases h

theorem transportFieldViews_tuple {lanes : List AnyValue} {views : List BackendBoundValue} :
    transportFieldViews (.tuple fields) lanes = .ok views ↔
      lanes.length = (ShapeDescr.tuple fields).shapeWidth ∧
        List.Forall₂ (fun span view => decodeField (.tuple fields) lanes span = .ok view)
          (spansFrom 0 fields) views := by
  rw [transportFieldViews, Except.bind_eq_ok, fieldSpansFor]
  split
  · rename_i hwidth
    constructor
    · rintro ⟨_, ⟨⟩, _⟩
    · exact fun h => absurd h.1 hwidth
  · rename_i hwidth
    refine ⟨?_, fun ⟨_, h⟩ => ⟨spansFrom 0 fields, rfl, Except.mapM_eq_ok.mpr h⟩⟩
    rintro ⟨spans, ⟨⟩, h⟩
    exact ⟨not_not.mp hwidth, Except.mapM_eq_ok.mp h⟩

theorem sizeOf_fieldView_lt {lanes : List AnyValue}
    {views : List BackendBoundValue} (h : transportFieldViews (.tuple fields) lanes = .ok views)
    {shape : ShapeDescr} {fieldLanes : List AnyValue}
    (hview : .transport shape fieldLanes ∈ views) : sizeOf shape < 1 + sizeOf fields := by
  obtain ⟨span, hspan, hdecode⟩ := exists_of_forall₂_right (transportFieldViews_tuple.mp h).2 hview
  obtain ⟨-, rfl, -⟩ := decodeField_transport hdecode
  have hlt := sizeOf_structural_lt (mem_spansFrom hspan)
  omega

/-! ## What a type test needs -/

namespace RuntimeTypePredicate

mutual
/-- Whether a test, or a question in it, needs to know which schemas the module named. -/
def readsNamedSchemas : RuntimeTypePredicate → Bool
  | ⟨_, _, _, ⟨_, heads, _⟩, ⟨arities, tuples, _⟩, namedStructs, allowOtherStructs, _, _, _, _⟩ =>
    (!namedStructs.isNone || arities.cofinite || allowOtherStructs) ||
      (somePositionReadsNamed heads || someShapeReadsNamed tuples)

def somePositionReadsNamed : List RuntimeTypePredicate → Bool
  | [] => false
  | p :: ps => readsNamedSchemas p || somePositionReadsNamed ps

def someShapeReadsNamed : List (List RuntimeTypePredicate) → Bool
  | [] => false
  | s :: ss => somePositionReadsNamed s || someShapeReadsNamed ss
end

end RuntimeTypePredicate

/-- What a type test asks of the process and the program.  The heap numbers a schema when it is
first registered and never numbers it anew, so a run sees one numbering; no two schemas share a
number. -/
structure TypeTest where
  atomNames : List String
  structSchemas : List (List String)
  callables : Nat → Option (CallableShape RuntimeTypePredicate)
  tupleSchema : Nat → Nat
  namedSchema : List String → Nat
  tupleSchema_inj : Function.Injective tupleSchema
  tuple_ne_named : ∀ arity name, tupleSchema arity ≠ namedSchema name

namespace TypeTest

variable (T : TypeTest)

/-- The tables one test is read with: its arities at every depth, and the module's structs where it
reads them. -/
def interpRuntimeTypePredicateSchemaIds (p : RuntimeTypePredicate) :
    List (Nat × Nat) × List (List String × Nat) :=
  ((p.tupleAritiesAtEveryDepth.sort (· ≤ ·)).map fun arity => (arity, T.tupleSchema arity),
    if p.readsNamedSchemas then T.structSchemas.map fun name => (name, T.namedSchema name) else [])

def reader (p : RuntimeTypePredicate) : RuntimeValueReader where
  atomNames := T.atomNames
  structSchemas := T.structSchemas
  tupleSchemaIds := (T.interpRuntimeTypePredicateSchemaIds p).1
  namedSchemaIds := (T.interpRuntimeTypePredicateSchemaIds p).2
  callables := T.callables

/-- Whether one whole runtime value satisfies a test. -/
def wholeValueMatches (p : RuntimeTypePredicate) (word : AnyValue) : Bool :=
  match word.value with
  | .error _ => false
  | .ok value => p.matchesRuntimeTypePredicate (T.reader p) value

/-! ## The value lanes denote -/

/-- A tuple on the heap. -/
def makeTuple (items : List AnyValue) : Except LaneError AnyValue := do
  let fields ← items.mapM AnyValue.value
  .ok (.ref (some (.struct (T.tupleSchema items.length) fields)))

def materializeTransportValue (shape : ShapeDescr) (lanes : List AnyValue) :
    Except LaneError AnyValue :=
  match shape with
  | .nothing => .error .notMaterialized
  | .lane => match lanes.head? with
    | some word => .ok word
    | none => .error (.noRuntimeLane .lane)
  | .tuple fields =>
    match hviews : transportFieldViews (.tuple fields) lanes with
    | .error e => .error e
    | .ok views => do
      let items ← views.attach.mapM fun
        | ⟨.absent, _⟩ => .error .notMaterialized
        | ⟨.runtime word, _⟩ => .ok word
        | ⟨.transport fieldShape fieldLanes, hview⟩ =>
          have := sizeOf_fieldView_lt hviews hview
          materializeTransportValue fieldShape fieldLanes
      T.makeTuple items
  | .callable c =>
    match c.function with
    | none => match lanes.head? with
      | some word => .ok word
      | none => .error (.noPublishedLane (.callable c))
    | some function =>
      if c.captureLayouts.isEmpty then .ok (.fnRef function c.arity function)
      else .error .noEnvironment
termination_by sizeOf shape

def materializeBackendValue : BackendBoundValue → Except LaneError AnyValue
  | .absent => .error .notMaterialized
  | .runtime word => .ok word
  | .transport shape lanes => T.materializeTransportValue shape lanes

theorem materialize_tuple (fields : List (TransportLayout ShapeDescr)) (lanes : List AnyValue) :
    T.materializeTransportValue (.tuple fields) lanes = (do
      let views ← transportFieldViews (.tuple fields) lanes
      let items ← views.mapM T.materializeBackendValue
      T.makeTuple items) := by
  rw [materializeTransportValue]
  split
  · rename_i e hviews
    rw [hviews]
    rfl
  · rename_i views hviews
    refine Eq.trans ?_ (congrArg (· >>= fun views =>
      views.mapM T.materializeBackendValue >>= T.makeTuple) hviews).symm
    show _ = views.mapM T.materializeBackendValue >>= T.makeTuple
    congr 1
    conv_rhs => rw [← List.attach_map_subtype_val views, List.mapM_map]
    congr 1
    funext ⟨view, hview⟩
    cases view <;> rfl

/-! ## The test -/

open RuntimeTypePredicate (tuplePositions)

mutual
/-- Ask a type test of a value in whatever form it is held. -/
def matchesValue : RuntimeTypePredicate → BackendBoundValue → Except LaneError Bool
  | ⟨ints, floats, atoms, lists, ⟨arities, tuples, tuplesExact⟩, named, other, maps, binaries,
      callables, resources⟩, value =>
    let p : RuntimeTypePredicate := ⟨ints, floats, atoms, lists, ⟨arities, tuples, tuplesExact⟩,
      named, other, maps, binaries, callables, resources⟩
    match value with
    | .runtime word => .ok (T.wholeValueMatches p word)
    | .absent => .error .noValueToAsk
    | .transport shape lanes =>
      match shape.tupleArity with
      | none => .error (.cannotReadLaneForm shape)
      | some arity =>
        match p.tuplePositions arity with
        | .never => .ok false
        | .always => .ok true
        | .anyOf => do
          let spans ← fieldSpansFor shape lanes
          someShapeMatchesLanes tuples arity shape lanes spans

def someShapeMatchesLanes : List (List RuntimeTypePredicate) → Nat → ShapeDescr → List AnyValue →
    List FieldSpan → Except LaneError Bool
  | [], _, _, _, _ => .ok false
  | positions :: shapes, arity, shape, lanes, spans =>
    if positions.length = arity then do
      let matched ← positionsMatchLanes positions shape lanes spans
      if matched then .ok true else someShapeMatchesLanes shapes arity shape lanes spans
    else someShapeMatchesLanes shapes arity shape lanes spans

/-- A field is decoded only where a position asks about it, and only until one refuses. -/
def positionsMatchLanes : List RuntimeTypePredicate → ShapeDescr → List AnyValue →
    List FieldSpan → Except LaneError Bool
  | [], _, _, _ => .ok true
  | _ :: _, _, _, [] => .ok true
  | position :: positions, shape, lanes, span :: spans => do
    let view ← decodeField shape lanes span
    let matched ← matchesValue position view
    if matched then positionsMatchLanes positions shape lanes spans else .ok false
end

theorem matchesValue_eq (p : RuntimeTypePredicate) (value : BackendBoundValue) :
    T.matchesValue p value =
      match value with
      | .runtime word => .ok (T.wholeValueMatches p word)
      | .absent => .error .noValueToAsk
      | .transport shape lanes =>
        match shape.tupleArity with
        | none => .error (.cannotReadLaneForm shape)
        | some arity =>
          match p.tuplePositions arity with
          | .never => .ok false
          | .always => .ok true
          | .anyOf => fieldSpansFor shape lanes >>=
            T.someShapeMatchesLanes p.tuples.shapes arity shape lanes := by
  obtain ⟨_, _, _, _, ⟨_, _, _⟩, _, _, _, _, _, _⟩ := p
  cases value <;> rfl

end TypeTest

end Fz.Types
