import Fz.Dispatch.Exec

/-!
# Deciding a plan from its inputs alone

What a plan means without slots and a journal: a subject is read from the inputs each time it is
asked for, and a question is answered from the subjects it names.  A bitstring field is read by
reading the fields before it, first to last, as the chain of its extraction names them.

This is the abstract side of the executor, stated in the executor's own operations on values
(`projectWord`, `readExtraction`, the operators of a guard).
-/

namespace Fz.Dispatch

open Fz.Terms Fz.Bitstr

variable {TH D : Type}

/-- `or_miss` on a result. -/
def Except.orMiss {α : Type} : Except DispatchStop α → Except DispatchStop (Option α)
  | .ok a => .ok (some a)
  | .error .noMatch => .ok none
  | .error stop => .error stop

namespace Direct

variable (rt : Runtime TH) (runHelper : RunHelper D) (plan : PatternDispatchPlan TH D)
  (ops : DispatchOperands)

/-! ## Subjects -/

/-- The word a value denotes, for a question that wants the whole value. -/
def wordOf (subject : SubjectId) : Bound → Except DispatchStop Value
  | .runtime value => .ok value
  | .absent => .error (.broken (.noRuntimeValue subject))
  | lanes => unbroken lanes.word

/-- One projection out of a value in the form it has. -/
def projectBound (source : SubjectId) (kind : ProjectionKind) (b : Bound) :
    Except DispatchStop Bound :=
  match kind, b with
  | .tupleField index, .tuple fields =>
    match fields[index]? with
    | some field => .ok field
    | none => .error (.broken (.fieldOutOfBounds index))
  | kind, b => do
    let word ← wordOf source b
    let field ← projectWord rt plan.preparedKeys ops word kind
    .ok (.runtime field)

/-- The fields of a bitstring up to one of them, first to last. -/
def fieldsUpTo (subjects : List Subject) : Nat → SubjectId → List SubjectId
  | 0, _ => []
  | fuel + 1, field =>
    match Exec.bitstringExtraction subjects field with
    | some ⟨some previous, _, _⟩ => fieldsUpTo subjects fuel previous ++ [field]
    | _ => [field]

/-- How wide a field says it is, from the fields already read. -/
def sizeFrom (read : List (SubjectId × Value)) :
    Option BitstringFieldSize → Option (Option (BitVec 32))
  | none => some none
  | some (.literal size) => some (some (BitVec.ofNat 32 size))
  | some (.binding field) => ((read.lookup field).bind sizeWord).map some
  | some (.pinned pin) => (ops.pinned[pin]?.bind sizeWord).map some

/-- Read fields one by one, newest first; `none` when one is not there. -/
def readEach : List SubjectId → Reader → List (SubjectId × Value) →
    Option (List (SubjectId × Value) × Reader)
  | [], reader, read => some (read, reader)
  | field :: fields, reader, read => do
    let extraction ← Exec.bitstringExtraction plan.graph.subjects field
    let size ← sizeFrom ops read extraction.spec.size
    let (value, reader) ← readExtraction rt.hostIsLittleEndian reader extraction size
    readEach fields reader ((field, value) :: read)

/-- One field out of the word of its bitstring. -/
def fieldValue (field : SubjectId) (word : Value) : Except DispatchStop Bound :=
  match word with
  | .bits b =>
    let fields := fieldsUpTo plan.graph.subjects (field + 1) field
    match readEach rt plan ops fields (readerInit b) [] with
    | some (read, _) => required ((read.lookup field).map .runtime)
    | none => .error .noMatch
  | _ => .error .noMatch

/-- The value of a subject.  A subject's source is made before it, so `fuel` above the subject does
not run out. -/
@[grind =] def subjectValue : Nat → SubjectId → Except DispatchStop Bound
  | 0, _ => .error .abort
  | fuel + 1, subject =>
    match plan.graph.subjects[subject]? with
    | none => .error .noMatch
    | some ⟨_, .input ordinal⟩ =>
      match ops.inputs[ordinal]?.join with
      | some value => .ok value
      | none => .error (.broken (.missingInput ordinal))
    | some ⟨_, .projection ⟨source, .bitstringField _⟩⟩ => do
      let word ← wordOf source (← subjectValue fuel source)
      fieldValue rt plan ops subject word
    | some ⟨_, .projection ⟨source, kind⟩⟩ => do
      projectBound rt plan ops source kind (← subjectValue fuel source)

def value (subject : SubjectId) : Except DispatchStop Bound :=
  subjectValue rt plan ops (subject + 1) subject

def word (subject : SubjectId) : Except DispatchStop Value := do
  wordOf subject (← value rt plan ops subject)

/-! ## Questions -/

mutual
def evalGuard : PatternGuardExpr D → Except DispatchStop Value
  | .const value => required (rt.dispatchConstToValue value)
  | .subject subject => word rt plan ops subject
  | .pinned pin => required ops.pinned[pin]?
  | .unary op expr => do rt.guardUnOp op (← evalGuard expr)
  | .binary op lhs rhs => do
    let l ← evalGuard lhs
    match Operators.shortCircuit op l with
    | some v => .ok v
    | none => do rt.guardBinOp op l (← evalGuard rhs)
  | .dispatch inputs prepared dispatch => do
    let values ← evalGuards inputs
    runHelper dispatch (prepared.map fun id => ops.prepared[id]?.join) values

def evalGuards : List (PatternGuardExpr D) → Except DispatchStop (List Value)
  | [] => .ok []
  | expr :: exprs => do
    let v ← evalGuard expr
    let vs ← evalGuards exprs
    .ok (v :: vs)
end

/-- The questions that want the whole value. -/
def wordHit (word : Value) : Region TH → Except DispatchStop Bool
  | .equal (.const value) => .ok (rt.dispatchConstEq word value)
  | .equal (.pinned pin) =>
    match ops.pinned[pin]? with
    | some want => .ok (rt.valueEq want word)
    | none => .ok false
  | .list .empty => .ok (match word with | .emptyList => true | _ => false)
  | .list .cons => .ok (match word with | .cons _ _ => true | _ => false)
  | .mapKind => .ok (match word with | .map _ => true | _ => false)
  | .mapKeyPresent key => .ok (mapLookup rt plan.preparedKeys ops word key).isSome
  | .bitstring shape =>
    match word with
    | .bits b =>
      match readEach rt plan ops shape.fields (readerInit b) [] with
      | none => .ok false
      | some (_, reader) => .ok (!shape.requireDone || readerDone reader)
    | _ => .ok false
  | .type _ | .tupleArity _ | .guard _ => .error .abort

def regionHit (subject : SubjectId) (region : Region TH) : Except DispatchStop Bool := do
  match region with
  | .guard guard =>
    match plan.guards[guard]? with
    | none => .ok false
    | some expr =>
      match ← Except.orMiss (evalGuard rt runHelper plan ops expr) with
      | none => .ok false
      | some value => .ok value.isTruthy
  | .type ty =>
    match ← Except.orMiss (value rt plan ops subject) with
    | none => .ok false
    | some b => unbroken (rt.typeMatches ty b)
  | .tupleArity arity =>
    match ← Except.orMiss (value rt plan ops subject) with
    | none => .ok false
    | some (.tuple fields) => .ok (fields.length = arity)
    | some b =>
      match ← Except.orMiss (wordOf subject b) with
      | some (.tuple fields) => .ok (fields.length = arity)
      | _ => .ok false
  | region =>
    match ← Except.orMiss (word rt plan ops subject) with
    | none => .ok false
    | some word => wordHit rt plan ops word region

def projectAll : List SubjectId → Except DispatchStop Unit
  | [] => .ok ()
  | projection :: projections => do
    let _ ← value rt plan ops projection
    projectAll projections

/-- Whether a question is answered yes: its region is hit, and what its match edge projects is
there. -/
def answer (question : RegionQuestion TH) : Except DispatchStop Bool := do
  if ← regionHit rt runHelper plan ops question.predicate.subject question.predicate.region then
    return (← Except.orMiss (projectAll rt plan ops question.matchEvidence.projections)).isSome
  else return false

/-! ## The graph -/

def node : Nat → GraphNodeId → Except DispatchStop OutcomeId
  | 0, _ => .error .abort
  | fuel + 1, id =>
    match plan.graph.nodes[id]? with
    | none => .error .noMatch
    | some .fail => .error .noMatch
    | some (.outcome outcome _) => .ok outcome
    | some (.test predicate onMatch onMiss) => do
      if ← answer rt runHelper plan ops (askedQuestion predicate onMatch onMiss) then
        node fuel onMatch.target
      else node fuel onMiss.target

def run : Except DispatchStop OutcomeId :=
  node rt runHelper plan ops (plan.graph.root + 1) plan.graph.root

def readBindings : List PatternDispatchBinding → Except DispatchStop (List (String × Value))
  | [] => .ok []
  | binding :: bindings => do
    let value ← word rt plan ops binding.source
    let rest ← readBindings bindings
    .ok ((binding.name, value) :: rest)

end Direct

/-- What a plan means for its inputs. -/
def PatternDispatchPlan.evaluate (rt : Runtime TH) (runHelper : RunHelper D)
    (plan : PatternDispatchPlan TH D) (ops : DispatchOperands) : RunResult :=
  match Direct.run rt runHelper plan ops with
  | .error .noMatch => .fallback
  | .error stop => .stopped stop
  | .ok outcome =>
    match plan.outcomes[outcome]? with
    | none => .stopped .abort
    | some ⟨bodyId, bindings⟩ =>
      match Direct.readBindings rt plan ops bindings with
      | .error stop => .stopped stop
      | .ok bindings => .body bodyId bindings

end Fz.Dispatch
