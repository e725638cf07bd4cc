import Fz.Dispatch.CompileCorrect
import Fz.Dispatch.Value

/-!
# Executing a dispatch plan

The executor walks a plan's graph with a slot for each subject.  A slot is filled when a question
first reads its subject; a journal names the slots written since the run began.  A test opens a
branch, and when it misses, the slots its branch wrote are cleared.  A cleared slot is filled again
from the inputs when it is read again, except a bitstring field: only the test that reads the
bitstring fills it.

A state outlives an error, as the source's mutable state does: a question that is not answered has
written what it wrote before it stopped.  A value arrives as a runtime word or as lanes, a tuple's
one group for each field.  What the executor leaves to the process is a parameter (`Runtime`).
-/

namespace Fz.Dispatch

open Fz.Base Fz.Terms Fz.Bitstr

/-! ## Values as they arrive -/

/-- A value in the form it is delivered (`BackendBoundValue`). -/
inductive Bound where
  | runtime (value : Value)
  /-- Published as nothing. -/
  | absent
  /-- A tuple as lanes. -/
  | tuple (fields : List Bound)
  /-- A callable as lanes, and its word when it has one. -/
  | callable (word : Option Value)

mutual
/-- The one word a value denotes.  Lanes are built into one. -/
def Bound.word : Bound → Except Broken Value
  | .runtime value => .ok value
  | .absent => .error .notMaterialized
  | .tuple fields => .tuple <$> Bound.words fields
  | .callable (some value) => .ok value
  | .callable none => .error .notMaterialized

def Bound.words : List Bound → Except Broken (List Value)
  | [] => .ok []
  | field :: fields => do
    let value ← field.word
    let values ← Bound.words fields
    .ok (value :: values)
end

theorem Bound.words_getElem? {fields : List Bound} {vs : List Value}
    (h : Bound.words fields = .ok vs) (i : Nat) :
    (∃ f v, fields[i]? = some f ∧ vs[i]? = some v ∧ f.word = .ok v) ∨
      fields[i]? = none ∧ vs[i]? = none := by
  induction fields generalizing vs i with
  | nil =>
    cases h
    exact .inr ⟨rfl, rfl⟩
  | cons f fields ih =>
    rw [Bound.words] at h
    obtain ⟨v, hv, h⟩ := Except.bind_eq_ok.mp h
    obtain ⟨vs', hvs, h⟩ := Except.bind_eq_ok.mp h
    cases h
    cases i with
    | zero => exact .inl ⟨f, v, rfl, rfl, hv⟩
    | succ i => exact ih hvs i

theorem Bound.length_words {fields : List Bound} {vs : List Value}
    (h : Bound.words fields = .ok vs) : vs.length = fields.length := by
  induction fields generalizing vs with
  | nil =>
    cases h
    rfl
  | cons f fields ih =>
    rw [Bound.words] at h
    obtain ⟨v, _, h⟩ := Except.bind_eq_ok.mp h
    obtain ⟨vs', hvs, h⟩ := Except.bind_eq_ok.mp h
    cases h
    rw [List.length_cons, List.length_cons, ih hvs]

/-! ## The runtime -/

/-- What the executor leaves to the process it runs in.  A type test is put to a value in the form
it is held, and a tuple held as lanes is decided per position, as the matcher of whole values
does. -/
structure Runtime (TH : Type) extends Operators where
  hostIsLittleEndian : Bool
  /-- The atoms of the module, by id. -/
  atomNames : List String
  /-- Strict equality. -/
  valueEq : Value → Value → Bool
  typeMatches : TH → Bound → Except Broken Bool
  typeMatches_word {ty b v answer} : b.word = .ok v → typeMatches ty b = .ok answer →
    typeMatches ty (.runtime v) = .ok answer

variable {TH D : Type}

namespace Runtime

variable (rt : Runtime TH)

def atomId (name : String) : Option Nat := rt.atomNames.idxOf? name

/-- `dispatch_const_to_value`. -/
def dispatchConstToValue : GroundValue → Option Value
  | .int n => some (.int (Int64.ofInt n))
  | .float bits => some (.float (.ofMagnitude (bits.testBit 63) (bits % 2 ^ 63)))
  | .atom name => (rt.atomId name).map .atom
  | .bool b => some (.ofBool b)
  | .nil => some (.atom nilAtomId)
  | .utf8Binary bytes =>
    some (.bits (allocBitstring (bytes.map UInt8.ofNat) (bytes.length * 8)))
  | .binary _ => none

/-- `dispatch_const_eq`. -/
def dispatchConstEq (val : Value) : GroundValue → Bool
  | .int n => match val with | .int m => m.toInt = n | _ => false
  | .float bits =>
    match val with
    | .float x => x = .ofMagnitude (bits.testBit 63) (bits % 2 ^ 63)
    | _ => false
  | .atom name => match val with | .atom id => rt.atomId name = some id | _ => false
  | .bool b =>
    match val with
    | .atom id => id = (if b then trueAtomId else falseAtomId)
    | _ => false
  | .nil => match val with | .atom id => id = nilAtomId | _ => false
  | .utf8Binary bytes =>
    match val with
    | .bits b => b.payload.bitLen = bytes.length * 8 ∧ b.payload.bytes = bytes.map UInt8.ofNat
    | _ => false
  | .binary _ => false

/-- The value a map holds under a key. -/
def mapGet (map key : Value) : Option Value :=
  match map with
  | .map entries => (entries.find? fun entry => rt.valueEq key entry.1).map Prod.snd
  | _ => none

end Runtime

/-! ## Bitstring fields -/

def dispatchBitTypeTag : BitstringFieldKind → BitVec 32
  | .integer => 0
  | .float => 1
  | .binary => 2
  | .bits => 3
  | .utf8 => 4
  | .utf16 => 5
  | .utf32 => 6

def dispatchEndianTag : BitstringEndian → BitVec 32
  | .big => 0
  | .little => 1
  | .native => 2

def defaultDispatchBitUnit : BitstringFieldKind → Nat
  | .binary => 8
  | .integer | .float | .bits | .utf8 | .utf16 | .utf32 => 1

def Value.ofField : FieldValue → Value
  | .int n => .int ⟨⟨n⟩⟩
  | .bitstring b => .bits b

/-- Read one field of a bitstring, of the width given where one is. -/
def readExtraction (hostIsLittleEndian : Bool) (reader : Reader) (extraction : BitstringExtraction)
    (size : Option (BitVec 32)) : Option (Value × Reader) :=
  let spec := extraction.spec
  let packed := fzBsFieldSpec (dispatchBitTypeTag spec.kind) (flag size.isSome)
    (BitVec.ofNat 32 (spec.unit.getD (defaultDispatchBitUnit spec.kind)))
    (dispatchEndianTag spec.endian) (flag spec.signed) (flag extraction.isLast)
  (readFieldRef hostIsLittleEndian reader packed (size.getD 0)).map fun (value, reader) =>
    (.ofField value, reader)

/-- A field size as it is passed on: cut to 32 bits. -/
def sizeWord (v : Value) : Option (BitVec 32) := v.asI64.map fun n => n.toBitVec.setWidth 32

/-! ## State -/

structure DispatchExecState where
  values : List (Option Bound)
  journal : List SubjectId

namespace DispatchExecState

def new (subjects : Nat) : DispatchExecState := ⟨List.replicate subjects none, []⟩

def get (st : DispatchExecState) (subject : SubjectId) : Option Bound := st.values[subject]?.join

def set (st : DispatchExecState) (subject : SubjectId) (value : Bound) : DispatchExecState :=
  ⟨st.values.set subject (some value), st.journal ++ [subject]⟩

/-- Where the branch a test is about to open begins. -/
def branch (st : DispatchExecState) : Nat := st.journal.length

/-- Forget everything written since a branch began. -/
def undo (st : DispatchExecState) (branch : Nat) : DispatchExecState :=
  ⟨(st.journal.drop branch).foldl (fun values subject => values.set subject none) st.values,
    st.journal.take branch⟩

end DispatchExecState

abbrev ExecM := ExceptT DispatchStop (StateM DispatchExecState)

def orMiss {α : Type} (x : ExecM α) : ExecM (Option α) := fun st =>
  match x st with
  | (.ok a, st) => (.ok (some a), st)
  | (.error .noMatch, st) => (.ok none, st)
  | (.error stop, st) => (.error stop, st)

def ofExcept {α : Type} (x : Except DispatchStop α) : ExecM α := fun st => (x, st)

def required {α : Type} : Option α → Except DispatchStop α
  | some a => .ok a
  | none => .error .noMatch

def unbroken {α : Type} : Except Broken α → Except DispatchStop α
  | .ok a => .ok a
  | .error why => .error (.broken why)

/-- Everything a run reads and never writes.  An input the executable published no layout for, and
a prepared key the run does not carry, are `none`. -/
structure DispatchOperands where
  inputs : List (Option Bound)
  pinned : List Value
  prepared : List (Option Value)

/-- The one word a pin is compared against (`runtime_word`). -/
def Bound.runtimeWord : Bound → Option Value
  | .runtime value => some value
  | .absent | .tuple _ | .callable _ => none

/-- Where a plan's pins come from: the inputs that deliver them, or values the match site names. -/
inductive DispatchSource where
  | inputs
  | bound (values : List Value)

def DispatchSource.pin (inputs : List (Option Bound)) (index : Nat) (pin : PatternPinnedInput) :
    DispatchSource → Option Value
  | .inputs => pin.input.bind fun ordinal => inputs[ordinal]?.join.bind Bound.runtimeWord
  | .bound values => values[index]?

/-- The pins a run is handed; `none` where one has no word. -/
def dispatchValues (source : DispatchSource) (inputs : List (Option Bound))
    (pinned : List PatternPinnedInput) : Option (List Value) :=
  pinned.zipIdx.mapM fun (pin, index) => source.pin inputs index pin

/-- A guard helper as the executor sees it: from the prepared keys the caller hands it and its
arguments to a value. -/
abbrev RunHelper (D : Type) := D → List (Option Value) → List Value → Except DispatchStop Value

/-! ## Projections -/

section Projections

variable (rt : Runtime TH) (preparedKeys : List GroundValue) (ops : DispatchOperands)

/-- The word a map pattern's key compares against; a binary key is a prepared one. -/
def constKeyValue (key : GroundValue) : Option Value :=
  match key with
  | .utf8Binary _ => (preparedKeys.idxOf? key).bind fun id => ops.prepared[id]?.join
  | _ => rt.dispatchConstToValue key

def mapLookup (map : Value) (key : GroundValue) : Option Value :=
  match map with
  | .map _ => (constKeyValue rt preparedKeys ops key).bind (rt.mapGet map)
  | _ => none

/-- A field of a struct by its position.  A tuple is a struct. -/
def structFieldAt (word : Value) (index : Nat) : Except DispatchStop Value :=
  match word with
  | .tuple fields =>
    match fields[index]? with
    | some v => .ok v
    | none => .error .abort
  | .struct _ fields =>
    match fields[index]? with
    | some (_, v) => .ok v
    | none => .error .abort
  | _ => .error .noMatch

/-- A field of a struct by its name.  The fields of a tuple have no names. -/
def structNamedField (word : Value) (field : String) : Except DispatchStop Value :=
  match word with
  | .struct _ fields =>
    match fields.lookup field with
    | some v => .ok v
    | none => .error .abort
  | .tuple _ => .error .abort
  | _ => .error .noMatch

/-- One projection out of a whole value.  A bitstring field is not read alone. -/
def projectWord (word : Value) : ProjectionKind → Except DispatchStop Value
  | .tupleField index => structFieldAt word index
  | .structField field => structNamedField word field
  | .listHead => match word with | .cons head _ => .ok head | _ => .error .noMatch
  | .listTail => match word with | .cons _ tail => .ok tail | _ => .error .noMatch
  | .mapValue key => required (mapLookup rt preparedKeys ops word key)
  | .bitstringField _ => .error .noMatch

end Projections

/-! ## The run -/

namespace Exec

variable (rt : Runtime TH) (runHelper : RunHelper D) (plan : PatternDispatchPlan TH D)
  (ops : DispatchOperands)

/-- The word of a subject the state holds; lanes are built into a value, which is kept. -/
def heldWord (subject : SubjectId) : ExecM Value := do
  match ← ofExcept (required ((← get).get subject)) with
  | .runtime value => return value
  | .absent => throw (.broken (.noRuntimeValue subject))
  | lanes =>
    let value ← ofExcept (unbroken lanes.word)
    modify fun st => st.set subject (.runtime value)
    return value

/-- One projection out of a subject the state holds.  A tuple held as lanes gives up a field
without being built. -/
def projectHeld (source : SubjectId) (kind : ProjectionKind) : ExecM Bound := do
  match kind, ← ofExcept (required ((← get).get source)) with
  | .tupleField index, .tuple fields =>
    match fields[index]? with
    | some field => pure field
    | none => throw (.broken (.fieldOutOfBounds index))
  | kind, _ =>
    let word ← heldWord source
    let field ← ofExcept (projectWord rt plan.preparedKeys ops word kind)
    pure (.runtime field)

/-- The value of a subject the state does not hold yet, when `resolveSource` fills its source. -/
def subjectBound (resolveSource : SubjectId → ExecM Unit) : Option Subject → ExecM Bound
  | none => throw .noMatch
  | some ⟨_, .input ordinal⟩ =>
    match ops.inputs[ordinal]?.join with
    | some value => pure value
    | none => throw (.broken (.missingInput ordinal))
  | some ⟨_, .projection ⟨_, .bitstringField _⟩⟩ => throw .noMatch
  | some ⟨_, .projection ⟨source, kind⟩⟩ => do
    resolveSource source
    projectHeld rt plan ops source kind

theorem subjectBound_projection {id source : SubjectId} {kind : ProjectionKind}
    {resolveSource : SubjectId → ExecM Unit}
    (hkind : ∀ extraction, kind ≠ .bitstringField extraction) :
    subjectBound rt plan ops resolveSource (some ⟨id, .projection ⟨source, kind⟩⟩) = (do
      resolveSource source
      projectHeld rt plan ops source kind) := by
  cases kind with
  | bitstringField extraction => exact absurd rfl (hkind extraction)
  | _ => rfl

/-- Fill a subject's slot.  A subject's source is made before it, so `fuel` above the subject does
not run out. -/
def resolveSubject : Nat → SubjectId → ExecM Unit
  | 0, _ => throw .abort
  | fuel + 1, subject => do
    if ((← get).get subject).isSome then
      pure ()
    else
      let value ← subjectBound rt plan ops (resolveSubject fuel) plan.graph.subjects[subject]?
      modify fun st => st.set subject value

def resolve (subject : SubjectId) : ExecM Unit := resolveSubject rt plan ops (subject + 1) subject

def subjectWord (subject : SubjectId) : ExecM Value := do
  resolve rt plan ops subject
  heldWord subject

mutual
def evalGuard : PatternGuardExpr D → ExecM Value
  | .const value => ofExcept (required (rt.dispatchConstToValue value))
  | .subject subject => subjectWord rt plan ops subject
  | .pinned pin => ofExcept (required ops.pinned[pin]?)
  | .unary op expr => do
    let v ← evalGuard expr
    ofExcept (rt.guardUnOp op v)
  | .binary op lhs rhs => do
    let l ← evalGuard lhs
    match Operators.shortCircuit op l with
    | some v => return v
    | none =>
      let r ← evalGuard rhs
      ofExcept (rt.guardBinOp op l r)
  | .dispatch inputs prepared dispatch => do
    let values ← evalGuards inputs
    ofExcept (runHelper dispatch (prepared.map fun id => ops.prepared[id]?.join) values)

def evalGuards : List (PatternGuardExpr D) → ExecM (List Value)
  | [] => return []
  | expr :: exprs => do
    let v ← evalGuard expr
    let vs ← evalGuards exprs
    return v :: vs
end

/-- How wide a field says it is, if it says so; `none` where its size is no integer. -/
def bitSizeValue (st : DispatchExecState) : Option BitstringFieldSize → Option (Option (BitVec 32))
  | none => some none
  | some (.literal size) => some (some (BitVec.ofNat 32 size))
  | some (.binding field) =>
    match st.get field with
    | some (.runtime value) => (sizeWord value).map some
    | _ => none
  | some (.pinned pin) => (ops.pinned[pin]?.bind sizeWord).map some

/-- The extraction a field subject stands for. -/
def bitstringExtraction (subjects : List Subject) (field : SubjectId) :
    Option BitstringExtraction :=
  match subjects[field]? with
  | some ⟨_, .projection ⟨_, .bitstringField extraction⟩⟩ => some extraction
  | _ => none

/-- Read the fields of a bitstring one by one, filling their slots; `none` when one is not there. -/
def readFields : List SubjectId → Reader → ExecM (Option Reader)
  | [], reader => pure (some reader)
  | field :: fields, reader => do
    match bitstringExtraction plan.graph.subjects field with
    | none => throw .abort
    | some extraction =>
      match bitSizeValue ops (← get) extraction.spec.size with
      | none => pure none
      | some size =>
        match readExtraction rt.hostIsLittleEndian reader extraction size with
        | none => pure none
        | some (value, reader) =>
          modify fun st => st.set field (.runtime value)
          readFields fields reader

def readBitstring (word : Value) (shape : BitstringShape) : ExecM Bool := do
  match word with
  | .bits b =>
    match ← readFields rt plan ops shape.fields (readerInit b) with
    | none => pure false
    | some reader => pure (!shape.requireDone || readerDone reader)
  | _ => pure false

/-- Fill the slots of the map values a key question projects. -/
def setMapValues (subject : SubjectId) (key : GroundValue) (value : Value) :
    List SubjectId → ExecM Unit
  | [] => pure ()
  | result :: results => do
    match plan.graph.subjects[result]? with
    | none => throw .abort
    | some ⟨_, .projection projection⟩ =>
      if projection = ⟨subject, .mapValue key⟩ then
        modify fun st => st.set result (.runtime value)
    | some ⟨_, .input _⟩ => pure ()
    setMapValues subject key value results

/-- The questions that want the whole value. -/
def wordHit (subject : SubjectId) (word : Value) (evidence : EdgeEvidence TH) :
    Region TH → ExecM Bool
  | .equal (.const value) => pure (rt.dispatchConstEq word value)
  | .equal (.pinned pin) =>
    match ops.pinned[pin]? with
    | some want => pure (rt.valueEq want word)
    | none => pure false
  | .list .empty => pure (match word with | .emptyList => true | _ => false)
  | .list .cons => pure (match word with | .cons _ _ => true | _ => false)
  | .mapKind => pure (match word with | .map _ => true | _ => false)
  | .mapKeyPresent key =>
    match mapLookup rt plan.preparedKeys ops word key with
    | none => pure false
    | some value => do
      setMapValues plan subject key value evidence.projections
      pure true
  | .bitstring shape => readBitstring rt plan ops word shape
  | .type _ | .tupleArity _ | .guard _ => throw .abort

/-- Decide one region question.  A subject that cannot be produced fails its test. -/
def regionHit (subject : SubjectId) (evidence : EdgeEvidence TH) (region : Region TH) :
    ExecM Bool := do
  match region with
  | .guard guard =>
    match plan.guards[guard]? with
    | none => pure false
    | some expr =>
      match ← orMiss (evalGuard rt runHelper plan ops expr) with
      | none => pure false
      | some value => pure value.isTruthy
  | .type ty =>
    match ← orMiss (resolve rt plan ops subject) with
    | none => pure false
    | some () => do
      let held ← ofExcept (required ((← get).get subject))
      ofExcept (unbroken (rt.typeMatches ty held))
  | .tupleArity arity =>
    match ← orMiss (resolve rt plan ops subject) with
    | none => pure false
    | some () =>
      match (← get).get subject with
      | some (.tuple fields) => pure (fields.length = arity)
      | _ =>
        match ← orMiss (subjectWord rt plan ops subject) with
        | some (.tuple fields) => pure (fields.length = arity)
        | _ => pure false
  | region =>
    match ← orMiss (subjectWord rt plan ops subject) with
    | none => pure false
    | some word => wordHit rt plan ops subject word evidence region

def applyEdgeEvidence : List SubjectId → ExecM Unit
  | [] => pure ()
  | projection :: projections => do
    resolve rt plan ops projection
    applyEdgeEvidence projections

/-- Whether a test takes its match edge. -/
def takesMatch (question : RegionQuestion TH) : ExecM Bool := do
  let evidence := question.matchEvidence
  if ← regionHit rt runHelper plan ops question.predicate.subject evidence
      question.predicate.region then
    return (← orMiss (applyEdgeEvidence rt plan ops evidence.projections)).isSome
  else return false

/-- Ask the question of a test node.  A miss forgets what the test learned. -/
def ask (question : RegionQuestion TH) : ExecM Bool := do
  let branch := (← get).branch
  if ← takesMatch rt runHelper plan ops question then
    return true
  else
    modify fun st => st.undo branch
    return false

/-- Walk the graph from a node.  Nodes point to earlier nodes, so `fuel` above the node does not
run out. -/
def node : Nat → GraphNodeId → ExecM OutcomeId
  | 0, _ => throw .abort
  | fuel + 1, id =>
    match plan.graph.nodes[id]? with
    | none => throw .noMatch
    | some .fail => throw .noMatch
    | some (.outcome outcome _) => pure outcome
    | some (.test predicate onMatch onMiss) => do
      if ← ask rt runHelper plan ops (askedQuestion predicate onMatch onMiss) then
        node fuel onMatch.target
      else node fuel onMiss.target

def run : Except DispatchStop OutcomeId × DispatchExecState :=
  node rt runHelper plan ops (plan.graph.root + 1) plan.graph.root
    (.new plan.graph.subjects.length)

/-- Read the arguments of a winning outcome off the run that decided it. -/
def readBindings : List PatternDispatchBinding → ExecM (List (String × Value))
  | [] => return []
  | binding :: bindings => do
    let value ← subjectWord rt plan ops binding.source
    let rest ← readBindings bindings
    return (binding.name, value) :: rest

end Exec

/-! ## Helpers -/

/-- The dispatch of a guard helper whose guards and bodies call helpers `n` deep.  A helper cannot
call itself. -/
def GuardDispatch (TH : Type) : Nat → Type
  | 0 => Empty
  | n + 1 => PatternGuardDispatch TH (GuardDispatch TH n)

/-- Run a guard helper: decide its clauses, and evaluate the body of the one that won. -/
def runGuardHelper (rt : Runtime TH) : (n : Nat) → RunHelper (GuardDispatch TH n)
  | 0 => fun dispatch => nomatch dispatch
  | n + 1 => fun dispatch prepared values =>
    let ops : DispatchOperands := ⟨values.map fun v => some (.runtime v), [], prepared⟩
    match Exec.run rt (runGuardHelper rt n) dispatch.plan ops with
    | (.error stop, _) => .error stop
    | (.ok outcome, st) =>
      match dispatch.plan.outcomes[outcome]? with
      | none => .error .abort
      | some ⟨bodyId, _⟩ =>
        match dispatch.bodies[bodyId]? with
        | none => .error .noMatch
        | some body => (Exec.evalGuard rt (runGuardHelper rt n) dispatch.plan ops body st).1

/-! ## What a run ends in -/

inductive RunResult where
  /-- The body of a row, with what its patterns bound. -/
  | body (bodyId : Nat) (bindings : List (String × Value))
  | fallback
  | stopped (stop : DispatchStop)

/-- Decide a plan and read what the winning outcome bound. -/
def PatternDispatchPlan.execute (rt : Runtime TH) (runHelper : RunHelper D)
    (plan : PatternDispatchPlan TH D) (ops : DispatchOperands) : RunResult :=
  match Exec.run rt runHelper plan ops with
  | (.error .noMatch, _) => .fallback
  | (.error stop, _) => .stopped stop
  | (.ok outcome, st) =>
    match plan.outcomes[outcome]? with
    | none => .stopped .abort
    | some ⟨bodyId, bindings⟩ =>
      match Exec.readBindings rt plan ops bindings st with
      | (.error stop, _) => .stopped stop
      | (.ok bindings, _) => .body bodyId bindings

end Fz.Dispatch
