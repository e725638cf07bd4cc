import Fz.Dispatch.Source

/-!
# Producing a dispatch plan from patterns

Each row becomes one arm: its patterns flattened, left to right and outside in, into questions over
subjects, then its annotation tests, then its guard.  A subject is made once for each place a
pattern looks at, so rows share the subjects and the questions they have in common.

What the source pushes onto the questions and bindings of a row is returned here, in the same
order.  The spine of a list pattern is walked element by element; the pattern of the rest is
appended by the caller.  Hash maps are association lists, newest first.

A guard may call functions whose own clauses are a dispatch.  `D` is the dispatch of such a helper,
which the resolver supplies.
-/

namespace Fz.Dispatch

/-! ## Plans -/

inductive PatternGuardUnaryOp where
  | not | neg
deriving DecidableEq, Repr

inductive PatternGuardBinOp where
  | add | sub | mul | div | rem | eq | neq | lt | ltEq | gt | gtEq | and | or
deriving DecidableEq, Repr

inductive PatternGuardExpr (D : Type) where
  | const (value : GroundValue)
  | subject (subject : SubjectId)
  | pinned (pin : PinnedValueId)
  | unary (op : PatternGuardUnaryOp) (expr : PatternGuardExpr D)
  | binary (op : PatternGuardBinOp) (lhs rhs : PatternGuardExpr D)
  | dispatch (inputs : List (PatternGuardExpr D)) (prepared : List PreparedKeyId) (dispatch : D)

variable {TH C D : Type}

mutual
/-- The subjects and pins a guard reads. -/
def PatternGuardExpr.leaves : PatternGuardExpr D → List GuardLeaf
  | .const _ => []
  | .subject id => [.subject id]
  | .pinned pin => [.pinned pin]
  | .unary _ expr => expr.leaves
  | .binary _ lhs rhs => lhs.leaves ++ rhs.leaves
  | .dispatch inputs _ _ => allLeaves inputs

def PatternGuardExpr.allLeaves : List (PatternGuardExpr D) → List GuardLeaf
  | [] => []
  | expr :: exprs => expr.leaves ++ allLeaves exprs
end

structure PatternDispatchBinding where
  name : String
  source : SubjectId
deriving DecidableEq, Repr

structure PatternDispatchOutcome where
  bodyId : Nat
  bindings : List PatternDispatchBinding
deriving DecidableEq, Repr

structure PatternDispatchPlan (TH D : Type) where
  graph : DispatchGraph TH
  inputCount : Nat
  outcomes : List PatternDispatchOutcome
  guards : List (PatternGuardExpr D)
  pinned : List PatternPinnedInput
  preparedKeys : List GroundValue

/-- A guard helper: its clauses' plan, and one guard expression for each clause's body. -/
structure PatternGuardDispatch (TH D : Type) where
  plan : PatternDispatchPlan TH D
  bodies : List (PatternGuardExpr D)

/-- What the producer asks of the rows' surroundings. -/
structure PatternResolver (TH C D : Type) where
  structType : String → Except SourcePatternError TH
  guardCall : C → Nat → Except SourcePatternError (Option D)
  /-- The prepared keys of a helper's plan. -/
  preparedKeys : D → List GroundValue

inductive PatternDispatchError where
  | sourcePattern (error : SourcePatternError)
  | compile (error : CompileError)

/-! ## The matrix under construction -/

structure DispatchMatrixBuilder (TH : Type) where
  subjects : List Subject
  inputCount : Nat
  outcomes : List Outcome
  arms : List (DispatchArm TH)

namespace DispatchMatrixBuilder

def empty : DispatchMatrixBuilder TH := ⟨[], 0, [], []⟩

def addInputSubject (b : DispatchMatrixBuilder TH) : SubjectId × DispatchMatrixBuilder TH :=
  (b.subjects.length,
    { b with
      subjects := b.subjects ++ [⟨b.subjects.length, .input b.inputCount⟩]
      inputCount := b.inputCount + 1 })

def ensureSubject (b : DispatchMatrixBuilder TH) (id : SubjectId) :
    Except DispatchMatrixError Unit :=
  if id < b.subjects.length then .ok () else .error (.unknownSubject id)

def addProjectedSubject (b : DispatchMatrixBuilder TH) (source : SubjectId)
    (kind : ProjectionKind) :
    Except DispatchMatrixError (SubjectId × DispatchMatrixBuilder TH) := do
  b.ensureSubject source
  .ok (b.subjects.length,
    { b with
      subjects := b.subjects ++ [⟨b.subjects.length, .projection ⟨source, kind⟩⟩] })

def addOutcome (b : DispatchMatrixBuilder TH) (multiplicity : OutcomeMultiplicity) :
    OutcomeId × DispatchMatrixBuilder TH :=
  (b.outcomes.length, { b with outcomes := b.outcomes ++ [⟨b.outcomes.length, multiplicity⟩] })

def ensureEvidenceSubjects (b : DispatchMatrixBuilder TH) (evidence : EdgeEvidence TH) :
    Except DispatchMatrixError Unit := do
  evidence.proofs.forM fun proof => b.ensureSubject proof.predicate.subject
  evidence.projections.forM fun projection =>
    match b.subjects[projection]? with
    | none => .error (.unknownSubject projection)
    | some ⟨_, .projection _⟩ => .ok ()
    | some ⟨_, .input _⟩ => .error (.expectedProjection projection)

def ensureQuestionSubjects (b : DispatchMatrixBuilder TH) (question : RegionQuestion TH) :
    Except DispatchMatrixError Unit := do
  b.ensureSubject question.predicate.subject
  b.ensureEvidenceSubjects question.matchEvidence
  b.ensureEvidenceSubjects question.missEvidence

def addArmQuestions (b : DispatchMatrixBuilder TH) (questions : List (RegionQuestion TH))
    (evidence : EdgeEvidence TH) (outcome : OutcomeId) :
    Except DispatchMatrixError (DispatchMatrixBuilder TH) := do
  questions.forM b.ensureQuestionSubjects
  b.ensureEvidenceSubjects evidence
  match b.outcomes[outcome]? with
  | none => .error (.unknownOutcome outcome)
  | some ⟨_, .unique⟩ =>
    if b.arms.any fun arm => arm.outcome = outcome then .error (.uniqueOutcomeReused outcome)
    else .ok { b with arms := b.arms ++ [⟨b.arms.length, questions, evidence, outcome⟩] }

def build (b : DispatchMatrixBuilder TH) : DispatchMatrix TH :=
  ⟨b.subjects, b.outcomes, b.arms⟩

end DispatchMatrixBuilder

/-! ## The producer -/

structure PatternDispatchProducer (TH D : Type) where
  builder : DispatchMatrixBuilder TH
  inputCount : Nat
  prematch : Prematch
  subjects : List (PatternSubjectRef × SubjectId)
  guardSubject : SubjectId
  pinned : List PatternPinnedInput
  preparedKeys : List GroundValue
  outcomes : List PatternDispatchOutcome
  guards : List (PatternGuardExpr D)
  projections : List ((SubjectId × ProjectionKind) × SubjectId)

abbrev ProducerM (TH D : Type) :=
  StateT (PatternDispatchProducer TH D) (Except SourcePatternError)

/-- The questions and bindings a pattern adds to its row. -/
abbrev Appended (TH : Type) := List (RegionQuestion TH) × List PatternDispatchBinding

/-- The pin of a name; no two pins have one name. -/
def pinnedByName (pinned : List PatternPinnedInput) (name : String) : Option PinnedValueId :=
  pinned.findIdx? fun pin => pin.name = name

def internPreparedKey (keys : List GroundValue) (key : GroundValue) :
    PreparedKeyId × List GroundValue :=
  match keys.findIdx? fun prepared => prepared = key with
  | some index => (index, keys)
  | none => (keys.length, keys ++ [key])

namespace PatternDispatchProducer

def addProjectedSubject (source : SubjectId) (kind : ProjectionKind) : ProducerM TH D SubjectId :=
  fun p =>
    match p.builder.addProjectedSubject source kind with
    | .error error => .error (.dispatchMatrix error)
    | .ok (id, builder) => .ok (id, { p with builder })

def subjectId (ref : PatternSubjectRef) : ProducerM TH D SubjectId := do
  match (← get).subjects.lookup ref with
  | some id => return id
  | none =>
    let id ← match ref with
      | .input _ => throw (.unknownSubject ref)
      | .tupleField tuple index => do
        addProjectedSubject (← subjectId tuple) (.tupleField index)
      | .structField record field => do
        addProjectedSubject (← subjectId record) (.structField field)
      | .listHead list => do addProjectedSubject (← subjectId list) .listHead
      | .listTail list => do addProjectedSubject (← subjectId list) .listTail
      | .mapValue map key => do addProjectedSubject (← subjectId map) (.mapValue key)
      | .subject id => pure id
    modify fun p => { p with subjects := (ref, id) :: p.subjects }
    return id

def project (source : SubjectId) (kind : ProjectionKind) : ProducerM TH D SubjectId := do
  match (← get).projections.lookup (source, kind) with
  | some id => return id
  | none =>
    let id ← addProjectedSubject source kind
    modify fun p => { p with projections := ((source, kind), id) :: p.projections }
    return id

/-- A pin for a name the pattern does not bind, made on first use. -/
def pinForName (name : String) : ProducerM TH D PinnedValueId := do
  let p ← get
  match pinnedByName p.pinned name with
  | some id => return id
  | none =>
    let pin : PatternPinnedInput := ⟨name, p.prematch.inputFor name, .variable⟩
    set { p with pinned := p.pinned ++ [pin] }
    return p.pinned.length

def bind (name : String) (ref : PatternSubjectRef) : ProducerM TH D PatternDispatchBinding := do
  let source ← subjectId ref
  return { name, source }

def constQuestion (ref : PatternSubjectRef) (value : GroundValue) :
    ProducerM TH D (RegionQuestion TH) := do
  return .equality (← subjectId ref) (.const value)

def mapKey (pattern : Pattern) : ProducerM TH D GroundValue :=
  match pattern.literal? with
  | some value => pure value.ground
  | none => throw .unsupportedMapKey

/-- Keys that live on the heap, or are named by the module, are prepared before the run. -/
def prepareHeapKey (key : GroundValue) : ProducerM TH D Unit :=
  match key with
  | .float _ | .atom _ | .utf8Binary _ =>
    modify fun p => { p with preparedKeys := (internPreparedKey p.preparedKeys key).2 }
  | _ => pure ()

/-- A size name is an earlier field of this bitstring, or else a pin. -/
def bitFieldSize (bound : List (String × SubjectId)) :
    Option BitSize → ProducerM TH D (Option BitstringFieldSize)
  | none => pure none
  | some (.literal size) => pure (some (.literal size))
  | some (.var name) =>
    match bound.lookup name with
    | some field => pure (some (.binding field))
    | none => do return some (.pinned (← pinForName name))

/-- The subjects of a bitstring's fields, each named by the field before it. -/
def bitstringFields (subject : SubjectId) : List (BitFieldSpec × Pattern) →
    List (String × SubjectId) → Option SubjectId → ProducerM TH D (List SubjectId)
  | [], _, _ => pure []
  | (spec, value) :: rest, bound, previous => do
    let size ← bitFieldSize bound spec.size
    let field ← project subject (.bitstringField
      ⟨previous, ⟨spec.ty, size, spec.endian, spec.signed, spec.unit⟩, rest.isEmpty⟩)
    let direct := value.directBitfieldBindings.map fun name => (name, field)
    let fields ← bitstringFields subject rest (direct ++ bound) (some field)
    return field :: fields

section Append

variable (resolver : PatternResolver TH C D)

mutual
def appendPattern : Pattern → PatternSubjectRef → ProducerM TH D (Appended TH)
  | .wildcard, _ => return ([], [])
  | .var name, ref => do return ([], [← bind name ref])
  | .as name inner, ref => do
    let binding ← bind name ref
    let (questions, bindings) ← appendPattern inner ref
    return (questions, binding :: bindings)
  | .pinned name, ref => do
    match pinnedByName (← get).pinned name with
    | none => throw (.unknownPinned name)
    | some pin => return ([.equality (← subjectId ref) (.pinned pin)], [])
  | .literal value, ref => do return ([← constQuestion ref value.ground], [])
  | .tuple fields, ref => do
    let subject ← subjectId ref
    let refs := (List.range fields.length).map (.tupleField ref)
    let ids ← refs.mapM subjectId
    let (questions, bindings) ← appendEach fields refs
    return (.tupleArity subject fields.length ids :: questions, bindings)
  | .list elems tail, ref => do
    let ((questions, bindings), rest) ← appendListElems elems ref
    match tail with
    | some tail =>
      let (questions', bindings') ← appendPattern tail rest
      return (questions ++ questions', bindings ++ bindings')
    | none => return (questions ++ [.listEmpty (← subjectId rest)], bindings)
  | .map entries, ref => do
    let subject ← subjectId ref
    let (questions, bindings) ← appendEntries entries ref subject
    return (.new ⟨subject, .mapKind⟩ :: questions, bindings)
  | .struct module fields, ref => do
    let ty ← resolver.structType module
    let subject ← subjectId ref
    let refs := fields.map fun field => .structField ref field.1
    let ids ← refs.mapM subjectId
    let (questions, bindings) ← appendFields fields refs
    return (.projecting ⟨subject, .type ty⟩ ids :: questions, bindings)
  | .bitstring fields, ref => do
    let subject ← subjectId ref
    let ids ← bitstringFields subject fields [] none
    let (questions, bindings) ← appendBitFields fields (ids.map .subject)
    return (.projecting ⟨subject, .bitstring ⟨ids, true⟩⟩ ids :: questions, bindings)

def appendEach : List Pattern → List PatternSubjectRef → ProducerM TH D (Appended TH)
  | pattern :: patterns, ref :: refs => do
    let (questions, bindings) ← appendPattern pattern ref
    let (questions', bindings') ← appendEach patterns refs
    return (questions ++ questions', bindings ++ bindings')
  | _, _ => return ([], [])

def appendListElems : List Pattern → PatternSubjectRef →
    ProducerM TH D (Appended TH × PatternSubjectRef)
  | [], ref => return (([], []), ref)
  | elem :: elems, ref => do
    let subject ← subjectId ref
    let head ← subjectId (.listHead ref)
    let tail ← subjectId (.listTail ref)
    let (questions, bindings) ← appendPattern elem (.listHead ref)
    let ((questions', bindings'), rest) ← appendListElems elems (.listTail ref)
    return ((.listCons subject head tail :: questions ++ questions', bindings ++ bindings'), rest)

def appendEntries : List (Pattern × Pattern) → PatternSubjectRef → SubjectId →
    ProducerM TH D (Appended TH)
  | [], _, _ => return ([], [])
  | (key, value) :: entries, ref, subject => do
    let key ← mapKey key
    prepareHeapKey key
    let id ← subjectId (.mapValue ref key)
    let (questions, bindings) ← appendPattern value (.mapValue ref key)
    let (questions', bindings') ← appendEntries entries ref subject
    return (.mapKeyPresent subject key id :: questions ++ questions', bindings ++ bindings')

def appendFields : List (String × Pattern) → List PatternSubjectRef → ProducerM TH D (Appended TH)
  | (_, pattern) :: patterns, ref :: refs => do
    let (questions, bindings) ← appendPattern pattern ref
    let (questions', bindings') ← appendFields patterns refs
    return (questions ++ questions', bindings ++ bindings')
  | _, _ => return ([], [])

def appendBitFields : List (BitFieldSpec × Pattern) → List PatternSubjectRef →
    ProducerM TH D (Appended TH)
  | (_, pattern) :: patterns, ref :: refs => do
    let (questions, bindings) ← appendPattern pattern ref
    let (questions', bindings') ← appendBitFields patterns refs
    return (questions ++ questions', bindings ++ bindings')
  | _, _ => return ([], [])
end

end Append

end PatternDispatchProducer

/-! ## Guards -/

def UnOp.guardOp : UnOp → PatternGuardUnaryOp
  | .not => .not
  | .neg => .neg

def BinOp.guardOp? : BinOp → Option PatternGuardBinOp
  | .add => some .add
  | .sub => some .sub
  | .mul => some .mul
  | .div => some .div
  | .rem => some .rem
  | .eq => some .eq
  | .neq => some .neq
  | .lt => some .lt
  | .ltEq => some .ltEq
  | .gt => some .gt
  | .gtEq => some .gtEq
  | .and => some .and
  | .or => some .or
  | .pipe | .cons | .listConcat | .listSubtract | .binConcat | .range | .rangeStep | .isIn
  | .notIn => none

/-- A guard is lowered over the prepared keys of the plan it belongs to. -/
abbrev GuardM := StateT (List GroundValue) (Except SourcePatternError)

section Guards

variable (resolver : PatternResolver TH C D) (bindings : List (String × SubjectId))
  (pinned : List PatternPinnedInput)

mutual
def guardExprFromAst : Expr C → GuardM (PatternGuardExpr D)
  | .literal value => return .const value.ground
  | .var name =>
    match bindings.lookup name with
    | some subject => return .subject subject
    | none =>
      match pinnedByName pinned name with
      | some pin => return .pinned pin
      | none => throw (.unknownGuardVar name)
  | .ascribe inner => guardExprFromAst inner
  | .unOp op arg => do return .unary op.guardOp (← guardExprFromAst arg)
  | .binOp op lhs rhs => do
    match op.guardOp? with
    | none => throw .unsupportedGuardExpr
    | some op =>
      let lhs ← guardExprFromAst lhs
      let rhs ← guardExprFromAst rhs
      return .binary op lhs rhs
  | .call callee args => do
    let inputs ← guardExprsFromAst args
    match ← resolver.guardCall callee args.length with
    | none => throw .unsupportedGuardExpr
    | some dispatch =>
      let prepared ← (resolver.preparedKeys dispatch).mapM fun key keys =>
        .ok (internPreparedKey keys key)
      return .dispatch inputs prepared dispatch
  | .other => throw .unsupportedGuardExpr

def guardExprsFromAst : List (Expr C) → GuardM (List (PatternGuardExpr D))
  | [] => return []
  | arg :: args => do
    let expr ← guardExprFromAst arg
    let exprs ← guardExprsFromAst args
    return expr :: exprs
end

end Guards

/-- The subject each name of a row is bound to; a later binding hides an earlier one. -/
def boundSubjects (bindings : List PatternDispatchBinding) : List (String × SubjectId) :=
  (bindings.map fun binding => (binding.name, binding.source)).reverse

namespace PatternDispatchProducer

/-- The question of a row's guard, when it has one. -/
def guardQuestions (resolver : PatternResolver TH C D) (bindings : List PatternDispatchBinding) :
    Option (Expr C) → ProducerM TH D (List (RegionQuestion TH))
  | none => pure []
  | some guard => fun p => do
    let (expr, preparedKeys) ←
      guardExprFromAst resolver (boundSubjects bindings) p.pinned guard p.preparedKeys
    .ok ([.new ⟨p.guardSubject, .guard p.guards.length⟩],
      { p with preparedKeys, guards := p.guards ++ [expr] })

def addRow (resolver : PatternResolver TH C D) (row : PatternRow TH C) : ProducerM TH D Unit := do
  let refs := (List.range row.patterns.length).map .input
  let (questions, bindings) ← appendEach resolver row.patterns refs
  let typeQuestions ← row.preconditions.mapM fun (ordinal, ty) => do
    return RegionQuestion.typeRegion (← subjectId (.input ordinal)) ty
  let guardQuestions ← guardQuestions resolver bindings row.guard
  fun p =>
    let (outcome, builder) := p.builder.addOutcome .unique
    match builder.addArmQuestions (questions ++ typeQuestions ++ guardQuestions) .empty outcome with
    | .error error => .error (.dispatchMatrix error)
    | .ok builder =>
      .ok ((), { p with builder, outcomes := p.outcomes ++ [⟨row.bodyId, bindings⟩] })

/-- One subject for each input. -/
def inputSubjects : Nat → DispatchMatrixBuilder TH → DispatchMatrixBuilder TH
  | 0, builder => builder
  | n + 1, builder => inputSubjects n builder.addInputSubject.2

/-- A plan without inputs still has a subject for its guards to ride. -/
def new (patterns : SourcePatternRows TH C) :
    Except SourcePatternError (PatternDispatchProducer TH D) := do
  validateSourceRows patterns
  let builder := inputSubjects patterns.inputCount .empty
  .ok
    { builder := if patterns.inputCount = 0 then builder.addInputSubject.2 else builder
      inputCount := patterns.inputCount
      prematch := patterns.prematch
      subjects := (List.range patterns.inputCount).map fun ordinal => (.input ordinal, ordinal)
      guardSubject := 0
      pinned := collectPinnedNames patterns
      preparedKeys := []
      outcomes := []
      guards := []
      projections := [] }

def finish [DecidableEq TH] (p : PatternDispatchProducer TH D) :
    Except PatternDispatchError (PatternDispatchPlan TH D) :=
  match p.prematch.undefinedPins p.pinned with
  | pin :: pins => .error (.sourcePattern (.undefinedPins (pin :: pins)))
  | [] =>
    let inputs : PlanInputs :=
      { count := p.inputCount
        pinned := p.pinned.map PatternPinnedInput.input
        guardLeaves := p.guards.map PatternGuardExpr.leaves }
    match compileDispatchMatrix p.builder.build inputs with
    | .error error => .error (.compile error)
    | .ok compiled =>
      .ok
        { graph := compiled.graph
          inputCount := p.inputCount
          outcomes := p.outcomes
          guards := p.guards
          pinned := p.pinned
          preparedKeys := p.preparedKeys }

end PatternDispatchProducer

/-- The producer after all the rows. -/
def PatternDispatchProducer.ofRows (patterns : SourcePatternRows TH C)
    (resolver : PatternResolver TH C D) :
    Except SourcePatternError (PatternDispatchProducer TH D) := do
  let producer ← PatternDispatchProducer.new patterns
  let ((), producer) ← patterns.rows.forM (PatternDispatchProducer.addRow resolver) producer
  return producer

def patternDispatchFromSourceWithResolver [DecidableEq TH] (patterns : SourcePatternRows TH C)
    (resolver : PatternResolver TH C D) : Except PatternDispatchError (PatternDispatchPlan TH D) :=
  match PatternDispatchProducer.ofRows patterns resolver with
  | .error error => .error (.sourcePattern error)
  | .ok producer => producer.finish

/-! ## Guard helpers -/

structure FnClause (C : Type) where
  params : List Pattern
  guard : Option (Expr C)
  body : Expr C

/-- The rows of a helper's clauses.  A helper is entered with nothing bound before its patterns. -/
def helperRows (clauses : List (FnClause C)) : SourcePatternRows TH C where
  inputCount := (clauses.head?.map fun clause => clause.params.length).getD 0
  rows := clauses.zipIdx.map fun (clause, index) => ⟨clause.params, [], clause.guard, index⟩
  prematch := .inputs []

/-- The bodies of a helper's clauses, lowered over the prepared keys of its plan. -/
def helperBodies (resolver : PatternResolver TH C D) (outcomes : List PatternDispatchOutcome) :
    List (FnClause C × Nat) → GuardM (List (PatternGuardExpr D))
  | [] => return []
  | (clause, index) :: rest => do
    match outcomes.find? fun outcome => outcome.bodyId = index with
    | none => throw .unsupportedGuardExpr
    | some outcome =>
      let body ← guardExprFromAst resolver (boundSubjects outcome.bindings) [] clause.body
      let bodies ← helperBodies resolver outcomes rest
      return body :: bodies

def guardDispatchFromSurface [DecidableEq TH] (clauses : List (FnClause C))
    (resolver : PatternResolver TH C D) :
    Except PatternDispatchError (PatternGuardDispatch TH D) := do
  let rows : SourcePatternRows TH C := helperRows clauses
  if clauses.isEmpty || clauses.any fun clause => clause.params.length ≠ rows.inputCount then
    .error (.sourcePattern .unsupportedGuardExpr)
  let plan ← patternDispatchFromSourceWithResolver rows resolver
  match helperBodies resolver plan.outcomes clauses.zipIdx plan.preparedKeys with
  | .error error => .error (.sourcePattern error)
  | .ok (bodies, preparedKeys) => .ok ⟨{ plan with preparedKeys }, bodies⟩

end Fz.Dispatch
