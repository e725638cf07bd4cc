import Fz.Dispatch.Compile

/-!
# Source patterns

What a producer is given: rows of patterns with an optional guard, over a number of inputs, and
the bindings that existed before the patterns began.  Spans are left out.  A literal is one
constructor here, and a guard keeps the expressions a guard may hold; every other expression is
`other`, which the producer refuses.

`C` names the functions a guard may call.  `collectPinnedNames` finds the names the rows reach for
but do not bind.
-/

namespace Fz.Dispatch

/-! ## Patterns -/

inductive Literal where
  | int (value : Int)
  | float (bits : Nat)
  | binary (bytes : List Nat)
  | atom (name : String)
  | bool (value : Bool)
  | nil
deriving DecidableEq, Repr

def Literal.ground : Literal → GroundValue
  | .int value => .int value
  | .float bits => .float bits
  | .binary bytes => .utf8Binary bytes
  | .atom name => .atom name
  | .bool value => .bool value
  | .nil => .nil

inductive BitSize where
  | literal (size : Nat)
  | var (name : String)
deriving DecidableEq, Repr

structure BitFieldSpec where
  ty : BitstringFieldKind
  size : Option BitSize
  endian : BitstringEndian
  signed : Bool
  unit : Option Nat
deriving DecidableEq, Repr

inductive Pattern where
  | wildcard
  | var (name : String)
  | literal (value : Literal)
  | tuple (fields : List Pattern)
  | list (elems : List Pattern) (tail : Option Pattern)
  | map (entries : List (Pattern × Pattern))
  | struct (module : String) (fields : List (String × Pattern))
  | pinned (name : String)
  | as (name : String) (inner : Pattern)
  | bitstring (fields : List (BitFieldSpec × Pattern))

namespace Pattern

/-- The patterns directly inside a pattern, in source order. -/
def children : Pattern → List Pattern
  | wildcard | var _ | literal _ | pinned _ => []
  | tuple fields => fields
  | list elems tail => elems ++ tail.toList
  | map entries => entries.flatMap fun (key, value) => [key, value]
  | struct _ fields => fields.map Prod.snd
  | as _ inner => [inner]
  | bitstring fields => fields.map Prod.snd

theorem sizeOf_lt_of_mem_children {p q : Pattern} (h : q ∈ p.children) : sizeOf q < sizeOf p := by
  cases p with
  | wildcard | var | literal | pinned => exact nomatch h
  | tuple fields =>
    have := List.sizeOf_lt_of_mem (show q ∈ fields from h)
    simp only [tuple.sizeOf_spec]
    omega
  | list elems tail =>
    rcases List.mem_append.mp h with h | h
    · have := List.sizeOf_lt_of_mem h
      simp only [list.sizeOf_spec]
      omega
    · obtain rfl := Option.mem_toList.mp h
      simp only [list.sizeOf_spec, Option.some.sizeOf_spec]
      omega
  | map entries =>
    obtain ⟨⟨key, value⟩, hmem, hq⟩ := List.mem_flatMap.mp h
    have := List.sizeOf_lt_of_mem hmem
    simp only [Prod.mk.sizeOf_spec] at this
    simp only [List.mem_cons, List.not_mem_nil, or_false] at hq
    simp only [map.sizeOf_spec]
    rcases hq with rfl | rfl <;> omega
  | struct module fields =>
    obtain ⟨⟨name, value⟩, hmem, rfl⟩ := List.mem_map.mp h
    have := List.sizeOf_lt_of_mem hmem
    simp only [Prod.mk.sizeOf_spec] at this
    simp only [struct.sizeOf_spec]
    omega
  | as name inner =>
    obtain rfl := List.mem_singleton.mp h
    simp only [as.sizeOf_spec]
    omega
  | bitstring fields =>
    obtain ⟨⟨spec, value⟩, hmem, rfl⟩ := List.mem_map.mp h
    have := List.sizeOf_lt_of_mem hmem
    simp only [Prod.mk.sizeOf_spec] at this
    simp only [bitstring.sizeOf_spec]
    omega

theorem induction {P : Pattern → Prop} (step : ∀ p, (∀ q ∈ p.children, P q) → P p) (p : Pattern) :
    P p :=
  step p fun q hq =>
    have := sizeOf_lt_of_mem_children hq
    induction step q
termination_by sizeOf p

/-- A pattern and all the patterns inside it, outermost first. -/
def preorder (p : Pattern) : List Pattern :=
  p :: p.children.attach.flatMap fun ⟨q, _⟩ => q.preorder
termination_by sizeOf p
decreasing_by exact sizeOf_lt_of_mem_children (by assumption)

def pinnedName? : Pattern → Option String
  | pinned name => some name
  | _ => none

def boundName? : Pattern → Option String
  | var name | as name _ => some name
  | _ => none

/-- `collect_bound_names_in_pattern`. -/
def boundNames (p : Pattern) : List String := p.preorder.filterMap boundName?

/-- The names a bitstring field binds to the field itself. -/
def directBitfieldBindings : Pattern → List String
  | var name => [name]
  | as name inner => name :: inner.directBitfieldBindings
  | _ => []

/-- Only a literal is a map key. -/
def literal? : Pattern → Option Literal
  | literal value => some value
  | _ => none

end Pattern

/-! ## Guards -/

inductive UnOp where
  | not | neg
deriving DecidableEq, Repr

inductive BinOp where
  | add | sub | mul | div | rem | eq | neq | lt | ltEq | gt | gtEq | and | or
  | pipe | cons | listConcat | listSubtract | binConcat | range | rangeStep | isIn | notIn
deriving DecidableEq, Repr

inductive Expr (C : Type) where
  | literal (value : Literal)
  | var (name : String)
  | ascribe (inner : Expr C)
  | unOp (op : UnOp) (arg : Expr C)
  | binOp (op : BinOp) (lhs rhs : Expr C)
  | call (callee : C) (args : List (Expr C))
  | other

/-! ## Rows -/

structure PatternRow (TH C : Type) where
  patterns : List Pattern
  /-- Annotation tests, each on one input. -/
  preconditions : List (Nat × TH)
  guard : Option (Expr C)
  bodyId : Nat

/-- The bindings that existed before a pattern began. -/
inductive Prematch where
  /-- An enclosing scope holds them. -/
  | lexical
  /-- These inputs deliver them, and they are all there is. -/
  | inputs (captures : List (String × Nat))

def Prematch.inputFor (prematch : Prematch) (name : String) : Option Nat :=
  match prematch with
  | .lexical => none
  | .inputs captures => (captures.find? fun bound => bound.1 = name).map Prod.snd

inductive PinnedKind where
  | pin
  | variable
deriving DecidableEq, Repr

/-- A name a pattern reaches for but does not bind. -/
structure PatternPinnedInput where
  name : String
  input : Option Nat
  kind : PinnedKind
deriving DecidableEq, Repr

def Prematch.undefinedPins (prematch : Prematch) (pinned : List PatternPinnedInput) :
    List PatternPinnedInput :=
  match prematch with
  | .lexical => []
  | .inputs _ => pinned.filter fun pin => pin.input.isNone

structure SourcePatternRows (TH C : Type) where
  inputCount : Nat
  rows : List (PatternRow TH C)
  prematch : Prematch

def recordPinnedName (name : String) (kind : PinnedKind) (out : List PatternPinnedInput) :
    List PatternPinnedInput :=
  if out.any fun pin => pin.name = name then out else out ++ [⟨name, none, kind⟩]

variable {TH C : Type}

mutual
/-- The guard variables no pattern of the row binds. -/
def collectGuardCaptureNames (bound : List String) :
    Expr C → List PatternPinnedInput → List PatternPinnedInput
  | .var name, out => if name ∈ bound then out else recordPinnedName name .variable out
  | .binOp _ lhs rhs, out =>
    collectGuardCaptureNames bound rhs (collectGuardCaptureNames bound lhs out)
  | .unOp _ arg, out | .ascribe arg, out => collectGuardCaptureNames bound arg out
  | .call _ args, out => collectAllGuardCaptureNames bound args out
  | .literal _, out | .other, out => out

def collectAllGuardCaptureNames (bound : List String) :
    List (Expr C) → List PatternPinnedInput → List PatternPinnedInput
  | [], out => out
  | arg :: args, out =>
    collectAllGuardCaptureNames bound args (collectGuardCaptureNames bound arg out)
end

/-- The names the rows reach for but do not bind, in the order they are met. -/
def collectPinnedNames (patterns : SourcePatternRows TH C) : List PatternPinnedInput :=
  let out := patterns.rows.foldl (fun out row =>
    let out := row.patterns.foldl (fun out pattern =>
      (pattern.preorder.filterMap Pattern.pinnedName?).foldl
        (fun out name => recordPinnedName name .pin out) out) out
    match row.guard with
    | some guard => collectGuardCaptureNames (row.patterns.flatMap Pattern.boundNames) guard out
    | none => out) []
  out.map fun pin => { pin with input := patterns.prematch.inputFor pin.name }

/-! ## Errors -/

/-- A place a pattern looks at, before it has a subject. -/
inductive PatternSubjectRef where
  | input (ordinal : Nat)
  | tupleField (tuple : PatternSubjectRef) (index : Nat)
  | structField (record : PatternSubjectRef) (field : String)
  | listHead (list : PatternSubjectRef)
  | listTail (list : PatternSubjectRef)
  | mapValue (map : PatternSubjectRef) (key : GroundValue)
  | subject (id : SubjectId)
deriving DecidableEq, Repr

inductive DispatchMatrixError where
  | unknownSubject (subject : SubjectId)
  | expectedProjection (subject : SubjectId)
  | unknownOutcome (outcome : OutcomeId)
  | uniqueOutcomeReused (outcome : OutcomeId)
deriving DecidableEq, Repr

inductive SourcePatternError where
  | unresolvedStruct (module : String)
  | unsupportedGuardExpr
  | unsupportedMapKey
  | unknownSubject (subject : PatternSubjectRef)
  | unknownPinned (name : String)
  | unknownGuardVar (name : String)
  | undefinedPins (pins : List PatternPinnedInput)
  | guardCallCycle (name : String) (arity : Nat)
  | dispatchMatrix (error : DispatchMatrixError)
  | rowPatternArity (expected actual bodyId : Nat)
  | nonMonotonicBodyId (previous current : Nat)
deriving DecidableEq, Repr

def validateBodyIds : List Nat → Except SourcePatternError Unit
  | previous :: current :: rest =>
    if current ≤ previous then .error (.nonMonotonicBodyId previous current)
    else validateBodyIds (current :: rest)
  | _ => .ok ()

def validateSourceRows (patterns : SourcePatternRows TH C) : Except SourcePatternError Unit := do
  patterns.rows.forM fun row =>
    if row.patterns.length = patterns.inputCount then .ok ()
    else .error (.rowPatternArity patterns.inputCount row.patterns.length row.bodyId)
  validateBodyIds (patterns.rows.map PatternRow.bodyId)

end Fz.Dispatch
