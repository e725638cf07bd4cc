import Mathlib.Data.List.Basic

/-!
# The dispatch matrix

The data model of `dispatch_matrix`.  A producer supplies *subjects* (inputs and
projections of them), *region questions* over subjects, and source-ordered *arms*:
conjunctions of questions that prove one outcome.  The compiler lowers the arms to a
*dispatch graph* whose test nodes ask one question each and whose leaves name an
outcome or fail.

Every id of the source is a `u32` newtype counted up from zero.  Here an id is a
`Nat`: a table of `2^32` rows does not fit in memory, so no id wraps.  The type
handle of a type question stays a parameter, as in the source.
-/

namespace Fz.Dispatch

abbrev SubjectId := Nat
abbrev ArmId := Nat
abbrev OutcomeId := Nat
abbrev GraphNodeId := Nat
abbrev GuardId := Nat
abbrev PinnedValueId := Nat
abbrev PreparedKeyId := Nat

/-! ## Ground values -/

/-- A ground literal.  Floats are their IEEE-754 bits, so equality is bit equality. -/
inductive GroundValue where
  | int (value : Int)
  | float (bits : Nat)
  | atom (name : String)
  | bool (value : Bool)
  | nil
  | binary (bytes : List Nat)
  | utf8Binary (bytes : List Nat)
deriving DecidableEq, Repr

/-- What a region question compares a subject against. -/
inductive ComparisonValue where
  | const (value : GroundValue)
  | pinned (pin : PinnedValueId)
deriving DecidableEq, Repr

/-! ## Bitstring fields -/

inductive BitstringFieldKind where
  | integer | float | binary | bits | utf8 | utf16 | utf32
deriving DecidableEq, Repr

inductive BitstringEndian where
  | big | little | native
deriving DecidableEq, Repr

/-- How wide a bitstring field is, when it says so. -/
inductive BitstringFieldSize where
  | literal (size : Nat)
  /-- Bound by an earlier field of the same bitstring. -/
  | binding (field : SubjectId)
  /-- Bound before the pattern began. -/
  | pinned (pin : PinnedValueId)
deriving DecidableEq, Repr

structure BitstringFieldShape where
  kind : BitstringFieldKind
  size : Option BitstringFieldSize
  endian : BitstringEndian
  signed : Bool
  unit : Option Nat
deriving DecidableEq, Repr

/-- One field of a bitstring, named by the field before it, its own shape, and
whether it is the last. -/
structure BitstringExtraction where
  previous : Option SubjectId
  spec : BitstringFieldShape
  isLast : Bool
deriving DecidableEq, Repr

structure BitstringShape where
  fields : List SubjectId
  requireDone : Bool
deriving DecidableEq, Repr

/-! ## Subjects -/

inductive ProjectionKind where
  | tupleField (index : Nat)
  | structField (field : String)
  | listHead
  | listTail
  | mapValue (key : GroundValue)
  | bitstringField (extraction : BitstringExtraction)
deriving DecidableEq, Repr

structure SubjectProjection where
  source : SubjectId
  kind : ProjectionKind
deriving DecidableEq, Repr

inductive SubjectSource where
  | input (ordinal : Nat)
  | projection (projection : SubjectProjection)
deriving DecidableEq, Repr

structure Subject where
  id : SubjectId
  source : SubjectSource
deriving DecidableEq, Repr

/-! ## Questions and evidence -/

inductive ListRegion where
  | empty | cons
deriving DecidableEq, Repr

/-- A value-space test.  `TH` is the opaque handle of a type. -/
inductive Region (TH : Type) where
  | type (ty : TH)
  | equal (value : ComparisonValue)
  | tupleArity (arity : Nat)
  | list (region : ListRegion)
  | mapKind
  | mapKeyPresent (key : GroundValue)
  | bitstring (shape : BitstringShape)
  | guard (guard : GuardId)
deriving DecidableEq, Repr

structure RegionPredicate (TH : Type) where
  subject : SubjectId
  region : Region TH
deriving DecidableEq, Repr

inductive ProofSense where
  | holds | doesNotHold
deriving DecidableEq, Repr

structure Proof (TH : Type) where
  predicate : RegionPredicate TH
  sense : ProofSense
deriving DecidableEq, Repr

/-- What an edge of the graph proves, and the projections it makes safe. -/
structure EdgeEvidence (TH : Type) where
  proofs : List (Proof TH)
  projections : List SubjectId
deriving DecidableEq, Repr

/-- One branch question over one subject, with the evidence of each branch. -/
structure RegionQuestion (TH : Type) where
  predicate : RegionPredicate TH
  matchEvidence : EdgeEvidence TH
  missEvidence : EdgeEvidence TH
deriving DecidableEq, Repr

variable {TH : Type}

def EdgeEvidence.empty : EdgeEvidence TH := ⟨[], []⟩

def EdgeEvidence.fromProof (predicate : RegionPredicate TH) (sense : ProofSense) :
    EdgeEvidence TH :=
  ⟨[⟨predicate, sense⟩], []⟩

def EdgeEvidence.withProjection (evidence : EdgeEvidence TH) (projection : SubjectId) :
    EdgeEvidence TH :=
  { evidence with projections := evidence.projections ++ [projection] }

namespace RegionQuestion

/-- A question whose match edge proves the predicate and whose miss edge refutes it. -/
def new (predicate : RegionPredicate TH) : RegionQuestion TH :=
  ⟨predicate, .fromProof predicate .holds, .fromProof predicate .doesNotHold⟩

/-- A question whose match edge also projects the given subjects. -/
def projecting (predicate : RegionPredicate TH) (projections : List SubjectId) :
    RegionQuestion TH :=
  { new predicate with
    matchEvidence := projections.foldl EdgeEvidence.withProjection (.fromProof predicate .holds) }

def typeRegion (subject : SubjectId) (ty : TH) : RegionQuestion TH := new ⟨subject, .type ty⟩

def equality (subject : SubjectId) (value : ComparisonValue) : RegionQuestion TH :=
  new ⟨subject, .equal value⟩

def listEmpty (subject : SubjectId) : RegionQuestion TH := new ⟨subject, .list .empty⟩

def tupleArity (subject : SubjectId) (arity : Nat) (fields : List SubjectId) : RegionQuestion TH :=
  projecting ⟨subject, .tupleArity arity⟩ fields

def listCons (subject head tail : SubjectId) : RegionQuestion TH :=
  projecting ⟨subject, .list .cons⟩ [head, tail]

def mapKeyPresent (subject : SubjectId) (key : GroundValue) (value : SubjectId) :
    RegionQuestion TH :=
  projecting ⟨subject, .mapKeyPresent key⟩ [value]

end RegionQuestion

/-! ## Arms, outcomes and the matrix -/

inductive OutcomeMultiplicity where
  /-- At most one arm may route to this outcome. -/
  | unique
deriving DecidableEq, Repr

structure Outcome where
  id : OutcomeId
  multiplicity : OutcomeMultiplicity
deriving DecidableEq, Repr

structure DispatchArm (TH : Type) where
  id : ArmId
  questions : List (RegionQuestion TH)
  evidence : EdgeEvidence TH
  outcome : OutcomeId
deriving DecidableEq, Repr

structure DispatchMatrix (TH : Type) where
  subjects : List Subject
  outcomes : List Outcome
  arms : List (DispatchArm TH)
deriving DecidableEq, Repr

/-! ## The graph -/

structure DispatchEdge (TH : Type) where
  target : GraphNodeId
  evidence : EdgeEvidence TH
deriving DecidableEq, Repr

inductive DispatchNode (TH : Type) where
  | fail
  | outcome (outcome : OutcomeId) (evidence : EdgeEvidence TH)
  | test (predicate : RegionPredicate TH) (onMatch onMiss : DispatchEdge TH)
deriving DecidableEq, Repr

def RegionQuestion.intoTestNode (question : RegionQuestion TH) (onMatch onMiss : GraphNodeId) :
    DispatchNode TH :=
  .test question.predicate ⟨onMatch, question.matchEvidence⟩ ⟨onMiss, question.missEvidence⟩

end Fz.Dispatch
