import Fz.Dispatch.Matrix

/-!
# What a question asks of an input

`DispatchDemand` is the lattice a question is measured in.  `ignore` asks nothing,
`whole` asks for the value itself, and between them a demand descends into tuple
fields or into the elements of a list.  A tuple demand is a finite map from field to
demand, ascending by field.
-/

namespace Fz.Dispatch

mutual

inductive DispatchDemand where
  | ignore
  | whole
  | tupleFields (fields : DemandFields)
  | listShape (elem : DispatchDemand)
deriving DecidableEq, Repr

inductive DemandFields where
  | nil
  | cons (field : Nat) (demand : DispatchDemand) (rest : DemandFields)
deriving DecidableEq, Repr

end

/-- `entry(field).or_default()` followed by the update of that entry. -/
def DemandFields.upsert (field : Nat) (update : DispatchDemand → DispatchDemand) :
    DemandFields → DemandFields
  | .nil => .cons field (update .ignore) .nil
  | .cons k d rest =>
    if field < k then .cons field (update .ignore) (.cons k d rest)
    else if field = k then .cons k (update d) rest
    else .cons k d (rest.upsert field update)

mutual

/-- `join_assign`: raise a demand to the least upper bound with another. -/
@[grind =] def DispatchDemand.join : DispatchDemand → DispatchDemand → DispatchDemand
  | .whole, _ => .whole
  | slot, .ignore => slot
  | .ignore, .whole => .whole
  | .ignore, .tupleFields fields => .tupleFields fields
  | .ignore, .listShape elem => .listShape elem
  | .listShape current, .listShape next => .listShape (current.join next)
  | .tupleFields current, .tupleFields next => .tupleFields (current.join next)
  | _, _ => .whole

/-- The fold of `join_assign` over the fields of the right-hand demand. -/
def DemandFields.join (current : DemandFields) : DemandFields → DemandFields
  | .nil => current
  | .cons field demand rest =>
    (current.upsert field (fun slot => slot.join demand)).join rest

end

/-- Whether anything at all is asked of the value. -/
def DispatchDemand.asksAnything : DispatchDemand → Bool
  | .ignore => false
  | _ => true

/-- One step into a value's structure, in the detail the lattice carries. -/
inductive DemandPathStep where
  | structField
  | tupleField (index : Nat)
  | listHead
  | listTail
  | mapValue
  | bitstringField
deriving DecidableEq, Repr

def DemandPathStep.ofKind : ProjectionKind → DemandPathStep
  | .tupleField index => .tupleField index
  | .structField _ => .structField
  | .listHead => .listHead
  | .listTail => .listTail
  | .mapValue _ => .mapValue
  | .bitstringField _ => .bitstringField

/-- What a demand beyond one step asks of the value the step was taken from. -/
def demandAtStep (step : DemandPathStep) (demand : DispatchDemand) : DispatchDemand :=
  match step with
  | .tupleField field => .tupleFields (.cons field demand .nil)
  | .listHead => .listShape demand
  | .listTail | .mapValue | .structField | .bitstringField => .whole

/-- What one question asks of the value it tests. -/
def demandForRegion {TH : Type} : Region TH → DispatchDemand
  | .list _ => .listShape .ignore
  | .tupleArity _ => .tupleFields .nil
  | .equal _ | .type _ | .mapKind | .mapKeyPresent _ | .bitstring _ | .guard _ => .whole

end Fz.Dispatch
