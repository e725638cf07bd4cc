import Fz.Types.Envelope

/-!
# The return ladder

An activation keeps the return type that the evidence so far adds up to.  `defineReturn` installs
one round's evidence: no evidence adds nothing, other evidence is joined to what is stored, and only
a publisher whose ground has shifted replaces it.

The ladder must end.  Every strict ascent is counted; past a budget of them the join is widened to
its convergence class, which forgets what grows along the spine of a list, a tuple, a resource, a
callable or a record, and past twice the budget the stored type is `any`.
-/

set_option linter.dupNamespace false

namespace Fz.Types

/-! ## Types of one kind -/

namespace Descr

variable (d : Descr)

/-- Nothing but structure. -/
def axisFree : Bool :=
  d.basic.isEmpty && d.atoms.isNone && d.opaques.isNone && d.brands.isAny && d.vars.isNone

def singlePositive {T : Type} (clauses : List (Conj T)) : Option T :=
  match clauses with
  | [clause] => plainSig clause
  | _ => Option.none

/-- One axis' single clause read as one signature: `widest` where the clause is the axis' top. -/
def pureAxis {T : Type} (clauses : List (Conj T)) (widest : T) : Option T :=
  if !d.axisFree then Option.none
  else
    match clauses with
    | [clause] => if clause.isTop then some widest else singlePositive clauses
    | _ => singlePositive clauses

def asPureList (any : Ty) : Option ListSig :=
  (d.pureAxis d.lists ⟨true, some any⟩).filter fun _ =>
    d.tuples.isEmpty && d.resources.isEmpty && d.funcs.isEmpty && d.maps.isEmpty

def pureTuple : Option TupleSig :=
  if !d.axisFree then Option.none
  else (singlePositive d.tuples).filter fun _ =>
    d.lists.isEmpty && d.resources.isEmpty && d.funcs.isEmpty && d.maps.isEmpty

def pureResource (any : Ty) : Option ResourceSig :=
  (d.pureAxis d.resources ⟨any⟩).filter fun _ =>
    d.tuples.isEmpty && d.lists.isEmpty && d.funcs.isEmpty && d.maps.isEmpty

def isPureCallable : Bool :=
  d.axisFree && !d.funcs.isEmpty && d.tuples.isEmpty && d.lists.isEmpty && d.resources.isEmpty &&
    d.maps.isEmpty

def pureRecord : Option MapSig :=
  if !d.axisFree then Option.none
  else (singlePositive d.maps).filter fun _ =>
    d.tuples.isEmpty && d.lists.isEmpty && d.resources.isEmpty && d.funcs.isEmpty

def listSig (sig : ListSig) : Descr := { unbranded with lists := [.posOf sig] }

def resourceOf (payload : Ty) : Descr := { unbranded with resources := [.posOf ⟨payload⟩] }

def funTop : Descr := { unbranded with funcs := [.top] }

def record (sig : MapSig) : Descr := { unbranded with maps := [.posOf sig] }

end Descr

/-! ## Convergence classes -/

section Classes

variable (order : ClauseOrder) (rounds : Nat)

/-- The tuples over the elements; there are none where an element has no values. -/
def internTuple (elems : List Ty) : InternM Ty := do
  let s ← get
  if elems.any fun elem => elem = s.none then pure s.none
  else internDescr order rounds (.tupleOf elems)

def internList (elem : Ty) : InternM Ty := do
  let s ← get
  if elem = s.none then internDescr order rounds (.listSig ⟨true, none⟩)
  else internDescr order rounds (.listSig ⟨true, some elem⟩)

def internResource (payload : Ty) : InternM Ty := do
  let s ← get
  if payload = s.none then pure s.none else internDescr order rounds (.resourceOf payload)

/-- The family a type of one kind converges to, with recursion to depth `n`. -/
def convergenceClassAt : Nat → Ty → InternM Ty
  | 0, _ => throw .tooDeep
  | n + 1, a => do
    let s ← get
    let d := s.cx.descr a
    if (d.asPureList s.any).isSome then internList order rounds s.any
    else
      match d.pureTuple with
      | some tuple => do
        let elems ← tuple.elems.mapM (convergenceClassAt n)
        internTuple order rounds elems
      | none =>
        match d.pureResource s.any with
        | some resource => do
          let payload ← convergenceClassAt n resource.payload
          internResource order rounds payload
        | none =>
          if d.isPureCallable then internDescr order rounds .funTop
          else
            match d.pureRecord with
            | some sig => do
              let values ← sig.fields.mapM fun field => convergenceClassAt n field.2
              internDescr order rounds (.record (sig.withValues values))
            | none => pure a

/-- The types a type names were interned before it, and `any` converges at once. -/
def convergenceClass (a : Ty) : InternM Ty := convergenceClassAt order rounds (a + 2) a

end Classes

end Fz.Types

namespace Fz.Facts

open Fz.Types

/-! ## The map of activations -/

def returnWideningBudget : Nat := 8

/-- The return type so far, and how often it has grown since it was last replaced. -/
structure ActivationSlot where
  returnTy : Option Ty
  ascents : Nat

def ActivationSlot.new : ActivationSlot := ⟨none, 0⟩

structure ReturnDefine where
  changed : Bool
  ascents : Nat
  widened : Bool

/-- The store of types, the joins it remembers, and the slots of the activations. -/
structure ReturnStore (K : Type) where
  interning : Interning
  joins : List ((Ty × Ty) × Ty)
  slots : K → Option ActivationSlot

abbrev ReturnM (K : Type) := StateT (ReturnStore K) (Except Fault)

section Define

variable {K : Type} [DecidableEq K] (order : ClauseOrder) (rounds : Nat)

def onTypes {α : Type} (m : InternM α) : ReturnM K α := fun st =>
  match m st.interning with
  | .ok (a, s) => .ok (a, { st with interning := s })
  | .error e => .error e

/-- A join, remembered under the unordered pair. -/
def rememberedUnion (a b : Ty) : ReturnM K Ty := do
  let st ← get
  if a = b then pure a
  else if a = st.interning.none then pure b
  else if b = st.interning.none then pure a
  else
    let pair := if a ≤ b then (a, b) else (b, a)
    match st.joins.lookup pair with
    | some t => pure t
    | none => do
      let d := (st.interning.cx.descr a).union (st.interning.cx.descr b)
      let t ← onTypes (internDescr order rounds d)
      modify fun st => { st with joins := (pair, t) :: st.joins }
      pure t

def ReturnStore.put (st : ReturnStore K) (key : K) (slot : ActivationSlot) : ReturnStore K :=
  { st with slots := fun k => if k = key then some slot else st.slots k }

def putSlot (key : K) (slot : ActivationSlot) : ReturnM K Unit := modify fun st => st.put key slot

def joinedReturn (current : Option Ty) (next : Ty) : ReturnM K Ty :=
  match current with
  | none => pure next
  | some current => rememberedUnion order rounds current next

/-- What is stored of a join that ascends for the `ascents`-th time. -/
def storedReturn (ascents : Nat) (joined : Ty) : ReturnM K Ty := do
  let st ← get
  if ascents > 2 * returnWideningBudget then pure st.interning.any
  else if ascents > returnWideningBudget then onTypes (convergenceClass order rounds joined)
  else pure joined

/-- Install one round's return evidence. -/
def defineReturn (key : K) (evidence : Option Ty) (rebased : Bool) : ReturnM K ReturnDefine := do
  let st ← get
  let slot := (st.slots key).getD .new
  if rebased then
    putSlot key ⟨evidence, 0⟩
    pure ⟨slot.returnTy ≠ evidence, 0, false⟩
  else
    match evidence with
    | none =>
      putSlot key slot
      pure ⟨false, slot.ascents, false⟩
    | some next =>
      if slot.returnTy = some next then
        putSlot key slot
        pure ⟨false, slot.ascents, false⟩
      else
        let joined ← joinedReturn order rounds slot.returnTy next
        if slot.returnTy = some joined then
          putSlot key slot
          pure ⟨false, slot.ascents, false⟩
        else
          let ascents := slot.ascents + 1
          let stored ← storedReturn order rounds ascents joined
          putSlot key ⟨some stored, ascents⟩
          pure ⟨slot.returnTy ≠ some stored, ascents, stored ≠ joined⟩

/-! ## Runs -/

def ReturnStore.start (types : Types) : ReturnStore K := ⟨⟨types, []⟩, [], fun _ => none⟩

/-- The return type of an activation, if it has one. -/
def ReturnStore.returnTy (st : ReturnStore K) (key : K) : Option Ty :=
  (st.slots key).bind ActivationSlot.returnTy

/-- Evidence that names a type of the store. -/
def ReturnStore.Known (st : ReturnStore K) (evidence : Option Ty) : Prop :=
  ∀ e, evidence = some e → e < st.interning.cx.arena.length

/-- A run, with what was reported of every definition since its activation was last rebased.
Between the definitions types are interned and joined elsewhere. -/
inductive ReturnRun (types : Types) : List (K × ReturnDefine) → ReturnStore K → Prop
  | start : ReturnRun types [] (.start types)
  | define {reports : List (K × ReturnDefine)} {st st' : ReturnStore K} {key : K}
    {evidence : Option Ty} {out : ReturnDefine} (h : ReturnRun types reports st)
    (hknown : st.Known evidence)
    (hrun : defineReturn order rounds key evidence false st = .ok (out, st')) :
    ReturnRun types (reports ++ [(key, out)]) st'
  | rebase {reports : List (K × ReturnDefine)} {st st' : ReturnStore K} {key : K}
    {evidence : Option Ty} {out : ReturnDefine} (h : ReturnRun types reports st)
    (hknown : st.Known evidence)
    (hrun : defineReturn order rounds key evidence true st = .ok (out, st')) :
    ReturnRun types (reports.filter fun report => report.1 ≠ key) st'
  | intern {reports : List (K × ReturnDefine)} {st st' : ReturnStore K} {d : Descr} {t : Ty}
    (h : ReturnRun types reports st) (hknown : ∀ u ∈ d.children, u < st.interning.cx.arena.length)
    (hrun : onTypes (internDescr order rounds d) st = .ok (t, st')) : ReturnRun types reports st'
  | union {reports : List (K × ReturnDefine)} {st st' : ReturnStore K} {a b t : Ty}
    (h : ReturnRun types reports st) (ha : a < st.interning.cx.arena.length)
    (hb : b < st.interning.cx.arena.length)
    (hrun : rememberedUnion order rounds a b st = .ok (t, st')) : ReturnRun types reports st'

/-- How often a definition was reported to change the return type of an activation. -/
def changes (key : K) (reports : List (K × ReturnDefine)) : Nat :=
  reports.countP fun report => report.1 = key && report.2.changed

end Define

end Fz.Facts
