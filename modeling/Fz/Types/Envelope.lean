import Fz.Types.Intern
import Fz.Types.RuntimePredicate
import Mathlib.Data.Finset.Sort

/-!
# Substitution and test envelopes

`instantiate` replaces the variables of a type, at every depth, and interns what comes out.  A
variable of a type itself is replaced by a join with what stands for it; the literal captures of an
arrow are left as they are.

The envelope of a type is what a runtime test and its projections are built from.  It widens in
positive positions and narrows in negative ones, and the polarity flips at each negative factor: a
type with variables becomes `any`, or loses them.  For a predicate, a positive function axis is
reduced to the constructions of its literals, and the fields of a struct are not looked at.
-/

set_option linter.dupNamespace false

namespace Fz.Types

/-! ## Maps with other fields -/

/-- The values of a map signature replaced, under the same keys. -/
def MapSig.withValues (s : MapSig) (values : List Ty) : MapSig where
  tag := s.tag
  fields := s.fields.zipWith (fun field t => (field.1, t)) values
  nodup := by
    have hsub : (s.fields.zipWith (fun field t => (field.1, t)) values).map Prod.fst <+:
        s.fields.map Prod.fst := by
      generalize s.fields = fields
      induction fields generalizing values with
      | nil => exact List.prefix_rfl
      | cons field fields ih =>
        cases values with
        | nil => exact List.nil_prefix
        | cons t values => exact (List.prefix_cons_inj field.1).mpr (ih values)
    exact s.nodup.sublist hsub.sublist

/-! ## Substitution -/

/-- What stands for each variable. -/
abbrev Sigma := List (Nat × Ty)

section Walk

variable (f : Ty → InternM Ty)

def mapConj {T : Type} (g : T → InternM T) (c : Conj T) : InternM (Conj T) := do
  let pos ← c.pos.mapM g
  let neg ← c.neg.mapM g
  pure ⟨pos, neg⟩

def mapTupleSig (s : TupleSig) : InternM TupleSig := do
  let elems ← s.elems.mapM f
  pure ⟨elems⟩

def mapListSig (s : ListSig) : InternM ListSig :=
  match s.elem with
  | none => pure s
  | some t => do
    let t ← f t
    pure { s with elem := some t }

def mapResourceSig (s : ResourceSig) : InternM ResourceSig := do
  let payload ← f s.payload
  pure ⟨payload⟩

/-- The literal of an arrow stays as it is. -/
def mapArrowSig (s : ArrowSig) : InternM ArrowSig := do
  let args ← s.args.mapM f
  let ret ← f s.ret
  pure { s with args := args, ret := ret }

def mapMapSig (s : MapSig) : InternM MapSig := do
  let values ← s.fields.mapM fun field => f field.2
  pure (s.withValues values)

/-- The types a descriptor names replaced, axis by axis. -/
def mapRecursiveInputsWith (d : Descr) : InternM Descr := do
  let tuples ← d.tuples.mapM (mapConj (mapTupleSig f))
  let lists ← d.lists.mapM (mapConj (mapListSig f))
  let resources ← d.resources.mapM (mapConj (mapResourceSig f))
  let funcs ← d.funcs.mapM (mapConj (mapArrowSig f))
  let maps ← d.maps.mapM (mapConj (mapMapSig f))
  pure { d with
    tuples := tuples, lists := lists, resources := resources, funcs := funcs, maps := maps }

end Walk

/-- The variables in order, those that something stands for joined. -/
def substituted (cx : TyCtx) (σ : Sigma) (vars : FiniteSet Nat) : Descr :=
  (vars.values.sort (· ≤ ·)).foldl
    (fun acc id => match σ.lookup id with
      | some t => acc.union (cx.descr t)
      | none => acc) Descr.none

/-- The variables that nothing stands for. -/
def unsubstituted (σ : Sigma) (vars : FiniteSet Nat) : FiniteSet Nat :=
  ⟨vars.values.filter fun id => (σ.lookup id).isNone, false⟩

section Runs

variable (order : ClauseOrder) (rounds : Nat)

/-- Interning in the middle of a run. -/
def internDescr (d : Descr) : InternM Ty := internAt order rounds (d.rank + 2) d

/-- The descriptor of a type with its variables replaced, with recursion to depth `n`. -/
def instantiateAt (σ : Sigma) : Nat → Ty → InternM Descr
  | 0, _ => throw .tooDeep
  | n + 1, t => do
    let s ← get
    let d := s.cx.descr t
    if !d.hasVars s.cx then pure d
    else
      let joined := if d.vars.cofinite then Descr.none else substituted s.cx σ d.vars
      let base := if d.vars.cofinite then d else { d with vars := unsubstituted σ d.vars }
      let walked ← mapRecursiveInputsWith (fun nested => do
        let d ← instantiateAt σ n nested
        internDescr order rounds d) base
      pure (walked.union joined)

/-- A type with its variables replaced.  The types a type names were interned before it, so its id
bounds the depth. -/
def instantiate (σ : Sigma) (t : Ty) : InternM Ty := do
  let s ← get
  if σ.isEmpty || !(s.cx.descr t).hasVars s.cx then pure t
  else
    let d ← instantiateAt order rounds σ (t + 1) t
    internDescr order rounds d

/-! ## Envelopes -/

inductive RuntimeEnvelopePolarity where
  | positive
  | negative
  deriving DecidableEq

def RuntimeEnvelopePolarity.flipped : RuntimeEnvelopePolarity → RuntimeEnvelopePolarity
  | positive => negative
  | negative => positive

inductive RuntimeEnvelopePurpose where
  /-- What projections need: arrows and the fields of structs. -/
  | projection
  /-- What a predicate observes: constructions and the schemas of structs. -/
  | predicate
  deriving DecidableEq

section Signatures

variable (envelope : RuntimeEnvelopePolarity → Ty → InternM Ty)

def runtimeTupleSig (polarity : RuntimeEnvelopePolarity) (s : TupleSig) :
    InternM (Option TupleSig) := do
  let elems ← s.elems.mapM (envelope polarity)
  let store ← get
  pure (if elems.any fun t => t = store.none then none else some ⟨elems⟩)

def runtimeListSig (polarity : RuntimeEnvelopePolarity) (s : ListSig) : InternM (Option ListSig) :=
  match s.elem with
  | none => pure (some s)
  | some t => do
    let elem ← envelope polarity t
    let store ← get
    if elem = store.none && !s.empty then pure none
    else if elem = store.none then pure (some ⟨true, none⟩)
    else pure (some ⟨s.empty, some elem⟩)

def runtimeResourceSig (polarity : RuntimeEnvelopePolarity) (s : ResourceSig) :
    InternM (Option ResourceSig) := do
  let payload ← envelope polarity s.payload
  let store ← get
  pure (if payload = store.none then none else some ⟨payload⟩)

/-- A predicate asks a struct for its schema only, so a negative struct with fields is dropped. -/
def runtimeMapSig (purpose : RuntimeEnvelopePurpose) (polarity : RuntimeEnvelopePolarity)
    (s : MapSig) : InternM (Option MapSig) :=
  match purpose, s.tag, polarity with
  | .predicate, .struct _, .positive => pure (some ⟨s.tag, [], List.nodup_nil⟩)
  | .predicate, .struct _, .negative => pure (if s.fields.isEmpty then some s else none)
  | _, _, _ => do
    let values ← s.fields.mapM fun field => envelope polarity field.2
    let store ← get
    pure (if values.any fun t => t = store.none then none else some (s.withValues values))

/-- The positive factors of a clause, up to the first that is dropped. -/
def runtimePositives {T : Type} (transform : T → InternM (Option T)) :
    List T → InternM (Option (List T))
  | [] => pure (some [])
  | sig :: sigs => do
    match ← transform sig with
    | none => pure none
    | some sig =>
      match ← runtimePositives transform sigs with
      | none => pure none
      | some rest => pure (some (sig :: rest))

def runtimeStructuralConj {T : Type}
    (transform : RuntimeEnvelopePolarity → T → InternM (Option T))
    (polarity : RuntimeEnvelopePolarity) (c : Conj T) : InternM (Option (Conj T)) := do
  match ← runtimePositives (transform polarity) c.pos with
  | none => pure none
  | some pos =>
    let neg ← c.neg.mapM (transform polarity.flipped)
    pure (some ⟨pos, neg.reduceOption⟩)

def runtimeStructuralAxis {T : Type}
    (transform : RuntimeEnvelopePolarity → T → InternM (Option T))
    (polarity : RuntimeEnvelopePolarity) (cs : List (Conj T)) : InternM (List (Conj T)) := do
  let clauses ← cs.mapM (runtimeStructuralConj transform polarity)
  pure clauses.reduceOption

/-- The construction of a literal, its captures enveloped. -/
def callableIdentitySig (lit : ClosureLit) : InternM ArrowSig := do
  let captures ← lit.captures.mapM (envelope .positive)
  let store ← get
  pure ⟨[], store.any, some ⟨.closure, lit.fnId, captures⟩⟩

def callableIdentityConj (c : Conj ArrowSig) : InternM (Conj ArrowSig) := do
  let pos ← (c.pos.filterMap ArrowSig.lit).mapM (callableIdentitySig envelope)
  pure ⟨pos, []⟩

/-- The function axis reduced to the constructions it names, or to all callables when a clause names
none. -/
def callableIdentityClauses (funcs : List (Conj ArrowSig)) : InternM (List (Conj ArrowSig)) :=
  if funcs.any fun c => (Descr.callableIdentityLiteral c).isNone then pure [.top]
  else funcs.mapM (callableIdentityConj envelope)

end Signatures

/-- The envelope of a type, with recursion to depth `n`. -/
def runtimeEnvelopeAt (purpose : RuntimeEnvelopePurpose) :
    Nat → RuntimeEnvelopePolarity → Ty → InternM Descr
  | 0, _, _ => throw .tooDeep
  | n + 1, polarity, t => do
    let s ← get
    let d := s.cx.descr t
    if d.vars.values ≠ ∅ && polarity = .positive then pure .any
    else if d.vars.values ≠ ∅ && d.vars.cofinite then pure .none
    else
      let envelope := fun polarity nested => do
        let d ← runtimeEnvelopeAt purpose n polarity nested
        internDescr order rounds d
      let vars := if d.vars.values ≠ ∅ then FiniteSet.none else d.vars
      let funcs ←
        if purpose = .predicate && polarity = .positive && !d.funcs.isEmpty then
          callableIdentityClauses envelope d.funcs
        else pure d.funcs
      let tuples ← runtimeStructuralAxis (runtimeTupleSig envelope) polarity d.tuples
      let lists ← runtimeStructuralAxis (runtimeListSig envelope) polarity d.lists
      let resources ← runtimeStructuralAxis (runtimeResourceSig envelope) polarity d.resources
      let maps ← runtimeStructuralAxis (runtimeMapSig envelope purpose) polarity d.maps
      pure { d with
        vars := vars, funcs := funcs, tuples := tuples, lists := lists, resources := resources
        maps := maps }

def runtimeEnvelope (purpose : RuntimeEnvelopePurpose) (t : Ty) : InternM Ty := do
  let d ← runtimeEnvelopeAt order rounds purpose (t + 1) .positive t
  internDescr order rounds d

/-- The static surface of a runtime type test. -/
def runtimeTypeTestEnvelope (t : Ty) : InternM Ty := runtimeEnvelope order rounds .predicate t

end Runs

end Fz.Types
