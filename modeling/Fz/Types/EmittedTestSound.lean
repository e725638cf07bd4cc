import Fz.Types.EmittedTest
import Fz.Types.LaneTestSound

/-!
# The native runtime type test agrees with the matcher

The matcher goes from the value: its kind chooses the axes, and one of them must admit it.  The
emitted code goes from the test: it asks every axis the test says anything on.  The two meet in
`axisAnswer`, what one axis' code answers about a value of any kind.  An axis of another kind
answers no, so the `or` of the answers is what the matcher says (`emitted_matches`).

The struct axes are where the two differ in shape.  The emitter walks the arities of an exact tuple
axis and compares schemas; the matcher reads an arity back from the schema.  Distinct schema numbers
make these one question.
-/

namespace Fz.Types

open Fz.Base
open RuntimeTypePredicate (someHeadMatches someShapeMatches positionsMatch Constructed Sub)

/-! ## Flags -/

namespace FlagExpr

/-- The operations of `e` compute the flag that stands for `b`. -/
def Computes (m : TestedValue) (e : FlagExpr) (b : Bool) : Prop := e.eval m = some b.toUInt8

variable {m : TestedValue} {e l r : FlagExpr} {a b : Bool} {value : ValueExpr}
  {v : RuntimeAnyValue}

theorem computes_no : Computes m (.iconst 0) false := rfl

theorem computes_yes : Computes m (.iconst 1) true := rfl

theorem Computes.congr (h : Computes m e a) (hab : a = b) : Computes m e b := hab ▸ h

theorem Computes.bor (hl : Computes m l a) (hr : Computes m r b) :
    Computes m (.bor l r) (a || b) := by
  rw [Computes, eval, hl, hr]
  cases a <;> cases b <;> rfl

theorem Computes.band (hl : Computes m l a) (hr : Computes m r b) :
    Computes m (.band l r) (a && b) := by
  rw [Computes, eval, hl, hr]
  cases a <;> cases b <;> rfl

theorem Computes.isZero (h : Computes m e a) : Computes m (.icmpImmEqual e 0) (!a) := by
  rw [Computes, eval, h]
  cases a <;> rfl

theorem Computes.isNonzero (h : Computes m e a) : Computes m (.icmpImmNotEqual e 0) a := by
  rw [Computes, eval, h]
  cases a <;> rfl

theorem Computes.flip (h : Computes m e a) : Computes m (.bxorImm e 1) (!a) := by
  rw [Computes, eval, h]
  cases a <;> rfl

theorem Computes.guarded (hc : Computes m l a) (hx : a = true → Computes m r b) :
    Computes m (.guarded l r) (a && b) := by
  rw [Computes, eval, hc]
  cases a with
  | false => rfl
  | true => exact hx rfl

theorem computes_kindFlag (hv : value.eval m.value = some v) (kind : Terms.ValueKind) :
    Computes m (.kindFlag value kind) (decide (v.kind (m.sharedBinary value) = kind)) := by
  rw [Computes, eval, hv]
  rfl

theorem computes_foldl_bor {α : Type} {f : α → FlagExpr} {g : α → Bool} {xs : List α}
    (hf : ∀ x ∈ xs, Computes m (f x) (g x)) (h : Computes m e a) :
    Computes m (xs.foldl (fun hit x => .bor hit (f x)) e) (a || xs.any g) := by
  induction xs generalizing e a with
  | nil => exact h.congr (by simp)
  | cons x xs ih =>
    rw [List.foldl_cons, List.any_cons, ← Bool.or_assoc]
    exact ih (fun y hy => hf y (.tail _ hy)) (h.bor (hf x (.head _)))

end FlagExpr

open FlagExpr

/-! ## Sets of words -/

section Membership

variable {m : TestedValue} {raw : WordExpr} {w : Int}

theorem computes_anyEqual (hw : raw.eval m.value = some w) (wants : List Int) :
    Computes m (emitAnyEqual raw wants) (decide (w ∈ wants)) := by
  have hone : ∀ want ∈ wants,
      Computes m (.icmpEqual raw (.iconst want)) (decide (w = want)) := by
    intro want _
    rw [Computes, eval, hw]
    rfl
  exact (computes_foldl_bor hone computes_no).congr (by simp [List.any_eq, eq_comm])

theorem computes_anySchemaIdMatch {schema : Nat} (hw : raw.eval m.value = some (schema : Int))
    (ids : List Nat) : Computes m (emitAnySchemaIdMatch raw ids) (decide (schema ∈ ids)) :=
  (computes_anyEqual hw _).congr (by simp)

theorem computes_i64Membership (hw : raw.eval m.value = some w) (values : FiniteSet Int) :
    Computes m (emitI64Membership raw values) (values.contains w) := by
  have hany : Computes m (emitAnyEqual raw (values.values.sort (· ≤ ·)))
      (decide (w ∈ values.values)) := (computes_anyEqual hw _).congr (by simp)
  obtain ⟨vs, cofinite⟩ := values
  rw [emitI64Membership]
  split
  · rename_i h
    simp only [FiniteSet.isAny, Bool.and_eq_true, decide_eq_true_eq] at h
    exact computes_yes.congr (by simp [FiniteSet.contains, h.1, h.2])
  · cases cofinite with
    | false => exact hany.congr (by simp [FiniteSet.contains])
    | true => exact hany.isZero.congr (by simp [FiniteSet.contains])

theorem contains_words {T : Type} [DecidableEq T] {word : T → Int}
    (hinj : Function.Injective word) (s : FiniteSet T) (x : T) :
    (s.words word).contains (word x) = s.contains x := by
  simp [FiniteSet.words, FiniteSet.contains, hinj.eq_iff]

end Membership

/-! ## The tables -/

namespace RuntimeValueReader

variable {R : RuntimeValueReader}

/-- Atoms, arities, schemas of arities and struct names are each listed once. -/
structure DistinctIds (R : RuntimeValueReader) : Prop where
  atomNames : R.atomNames.Nodup
  arities : (R.tupleSchemaIds.map Prod.fst).Nodup
  tupleSchemas : (R.tupleSchemaIds.map Prod.snd).Nodup
  names : (R.namedSchemaIds.map Prod.fst).Nodup

theorem DistinctIds.tupleArityOf_iff (h : R.DistinctIds) {schema arity : Nat} :
    R.tupleArityOf schema = some arity ↔ R.tupleSchemaIds.lookup arity = some schema := by
  rw [lookup_eq_some_iff_mem h.arities, tupleArityOf, Option.map_eq_some_iff]
  constructor
  · rintro ⟨⟨arity', schema'⟩, hfind, rfl⟩
    have hs : schema' = schema := by simpa using List.find?_some hfind
    subst hs
    exact List.mem_of_find?_eq_some hfind
  · intro hmem
    have hex : ∃ e ∈ R.tupleSchemaIds, decide (e.2 = schema) = true := ⟨_, hmem, by simp⟩
    obtain ⟨e, hfind⟩ := Option.isSome_iff_exists.mp (List.find?_isSome.mpr hex)
    refine ⟨e, hfind, ?_⟩
    have hs : e.2 = schema := by simpa using List.find?_some hfind
    have heq := List.inj_on_of_nodup_map h.tupleSchemas (List.mem_of_find?_eq_some hfind) hmem hs
    rw [heq]

end RuntimeValueReader

namespace RuntimeTestEmitter

/-- A door that reads tagged values under the reader's tables, and whose callable addresses are the
code words of the constructions a test lists. -/
structure Serves (E : RuntimeTestEmitter) (R : RuntimeValueReader) : Prop where
  tagged : ∀ value, E.kindEvidence value = .tagged
  atomNames : E.atomNames = R.atomNames
  tupleSchemaIds : E.tupleSchemaIds = R.tupleSchemaIds
  namedSchemaIds : E.namedSchemaIds = R.namedSchemaIds
  structSchemas : ∀ entry ∈ E.namedSchemaIds, entry.1 ∈ R.structSchemas
  callableAddresses : ∀ callables code, code ∈ E.callableAddresses callables ↔
    ∃ shape, R.callables code = some shape ∧ callables.enumerates shape = true

variable {E : RuntimeTestEmitter} {R : RuntimeValueReader} {m : TestedValue} {value : ValueExpr}
  {v : RuntimeAnyValue} {b : Bool}

theorem Serves.computes_kindGuarded (hs : E.Serves R) (hv : value.eval m.value = some v)
    {kind : Terms.ValueKind} {build : FlagExpr}
    (hb : v.kind (m.sharedBinary value) = kind → Computes m build b)
    (hno : v.kind (m.sharedBinary value) ≠ kind → b = false) :
    Computes m (E.kindGuarded value kind build) b := by
  rw [kindGuarded, hs.tagged]
  refine ((computes_kindFlag hv kind).guarded fun h => hb (of_decide_eq_true h)).congr ?_
  by_cases hk : v.kind (m.sharedBinary value) = kind
  · simp [hk]
  · simp [hk, hno hk]

theorem Serves.nameToId_iff (hs : E.Serves R) (hd : R.DistinctIds) {name : String} {id : Nat} :
    E.nameToId name = some id ↔ R.atomNames.findIdx? (· = name) = some id := by
  have hkeys : (R.atomNames.zipIdx.reverse.map Prod.fst).Nodup := by
    rw [List.map_reverse, List.nodup_reverse, List.zipIdx_map_fst]
    exact hd.atomNames
  rw [nameToId, hs.atomNames, lookup_eq_some_iff_mem hkeys, List.mem_reverse,
    List.mem_zipIdx_iff_getElem?, List.findIdx?_eq_some_iff_getElem]
  simp only [decide_eq_true_eq, List.getElem?_eq_some_iff]
  constructor
  · rintro ⟨hi, heq⟩
    refine ⟨hi, heq, fun j hji hj => ?_⟩
    have := (hd.atomNames.getElem_inj_iff).mp (hj.trans heq.symm)
    omega
  · rintro ⟨hi, heq, -⟩
    exact ⟨hi, heq⟩

theorem Serves.contains_atomIdMembership (hs : E.Serves R) (hd : R.DistinctIds)
    (atoms : FiniteSet String) (index : Nat) :
    (E.atomIdMembership atoms).contains (index : Int) = R.atomMembership atoms index := by
  rw [FiniteSet.contains, RuntimeValueReader.atomMembership, atomIdMembership]
  congr 1
  rw [decide_eq_decide, Finset.mem_biUnion]
  refine exists_congr fun name => and_congr_right fun _ => ?_
  rw [← hs.nameToId_iff hd]
  cases E.nameToId name with
  | none => simp
  | some id => simp [eq_comm]

theorem Serves.mem_named_iff (hs : E.Serves R) (hd : R.DistinctIds) {schema : Nat} :
    schema ∈ E.namedSchemaIds.map Prod.snd ↔ schema ∈ R.knownNamedSchemas := by
  rw [RuntimeValueReader.knownNamedSchemas, List.mem_map, List.mem_filterMap, ← hs.namedSchemaIds]
  have hkeys : (E.namedSchemaIds.map Prod.fst).Nodup := hs.namedSchemaIds ▸ hd.names
  constructor
  · rintro ⟨⟨name, _⟩, hmem, rfl⟩
    exact ⟨name, hs.structSchemas _ hmem, (lookup_eq_some_iff_mem hkeys).mpr hmem⟩
  · rintro ⟨name, -, hlookup⟩
    exact ⟨(name, schema), (lookup_eq_some_iff_mem hkeys).mp hlookup, rfl⟩

section Schema

variable {raw : WordExpr} {schema : Nat} (hs : E.Serves R) (hd : R.DistinctIds)
  (hw : raw.eval m.value = some (schema : Int))
include hs hd hw

theorem Serves.computes_aritySetMembership (arities : FiniteSet Nat) :
    Computes m (E.emitAritySetMembership raw arities) (R.unnamedStructOfArity schema arities) := by
  have harities : Computes m (emitAnySchemaIdMatch raw
      ((arities.values.sort (· ≤ ·)).filterMap fun arity => E.tupleSchemaIds.lookup arity))
      (R.schemasOfArities arities.values schema) :=
    (computes_anySchemaIdMatch hw _).congr
      (by simp [RuntimeValueReader.schemasOfArities, hs.tupleSchemaIds])
  have hnamed : Computes m (emitAnySchemaIdMatch raw (E.namedSchemaIds.map Prod.snd))
      (decide (schema ∈ R.knownNamedSchemas)) :=
    (computes_anySchemaIdMatch hw _).congr (decide_eq_decide.mpr (hs.mem_named_iff hd))
  rw [emitAritySetMembership, RuntimeValueReader.unnamedStructOfArity]
  split
  · exact harities
  · split
    · rename_i h
      simp only [FiniteSet.isAny, Bool.and_eq_true, decide_eq_true_eq] at h
      exact hnamed.isZero.congr (by simp [RuntimeValueReader.schemasOfArities, h.2])
    · exact hnamed.isNonzero.flip.band harities.isZero

theorem Serves.computes_namedStructAxis (p : RuntimeTypePredicate) :
    Computes m (E.emitNamedStructAxis raw p.namedStructs) (p.matchesNamedStructAxis R schema) := by
  have hnamed : Computes m (emitAnySchemaIdMatch raw (E.namedSchemaIds.map Prod.snd))
      (decide (schema ∈ R.knownNamedSchemas)) :=
    (computes_anySchemaIdMatch hw _).congr (decide_eq_decide.mpr (hs.mem_named_iff hd))
  have hrelevant : Computes m (emitAnySchemaIdMatch raw
      ((p.namedStructs.values.sort (· ≤ ·)).filterMap fun name => E.namedSchemaIds.lookup name))
      (decide (∃ name ∈ p.namedStructs.values, R.namedSchemaIds.lookup name = some schema)) :=
    (computes_anySchemaIdMatch hw _).congr (by simp [hs.namedSchemaIds])
  rw [emitNamedStructAxis, RuntimeTypePredicate.matchesNamedStructAxis]
  split
  · exact computes_no
  · split
    · exact hnamed
    · cases hc : p.namedStructs.cofinite with
      | false => exact hrelevant
      | true => exact hnamed.band hrelevant.isZero

end Schema

end RuntimeTestEmitter

/-! ## What one axis answers -/

namespace RuntimeAnyValue

variable {v : RuntimeAnyValue} {shared : Bool}

theorem exists_of_kind_int (h : v.kind shared = .int) : ∃ n, v = .int n := by
  cases v <;> cases shared <;> simp [kind] at h ⊢

theorem exists_of_kind_float (h : v.kind shared = .float) : ∃ bits, v = .float bits := by
  cases v <;> cases shared <;> simp [kind] at h ⊢

theorem exists_of_kind_atom (h : v.kind shared = .atom) : ∃ index, v = .atom index := by
  cases v <;> cases shared <;> simp [kind] at h ⊢

theorem exists_of_kind_closure (h : v.kind shared = .closure) : ∃ code, v = .closure code := by
  cases v <;> cases shared <;> simp [kind] at h ⊢

def isEmptyList : RuntimeAnyValue → Bool
  | emptyList => true
  | _ => false

def isCons : RuntimeAnyValue → Bool
  | cons _ _ => true
  | _ => false

/-- Whether the value is a cons cell whose head one of the questions admits. -/
def headAdmitted (R : RuntimeValueReader) (heads : List RuntimeTypePredicate) :
    RuntimeAnyValue → Bool
  | cons head _ => someHeadMatches R heads head
  | _ => false

/-- A struct has as many fields as the arity its schema is registered for, at every depth. -/
inductive Fits (R : RuntimeValueReader) : RuntimeAnyValue → Prop where
  | null : Fits R .null
  | emptyList : Fits R .emptyList
  | int (n : Int64) : Fits R (.int n)
  | float (bits : UInt64) : Fits R (.float bits)
  | atom (index : Nat) : Fits R (.atom index)
  | cons {head tail : RuntimeAnyValue} (hhead : Fits R head) (htail : Fits R tail) :
    Fits R (.cons head tail)
  | map : Fits R .map
  | binary : Fits R .binary
  | closure (code : Nat) : Fits R (.closure code)
  | resource : Fits R .resource
  | struct {schema : Nat} {fields : List RuntimeAnyValue}
    (arity : ∀ a, R.tupleSchemaIds.lookup a = some schema → fields.length = a)
    (hfields : ∀ field ∈ fields, Fits R field) : Fits R (.struct schema fields)

end RuntimeAnyValue

namespace RuntimeTypePredicate

/-- What the code of one axis answers, where that axis is asked at all. -/
def axisAnswer (R : RuntimeValueReader) (p : RuntimeTypePredicate) (v : RuntimeAnyValue) :
    RuntimeTestAxis → Bool
  | .ints => match v with
    | .int n => p.ints.contains n
    | _ => false
  | .floats => match v with
    | .float bits => p.floats.contains bits
    | _ => false
  | .atoms => match v with
    | .atom index => R.atomMembership p.atoms index
    | _ => false
  | .lists => match v with
    | .emptyList => p.lists.shapes.contains .empty
    | .cons head _ => p.lists.shapes.contains .nonEmpty &&
      (!p.lists.asksTheHead || someHeadMatches R p.lists.heads head)
    | _ => false
  | .maps => match v with
    | .map => true
    | _ => false
  | .binaries => match v with
    | .binary => true
    | _ => false
  | .resources => match v with
    | .resource => true
    | _ => false
  | .callables => match v with
    | .closure code => p.callables.targets.isAny || match R.callables code with
      | some shape => p.callables.admits shape
      | .none => p.callables.targets.cofinite
    | _ => false
  | .tuples | .namedStructs | .otherStructs => match v with
    | .struct schema fields => p.matchesRuntimeTypePredicate R (.struct schema fields)
    | _ => false

theorem isSilent_and_contains {T : Type} [DecidableEq T] (s : FiniteSet T) (x : T) :
    (!s.isNone && s.contains x) = s.contains x := by
  cases h : s.isNone with
  | false => rfl
  | true =>
    simp only [FiniteSet.isNone, Bool.and_eq_true, Bool.not_eq_true', decide_eq_true_eq] at h
    simp [FiniteSet.contains, h.1, h.2]

theorem asksStructs_of_matches {R : RuntimeValueReader} {p : RuntimeTypePredicate} {schema : Nat}
    {fields : List RuntimeAnyValue}
    (h : p.matchesRuntimeTypePredicate R (.struct schema fields) = true) :
    (!p.tuples.arities.isNone || !p.namedStructs.isNone || p.allowOtherStructs) = true := by
  by_contra hsilent
  simp only [Bool.not_eq_true, Bool.or_eq_false_iff, Bool.not_eq_false'] at hsilent
  obtain ⟨⟨harities, hnamed⟩, hother⟩ := hsilent
  simp only [FiniteSet.isNone, Bool.and_eq_true, Bool.not_eq_true', decide_eq_true_eq] at harities
  rw [matches_struct_eq, matchesNamedStructAxis, hnamed, matchesOtherStructAxis, otherStructArities,
    hother, RuntimeValueReader.unnamedStructOfArity, RuntimeValueReader.unnamedStructOfArity] at h
  simp [RuntimeValueReader.schemasOfArities, FiniteSet.none, harities.1, harities.2] at h

theorem any_axisAnswer (R : RuntimeValueReader) (p : RuntimeTypePredicate) (v : RuntimeAnyValue) :
    p.axes.any (p.axisAnswer R v) = p.matchesRuntimeTypePredicate R v := by
  simp only [axes, RuntimeTestAxis.all, List.any_filter, List.any_cons, List.any_nil, isNoneOn,
    Bool.or_false, Bool.not_not]
  cases v with
  | null => simp [axisAnswer, matches_eq]
  | emptyList => simp [axisAnswer, matches_eq, isSilent_and_contains]
  | int n => simp [axisAnswer, matches_eq, isSilent_and_contains]
  | float bits => simp [axisAnswer, matches_eq, isSilent_and_contains]
  | atom index =>
    have hsilent : (!p.atoms.isNone && R.atomMembership p.atoms index)
        = R.atomMembership p.atoms index := by
      cases h : p.atoms.isNone with
      | false => rfl
      | true =>
        simp only [FiniteSet.isNone, Bool.and_eq_true, Bool.not_eq_true', decide_eq_true_eq] at h
        simp [RuntimeValueReader.atomMembership, h.1, h.2]
    simp [axisAnswer, matches_eq, hsilent]
  | cons head tail =>
    simp [axisAnswer, matches_eq, ← Bool.and_assoc, isSilent_and_contains]
  | map => simp [axisAnswer, matches_eq]
  | binary => simp [axisAnswer, matches_eq]
  | closure code =>
    simp only [axisAnswer, matches_closure, matchesRuntimeCallable]
    cases p.callables.targets.isNone <;> cases p.callables.targets.isAny <;> simp <;> rfl
  | resource => simp [axisAnswer, matches_eq]
  | struct schema fields =>
    have hasks : p.matchesRuntimeTypePredicate R (.struct schema fields) = true →
        (!p.tuples.arities.isNone || !p.namedStructs.isNone || p.allowOtherStructs) = true :=
      asksStructs_of_matches
    simp only [axisAnswer, Bool.and_false, Bool.false_or, Bool.or_false]
    cases hm : p.matchesRuntimeTypePredicate R (.struct schema fields) with
    | false => simp
    | true => simpa [Bool.or_assoc] using hasks hm

end RuntimeTypePredicate

/-! ## The code of each axis -/

namespace RuntimeTestEmitter

open RuntimeTypePredicate (axisAnswer)

variable {E : RuntimeTestEmitter} {R : RuntimeValueReader} {m : TestedValue} {value : ValueExpr}
  {v : RuntimeAnyValue} {p : RuntimeTypePredicate}

/-- The emitted code of a test answers as the matcher, of any well-formed value it can read. -/
def Agrees (E : RuntimeTestEmitter) (R : RuntimeValueReader) (m : TestedValue)
    (p : RuntimeTypePredicate) : Prop :=
  ∀ (value : ValueExpr) (v : RuntimeAnyValue), value.eval m.value = some v → v.Fits R →
    Computes m (E.emitRuntimeTypeTest p value) (p.matchesRuntimeTypePredicate R v)

theorem emitQuestions_eq (ps : List RuntimeTypePredicate) :
    E.emitQuestions ps = ps.map E.emitRuntimeTypeTest := by
  induction ps with
  | nil => rfl
  | cons p ps ih => rw [emitQuestions, ih, List.map_cons]

theorem emitQuestionLists_eq (shapes : List (List RuntimeTypePredicate)) :
    E.emitQuestionLists shapes = shapes.map fun shape => shape.map E.emitRuntimeTypeTest := by
  induction shapes with
  | nil => rfl
  | cons shape shapes ih => rw [emitQuestionLists, ih, emitQuestions_eq, List.map_cons]

theorem emitRuntimeTypeTest_eq (p : RuntimeTypePredicate) (value : ValueExpr) :
    E.emitRuntimeTypeTest p value = E.emitAxes value p (p.lists.heads.map E.emitRuntimeTypeTest)
      (p.tuples.shapes.map fun shape => shape.map E.emitRuntimeTypeTest) p.axes false none := by
  obtain ⟨_, _, _, ⟨_, _, _⟩, ⟨_, _, _⟩, _, _, _, _, _, _⟩ := p
  rw [emitRuntimeTypeTest, emitQuestions_eq, emitQuestionLists_eq]

section Axes

variable (hs : E.Serves R) (hv : value.eval m.value = some v)
include hv

include hs in
theorem Serves.computes_intAxis : Computes m (E.kindGuarded value .int
    (emitI64Membership (.rawInt value) (p.ints.words Int64.toInt))) (p.axisAnswer R v .ints) := by
  refine hs.computes_kindGuarded hv (fun hk => ?_) (fun hk => ?_)
  · obtain ⟨n, rfl⟩ := RuntimeAnyValue.exists_of_kind_int hk
    have hw : (WordExpr.rawInt value).eval m.value = some n.toInt := by rw [WordExpr.eval, hv]
    exact (computes_i64Membership hw _).congr
      (contains_words (fun _ _ h => Int64.toInt_inj.mp h) p.ints n)
  · cases v <;> first | rfl | exact absurd rfl hk

include hs in
theorem Serves.computes_floatAxis : Computes m (E.kindGuarded value .float
    (emitU64Membership (.rawFloatBits value) p.floats)) (p.axisAnswer R v .floats) := by
  refine hs.computes_kindGuarded hv (fun hk => ?_) (fun hk => ?_)
  · obtain ⟨bits, rfl⟩ := RuntimeAnyValue.exists_of_kind_float hk
    have hw : (WordExpr.rawFloatBits value).eval m.value = some (bits.toNat : Int) := by
      rw [WordExpr.eval, hv]
    have hinj : Function.Injective fun bits : UInt64 => (bits.toNat : Int) :=
      fun _ _ h => UInt64.toNat_inj.mp (Int.ofNat.inj h)
    exact (computes_i64Membership hw _).congr (contains_words hinj p.floats bits)
  · cases v <;> first | rfl | exact absurd rfl hk

include hs in
theorem Serves.computes_atomAxis (hd : R.DistinctIds) : Computes m (E.kindGuarded value .atom
    (emitI64Membership (.rawAtom value) (E.atomIdMembership p.atoms)))
    (p.axisAnswer R v .atoms) := by
  refine hs.computes_kindGuarded hv (fun hk => ?_) (fun hk => ?_)
  · obtain ⟨index, rfl⟩ := RuntimeAnyValue.exists_of_kind_atom hk
    have hw : (WordExpr.rawAtom value).eval m.value = some (index : Int) := by
      rw [WordExpr.eval, hv]
    exact (computes_i64Membership hw _).congr (hs.contains_atomIdMembership hd p.atoms index)
  · cases v <;> first | rfl | exact absurd rfl hk

include hs in
theorem Serves.computes_callableAxis :
    Computes m (E.emitCallableAxis value p.callables) (p.axisAnswer R v .callables) := by
  rw [emitCallableAxis]
  split
  · rename_i hany
    refine (computes_kindFlag hv _).congr ?_
    cases v with
    | binary => cases m.sharedBinary value <;> rfl
    | closure code => simp [axisAnswer, hany, RuntimeAnyValue.kind]
    | _ => rfl
  · rename_i hany
    refine hs.computes_kindGuarded hv (fun hk => ?_) (fun hk => ?_)
    · obtain ⟨code, rfl⟩ := RuntimeAnyValue.exists_of_kind_closure hk
      have hw : (WordExpr.closureCode value).eval m.value = some (code : Int) := by
        rw [WordExpr.eval, hv]
      have hhit : Computes m (emitAnyEqual (.closureCode value)
          ((E.callableAddresses p.callables).map Int.ofNat))
          (decide (∃ shape, R.callables code = some shape ∧ p.callables.enumerates shape = true)) :=
        (computes_anyEqual hw _).congr (by simp [← hs.callableAddresses])
      simp only [Bool.not_eq_true] at hany
      cases hc : p.callables.targets.cofinite with
      | false =>
        refine hhit.congr ?_
        cases hcode : R.callables code <;>
          simp [axisAnswer, hany, hcode, CallableShapes.admits, hc]
      | true =>
        refine hhit.flip.congr ?_
        cases hcode : R.callables code <;>
          simp [axisAnswer, hany, hcode, CallableShapes.admits, hc]
    · cases v <;> first | rfl | exact absurd rfl hk

theorem computes_emptyListFlag : Computes m (.emptyListFlag value) v.isEmptyList := by
  rw [Computes, FlagExpr.eval, hv]
  cases v <;> rfl

theorem computes_consFlag : Computes m (.consFlag value) v.isCons := by
  rw [Computes, FlagExpr.eval, hv]
  cases v <;> rfl

theorem computes_headQuestions (hheads : ∀ q ∈ p.lists.heads, E.Agrees R m q) (hfit : v.Fits R) :
    Computes m (.guarded (.consFlag value) ((p.lists.heads.map E.emitRuntimeTypeTest).foldl
      (fun flag question => .bor flag (question (.listHead value))) (.iconst 0)))
      (v.headAdmitted R p.lists.heads) := by
  cases hfit with
  | @cons head tail hhead _ =>
    refine ((computes_consFlag hv).guarded fun _ => ?_).congr (Bool.true_and _)
    have heval : (ValueExpr.listHead value).eval m.value = some head := by rw [ValueExpr.eval, hv]
    rw [List.foldl_map]
    refine (computes_foldl_bor (fun q hq => hheads q hq _ _ heval hhead) computes_no).congr ?_
    rw [Bool.eq_iff_iff, RuntimeAnyValue.headAdmitted, RuntimeTypePredicate.someHeadMatches_iff]
    simp
  | _ => exact (computes_consFlag hv).guarded (b := false) (by rintro ⟨⟩)

theorem computes_listAxis (hheads : ∀ q ∈ p.lists.heads, E.Agrees R m q) (hfit : v.Fits R) :
    Computes m (emitListAxis value p.lists (p.lists.heads.map E.emitRuntimeTypeTest))
      (p.axisAnswer R v .lists) := by
  have hempty := computes_emptyListFlag hv
  have hadmitted := computes_headQuestions hv hheads hfit
  rw [emitListAxis]
  cases hn : p.lists.shapes.contains .nonEmpty with
  | false =>
    cases he : p.lists.shapes.contains .empty with
    | false =>
      refine computes_no.congr ?_
      cases v <;> simp [axisAnswer, hn, he]
    | true =>
      refine hempty.congr ?_
      cases v <;> simp [axisAnswer, hn, he, RuntimeAnyValue.isEmptyList]
  | true =>
    cases ha : p.lists.asksTheHead <;> cases he : p.lists.shapes.contains .empty
    · refine (computes_consFlag hv).congr ?_
      cases v <;> simp [axisAnswer, hn, he, ha, RuntimeAnyValue.isCons]
    · refine (computes_kindFlag hv .list).congr ?_
      cases v with
      | binary => cases m.sharedBinary value <;> rfl
      | _ => simp [axisAnswer, hn, he, ha, RuntimeAnyValue.kind]
    · refine hadmitted.congr ?_
      cases v <;> simp [axisAnswer, hn, he, ha, RuntimeAnyValue.headAdmitted]
    · refine (hempty.bor hadmitted).congr ?_
      cases v <;>
        simp [axisAnswer, hn, he, ha, RuntimeAnyValue.headAdmitted, RuntimeAnyValue.isEmptyList]

end Axes

/-! ## Tuples -/

section Tuples

variable {schema : Nat} {fields : List RuntimeAnyValue}
  (hv : value.eval m.value = some (.struct schema fields))
include hv

theorem computes_positions {shape : List RuntimeTypePredicate}
    (hpositions : ∀ q ∈ shape, E.Agrees R m q) (hfields : ∀ field ∈ fields, field.Fits R) {k : Nat}
    (hk : k + shape.length ≤ fields.length) {matched : Option FlagExpr} {a : Bool}
    (hm : Computes m (matched.getD (.iconst 1)) a) :
    Computes m ((((shape.map E.emitRuntimeTypeTest).zipIdx k).foldl (fun matched position =>
      let flag := position.1 (.tupleField value position.2)
      match matched with
      | none => some flag
      | some prev => some (.band prev flag)) matched).getD (.iconst 1))
      (a && positionsMatch R shape (fields.drop k)) := by
  induction shape generalizing k matched a with
  | nil => exact hm.congr (by rw [positionsMatch, Bool.and_true])
  | cons q shape ih =>
    rw [List.length_cons] at hk
    have hlt : k < fields.length := by omega
    have heval : (ValueExpr.tupleField value k).eval m.value = some fields[k] := by
      rw [ValueExpr.eval, hv]
      exact List.getElem?_eq_getElem hlt
    have hflag := hpositions q (.head _) _ _ heval (hfields _ (List.getElem_mem hlt))
    rw [List.map_cons, List.zipIdx_cons, List.foldl_cons, ← List.getElem_cons_drop hlt,
      positionsMatch, ← Bool.and_assoc]
    refine ih (fun q hq => hpositions q (.tail _ hq)) (by omega) ?_
    cases matched with
    | none =>
      -- the first position stands alone: nothing before it has failed
      have ha : true = a := by
        cases a with
        | true => rfl
        | false => exact absurd (hm.symm.trans computes_yes) (by decide)
      exact hflag.congr (by rw [← ha, Bool.true_and])
    | some prev => exact FlagExpr.Computes.band hm hflag

theorem computes_shapesOfArity
    (hpositions : ∀ s ∈ p.tuples.shapes, ∀ q ∈ s, E.Agrees R m q)
    (hfields : ∀ field ∈ fields, field.Fits R) :
    Computes m (emitShapesOfArity value p
      (p.tuples.shapes.map fun shape => shape.map E.emitRuntimeTypeTest) fields.length)
      (match p.tuplePositions fields.length with
        | .never => false
        | .always => true
        | .anyOf => someShapeMatches R p.tuples.shapes fields.length fields) := by
  rw [emitShapesOfArity]
  cases p.tuplePositions fields.length with
  | never => exact computes_no
  | always => exact computes_yes
  | anyOf =>
    rw [List.filter_map, List.foldl_map]
    refine (computes_foldl_bor (g := fun s => positionsMatch R s fields)
      (fun s hshape => ?_) computes_no).congr ?_
    · obtain ⟨hmem, hlen⟩ := List.mem_filter.mp hshape
      have hlen : s.length = fields.length := by simpa using hlen
      have hfirst : Computes m ((Option.none : Option FlagExpr).getD (.iconst 1)) true :=
        computes_yes
      exact (computes_positions hv (hpositions s hmem) hfields (k := 0) (by omega) hfirst).congr
        (by rw [Bool.true_and, List.drop_zero])
    · rw [Bool.eq_iff_iff, RuntimeTypePredicate.someShapeMatches_iff]
      simp

omit hv in
theorem Serves.computes_arities (hs : E.Serves R) {raw : WordExpr}
    (hw : raw.eval m.value = some (schema : Int)) {f : Nat → FlagExpr} {g : Nat → Bool}
    (hf : ∀ arity, R.tupleSchemaIds.lookup arity = some schema → Computes m (f arity) (g arity))
    (arities : List Nat) {e : FlagExpr} {a : Bool} (h : Computes m e a) :
    Computes m (arities.foldl (fun hit arity =>
      match E.tupleSchemaIds.lookup arity with
      | none => hit
      | some schemaId => .bor hit (.guarded (.icmpEqual raw (.iconst schemaId)) (f arity))) e)
      (a || arities.any fun arity =>
        decide (R.tupleSchemaIds.lookup arity = some schema) && g arity) := by
  induction arities generalizing e a with
  | nil => exact h.congr (by simp)
  | cons arity arities ih =>
    rw [List.foldl_cons, List.any_cons, ← Bool.or_assoc, hs.tupleSchemaIds]
    rw [hs.tupleSchemaIds] at ih
    refine ih ?_
    cases hl : R.tupleSchemaIds.lookup arity with
    | none => exact h.congr (by simp)
    | some schemaId =>
      have heq : Computes m (.icmpEqual raw (.iconst schemaId)) (decide (schemaId = schema)) := by
        rw [Computes, FlagExpr.eval, hw]
        exact congrArg (fun b => some (Bool.toUInt8 b))
          (decide_eq_decide.mpr (Int.ofNat_inj.trans eq_comm))
      refine (h.bor (heq.guarded (b := g arity) fun hid => ?_)).congr (by simp)
      obtain rfl : schemaId = schema := of_decide_eq_true hid
      exact hf arity hl

/-- What the matcher's tuple axis says of a struct. -/
def tupleAnswer (R : RuntimeValueReader) (p : RuntimeTypePredicate) (schema : Nat)
    (fields : List RuntimeAnyValue) : Bool :=
  R.unnamedStructOfArity schema p.tuples.arities &&
    match R.tupleArityOf schema with
    | none => true
    | some arity =>
      match p.tuplePositions arity with
      | .never => false
      | .always => true
      | .anyOf => someShapeMatches R p.tuples.shapes arity fields

omit hv in
theorem tupleAnswer_of_not_exact (hd : R.DistinctIds) (hexact : p.tuples.isExact = false) :
    tupleAnswer R p schema fields = R.unnamedStructOfArity schema p.tuples.arities := by
  rw [tupleAnswer]
  cases hu : R.unnamedStructOfArity schema p.tuples.arities with
  | false => rfl
  | true =>
    cases ha : R.tupleArityOf schema with
    | none => rfl
    | some arity =>
      have hlookup := hd.tupleArityOf_iff.mp ha
      have hcontains : p.tuples.arities.contains arity = true := by
        rw [RuntimeValueReader.unnamedStructOfArity] at hu
        rw [FiniteSet.contains]
        cases hc : p.tuples.arities.cofinite with
        | false =>
          rw [hc] at hu
          obtain ⟨arity', hmem, hlookup'⟩ := of_decide_eq_true hu
          have harity := hd.tupleArityOf_iff.mpr hlookup'
          rw [ha, Option.some_inj] at harity
          simp [harity, hmem]
        | true =>
          rw [hc] at hu
          simp only [Bool.not_true, Bool.false_eq_true, if_false, Bool.and_eq_true] at hu
          have hnot : arity ∉ p.tuples.arities.values := fun hmem => by
            simp [RuntimeValueReader.schemasOfArities] at hu
            exact hu.2 arity hmem hlookup
          simp [hnot]
      have hpos : p.tuplePositions arity = .always := by
        simp [RuntimeTypePredicate.tuplePositions, hcontains, hexact]
      simp [hpos]

theorem Serves.computes_tupleAxis (hs : E.Serves R) (hd : R.DistinctIds)
    (hfinite : p.tuples.isExact = true → p.tuples.arities.cofinite = false)
    (hpositions : ∀ s ∈ p.tuples.shapes, ∀ q ∈ s, E.Agrees R m q)
    (hfit : (RuntimeAnyValue.struct schema fields).Fits R) : Computes m (E.emitTupleAxis value p
      (p.tuples.shapes.map fun shape => shape.map E.emitRuntimeTypeTest) (.schemaId value))
      (tupleAnswer R p schema fields) := by
  obtain ⟨harity, hfields⟩ : (∀ a, R.tupleSchemaIds.lookup a = some schema → fields.length = a) ∧
      ∀ field ∈ fields, field.Fits R := by
    cases hfit with
    | struct harity hfields => exact ⟨harity, hfields⟩
  have hw : (WordExpr.schemaId value).eval m.value = some (schema : Int) := by
    rw [WordExpr.eval, hv]
  rw [emitTupleAxis]
  split
  · rename_i hnone
    simp only [FiniteSet.isNone, Bool.and_eq_true, Bool.not_eq_true', decide_eq_true_eq] at hnone
    refine computes_no.congr ?_
    simp [tupleAnswer, RuntimeValueReader.unnamedStructOfArity,
      RuntimeValueReader.schemasOfArities, hnone.1, hnone.2]
  · cases hexact : p.tuples.isExact with
    | false =>
      rw [tupleAnswer_of_not_exact hd hexact]
      exact hs.computes_aritySetMembership hd hw p.tuples.arities
    | true =>
      have hshapes : ∀ arity, R.tupleSchemaIds.lookup arity = some schema →
          Computes m (emitShapesOfArity value p
            (p.tuples.shapes.map fun shape => shape.map E.emitRuntimeTypeTest) arity)
            (match p.tuplePositions arity with
              | .never => false
              | .always => true
              | .anyOf => someShapeMatches R p.tuples.shapes arity fields) := by
        intro arity hlookup
        obtain rfl := harity arity hlookup
        exact computes_shapesOfArity hv hpositions hfields
      refine (hs.computes_arities hw hshapes _ computes_no).congr ?_
      rw [tupleAnswer, RuntimeValueReader.unnamedStructOfArity, hfinite hexact, Bool.false_or]
      simp only [Bool.not_false, if_true]
      cases ha : R.tupleArityOf schema with
      | none =>
        have hnot : ∀ a, R.tupleSchemaIds.lookup a ≠ some schema := fun a hl => by
          rw [← hd.tupleArityOf_iff, ha] at hl
          cases hl
        simp [RuntimeValueReader.schemasOfArities, hnot]
      | some arity =>
        have honly : ∀ a, R.tupleSchemaIds.lookup a = some schema ↔ a = arity := fun a => by
          rw [← hd.tupleArityOf_iff, ha, Option.some_inj, eq_comm]
        rw [Bool.eq_iff_iff]
        simp [RuntimeValueReader.schemasOfArities, honly]

end Tuples

/-! ## All axes -/

/-- The three struct axes together. -/
theorem Serves.computes_structAxes (hs : E.Serves R) (hd : R.DistinctIds)
    (hv : value.eval m.value = some v)
    (hfinite : p.tuples.isExact = true → p.tuples.arities.cofinite = false)
    (hpositions : ∀ s ∈ p.tuples.shapes, ∀ q ∈ s, E.Agrees R m q) (hfit : v.Fits R) :
    Computes m (E.emitStructAxes value p
      (p.tuples.shapes.map fun shape => shape.map E.emitRuntimeTypeTest))
      (p.axisAnswer R v .tuples) := by
  have hkind := computes_kindFlag hv .struct
  rw [emitStructAxes]
  split
  · rename_i hany
    refine hkind.congr ?_
    simp only [FiniteSet.isAny, Bool.and_eq_true, decide_eq_true_eq] at hany
    obtain ⟨⟨hcofinite, hvalues⟩, hnamed⟩ := hany
    cases v with
    | binary => cases m.sharedBinary value <;> rfl
    | struct schema fields =>
      have hsome : p.namedStructs.isNone = false := by simp [FiniteSet.isNone, hnamed.1]
      have hall : p.namedStructs.isAny = true := by simp [FiniteSet.isAny, hnamed.1, hnamed.2]
      rw [RuntimeTypePredicate.axisAnswer, RuntimeTypePredicate.matches_struct_eq,
        RuntimeTypePredicate.matchesNamedStructAxis, hsome, hall,
        RuntimeTypePredicate.matchesOtherStructAxis, RuntimeValueReader.unnamedStructOfArity,
        RuntimeValueReader.unnamedStructOfArity, hcofinite, hvalues]
      simp [RuntimeValueReader.schemasOfArities, RuntimeAnyValue.kind]
      by_cases hmem : schema ∈ R.knownNamedSchemas <;> simp [hmem]
    | _ => rfl
  · cases v with
    | binary =>
      refine (hkind.guarded (b := false) fun hk => ?_).congr (by simp [axisAnswer])
      cases hm : m.sharedBinary value <;> simp [RuntimeAnyValue.kind, hm] at hk
    | struct schema fields =>
      have hw : (WordExpr.schemaId value).eval m.value = some (schema : Int) := by
        rw [WordExpr.eval, hv]
      refine (hkind.guarded fun _ =>
        ((hs.computes_tupleAxis hv hd hfinite hpositions hfit).bor
          (hs.computes_namedStructAxis hd hw p)).bor
          (hs.computes_aritySetMembership hd hw p.otherStructArities)).congr ?_
      rw [axisAnswer, RuntimeTypePredicate.matches_struct_eq]
      rfl
    | _ => exact hkind.guarded (b := false) (by rintro ⟨⟩)

theorem Serves.computes_axis (hs : E.Serves R) (hd : R.DistinctIds)
    (hv : value.eval m.value = some v)
    (hfinite : p.tuples.isExact = true → p.tuples.arities.cofinite = false)
    (hheads : ∀ q ∈ p.lists.heads, E.Agrees R m q)
    (hpositions : ∀ s ∈ p.tuples.shapes, ∀ q ∈ s, E.Agrees R m q) (hfit : v.Fits R)
    (axis : RuntimeTestAxis) :
    Computes m (E.emitAxis value p (p.lists.heads.map E.emitRuntimeTypeTest)
      (p.tuples.shapes.map fun shape => shape.map E.emitRuntimeTypeTest) axis)
      (p.axisAnswer R v axis) := by
  cases axis with
  | ints => exact hs.computes_intAxis hv
  | floats => exact hs.computes_floatAxis hv
  | atoms => exact hs.computes_atomAxis hv hd
  | lists => exact computes_listAxis hv hheads hfit
  | maps =>
    refine (computes_kindFlag hv .map).congr ?_
    cases v with
    | binary => cases m.sharedBinary value <;> rfl
    | _ => rfl
  | binaries =>
    refine ((computes_kindFlag hv .bitstring).bor (computes_kindFlag hv .procbin)).congr ?_
    cases v with
    | binary => cases m.sharedBinary value <;> rfl
    | _ => rfl
  | resources =>
    refine (computes_kindFlag hv .resource).congr ?_
    cases v with
    | binary => cases m.sharedBinary value <;> rfl
    | _ => rfl
  | callables => exact hs.computes_callableAxis hv
  | tuples => exact hs.computes_structAxes hd hv hfinite hpositions hfit
  | namedStructs => exact hs.computes_structAxes hd hv hfinite hpositions hfit
  | otherStructs => exact hs.computes_structAxes hd hv hfinite hpositions hfit

theorem computes_axes {heads : List ValueTest} {shapes : List (List ValueTest)}
    (haxis : ∀ axis, Computes m (E.emitAxis value p heads shapes axis) (p.axisAnswer R v axis))
    (axes : List RuntimeTestAxis) {structsEmitted : Bool} {flag : Option FlagExpr} {a : Bool}
    (hflag : Computes m (flag.getD (.iconst 0)) a)
    (hstructs : structsEmitted = true → p.axisAnswer R v .tuples = true → a = true) :
    Computes m (E.emitAxes value p heads shapes axes structsEmitted flag)
      (a || axes.any (p.axisAnswer R v)) := by
  induction axes generalizing structsEmitted flag a with
  | nil => exact hflag.congr (by simp)
  | cons axis axes ih =>
    have hsame : axis.isStruct = true → p.axisAnswer R v axis = p.axisAnswer R v .tuples := by
      cases axis <;> simp [RuntimeTestAxis.isStruct, axisAnswer]
    rw [emitAxes, List.any_cons, ← Bool.or_assoc]
    split
    · rename_i hskip
      rw [Bool.and_eq_true] at hskip
      refine (ih hflag hstructs).congr ?_
      rw [hsame hskip.1]
      cases ht : p.axisAnswer R v .tuples with
      | false => rw [Bool.or_false]
      | true => simp [hstructs hskip.2 ht]
    · refine ih ?_ fun hemitted ht => ?_
      · cases flag with
        | none =>
          have ha : false = a := by
            cases a with
            | false => rfl
            | true => exact absurd (hflag.symm.trans computes_no) (by decide)
          exact (haxis axis).congr (by rw [← ha, Bool.false_or])
        | some prev => exact FlagExpr.Computes.bor hflag (haxis axis)
      · rw [Bool.or_eq_true] at hemitted ⊢
        rcases hemitted with h | h
        · exact .inl (hstructs h ht)
        · exact .inr ((hsame h).trans ht)

theorem emitted_matches (hs : E.Serves R) (hd : R.DistinctIds) (hp : p.Constructed) :
    E.Agrees R m p := by
  induction hp with
  | @mk p harities hsub ih =>
    intro value v hv hfit
    have hfinite := (Constructed.mk harities hsub).finite
    have haxis := hs.computes_axis hd hv hfinite (fun q hq => ih q (.head hq))
      (fun s hshape q hq => ih q (.position hshape hq)) hfit
    have hnone : Computes m ((none : Option FlagExpr).getD (.iconst 0)) false := computes_no
    rw [emitRuntimeTypeTest_eq]
    exact (computes_axes haxis p.axes hnone fun h => absurd h Bool.false_ne_true).congr
      ((Bool.false_or _).trans (RuntimeTypePredicate.any_axisAnswer R p v))

/-- The flag of an emitted test is 1 exactly where the matcher admits the value, and 0 elsewhere. -/
theorem emitRuntimeTypeTest_matches (hs : E.Serves R) (hd : R.DistinctIds) (hp : p.Constructed)
    (m : TestedValue) (hfit : m.value.Fits R) :
    ∃ flag, (E.emitRuntimeTypeTest p .input).eval m = some flag ∧
      (flag = 1 ↔ p.matchesRuntimeTypePredicate R m.value = true) ∧
      (flag = 0 ↔ p.matchesRuntimeTypePredicate R m.value = false) := by
  refine ⟨_, emitted_matches hs hd hp .input m.value rfl hfit, ?_⟩
  cases p.matchesRuntimeTypePredicate R m.value <;> decide

end RuntimeTestEmitter

/-! ## A pair under test -/

/-- The test of a pair of an integer and the atom `:ok`. -/
def taggedPairTest : RuntimeTypePredicate :=
  { RuntimeTypePredicate.none with
    tuples := .exactly [[{ RuntimeTypePredicate.none with ints := .any },
      { RuntimeTypePredicate.none with atoms := .lit "ok" }]] }

def okPairReader : RuntimeValueReader where
  atomNames := ["error", "ok"]
  structSchemas := [["Point"]]
  tupleSchemaIds := [(2, 5)]
  namedSchemaIds := [(["Point"], 6)]
  callables := fun _ => none

def okPairEmitter : RuntimeTestEmitter where
  kindEvidence := fun _ => .tagged
  atomNames := ["error", "ok"]
  tupleSchemaIds := [(2, 5)]
  namedSchemaIds := [(["Point"], 6)]
  callableAddresses := fun _ => []

theorem okPairEmitter_serves : okPairEmitter.Serves okPairReader where
  tagged _ := rfl
  atomNames := rfl
  tupleSchemaIds := rfl
  namedSchemaIds := rfl
  structSchemas := by simp [okPairEmitter, okPairReader]
  callableAddresses := by simp [okPairEmitter, okPairReader]

theorem okPairReader_distinct : okPairReader.DistinctIds where
  atomNames := by simp [okPairReader]
  arities := by simp [okPairReader]
  tupleSchemas := by simp [okPairReader]
  names := by simp [okPairReader]

theorem constructed_of_leaf {p : RuntimeTypePredicate} (hlists : p.lists.heads = [])
    (htuples : p.tuples = .exactly []) (hcallables : p.callables.shapes = []) : p.Constructed := by
  refine .mk (fun _ => by rw [htuples]; rfl) fun q hq => ?_
  cases hq with
  | head hh => simp [hlists] at hh
  | position hshape _ => simp [htuples, TupleShapes.exactly] at hshape
  | capture hshape _ => simp [hcallables] at hshape

theorem taggedPairTest_constructed : taggedPairTest.Constructed := by
  refine .mk (fun _ => rfl) fun q hq => ?_
  cases hq with
  | head hh => exact nomatch hh
  | position hshape hq =>
    obtain rfl := List.mem_singleton.mp hshape
    rcases List.mem_pair.mp hq with rfl | rfl <;> exact constructed_of_leaf rfl rfl rfl
  | capture hshape _ => exact nomatch hshape

/-- `{3, :ok}`, held under the pair's schema. -/
def okPair : TestedValue := ⟨.struct 5 [.int 3, .atom 1], fun _ => false⟩

theorem okPair_fits : okPair.value.Fits okPairReader := by
  refine .struct (fun a ha => ?_) fun field hfield => ?_
  · rw [lookup_eq_some_iff_mem okPairReader_distinct.arities] at ha
    simp only [okPairReader, List.mem_singleton, Prod.mk.injEq] at ha
    exact ha.1.symm
  · rcases List.mem_pair.mp hfield with rfl | rfl
    · exact .int 3
    · exact .atom 1

theorem okPair_passes_emitted :
    (okPairEmitter.emitRuntimeTypeTest taggedPairTest .input).eval okPair = some 1 := by
  obtain ⟨flag, heval, hone, -⟩ := RuntimeTestEmitter.emitRuntimeTypeTest_matches
    okPairEmitter_serves okPairReader_distinct taggedPairTest_constructed okPair okPair_fits
  rw [heval, hone.mpr (by decide)]

end Fz.Types
