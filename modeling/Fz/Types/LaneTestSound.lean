import Fz.Base.List
import Fz.Types.LaneTest

/-!
# A test of lanes agrees with a test of the value

The lane test and the matcher of whole values ask the same of a tuple: both go by what the predicate
wants of its arity.  They differ in two ways.  A field that is one word is matched under a reader
built for that field's question alone, where the matcher of the whole tuple keeps the reader of the
whole test; a reader that knows every schema a test can ask about answers like any other
(`matches_congr`).  And a callable held as lanes has no word to offer and no arity to ask about, so
the lane test refuses it, though a value may be built of it.  Apart from that refusal the two agree
(`matchesValue_agrees`).
-/

namespace Fz.Types

open Fz.Base

/-! ## Tests as they are built -/

namespace RuntimeTypePredicate

/-- The arities of an exact tuple axis are the lengths of its shapes, at every depth: there is no
other way to build one. -/
inductive Constructed : RuntimeTypePredicate → Prop where
  | mk {p : RuntimeTypePredicate}
    (arities : p.tuples.isExact = true →
      p.tuples.arities = (TupleShapes.exactly p.tuples.shapes).arities)
    (sub : ∀ q, Sub p q → Constructed q) : Constructed p

variable {p q : RuntimeTypePredicate} {R R' : RuntimeValueReader}

theorem Constructed.finite (h : p.Constructed) (hexact : p.tuples.isExact = true) :
    p.tuples.arities.cofinite = false := by
  obtain ⟨harities, -⟩ := h
  rw [harities hexact]
  rfl

theorem somePositionReadsNamed_iff {ps : List RuntimeTypePredicate} :
    somePositionReadsNamed ps = true ↔ ∃ q ∈ ps, q.readsNamedSchemas = true := by
  induction ps with
  | nil => simp [somePositionReadsNamed]
  | cons p ps ih => simp [somePositionReadsNamed, ih]

theorem someShapeReadsNamed_iff {ss : List (List RuntimeTypePredicate)} :
    someShapeReadsNamed ss = true ↔ ∃ s ∈ ss, ∃ q ∈ s, q.readsNamedSchemas = true := by
  induction ss with
  | nil => simp [someShapeReadsNamed]
  | cons s ss ih => simp [someShapeReadsNamed, somePositionReadsNamed_iff, ih]

theorem readsNamedSchemas_iff : p.readsNamedSchemas = true ↔
    (p.namedStructs.isNone = false ∨ p.tuples.arities.cofinite = true ∨
      p.allowOtherStructs = true) ∨ (∃ q ∈ p.lists.heads, q.readsNamedSchemas = true) ∨
      ∃ s ∈ p.tuples.shapes, ∃ q ∈ s, q.readsNamedSchemas = true := by
  obtain ⟨_, _, _, ⟨_, _, _⟩, ⟨_, _, _⟩, _, _, _, _, _, _⟩ := p
  simp only [readsNamedSchemas, Bool.or_eq_true, somePositionReadsNamed_iff,
    someShapeReadsNamed_iff, Bool.not_eq_true', or_assoc]

theorem someHeadMatches_congr {heads : List RuntimeTypePredicate} {head : RuntimeAnyValue}
    (h : ∀ q ∈ heads, ∀ v, q.matchesRuntimeTypePredicate R v = q.matchesRuntimeTypePredicate R' v) :
    someHeadMatches R heads head = someHeadMatches R' heads head := by
  rw [Bool.eq_iff_iff, someHeadMatches_iff, someHeadMatches_iff]
  exact exists_congr fun q => and_congr_right fun hq => by rw [h q hq]

theorem positionsMatch_congr {shape : List RuntimeTypePredicate} {fields : List RuntimeAnyValue}
    (h : ∀ q ∈ shape, ∀ v, q.matchesRuntimeTypePredicate R v = q.matchesRuntimeTypePredicate R' v) :
    positionsMatch R shape fields = positionsMatch R' shape fields := by
  induction shape generalizing fields with
  | nil => rw [positionsMatch, positionsMatch]
  | cons q shape ih =>
    cases fields with
    | nil => rw [positionsMatch, positionsMatch]
    | cons field fields =>
      rw [positionsMatch, positionsMatch, h q (.head _) field, ih fun q hq => h q (.tail _ hq)]

theorem someShapeMatches_congr {shapes : List (List RuntimeTypePredicate)} {arity : Nat}
    {fields : List RuntimeAnyValue} (h : ∀ s ∈ shapes, ∀ q ∈ s, ∀ v,
      q.matchesRuntimeTypePredicate R v = q.matchesRuntimeTypePredicate R' v) :
    someShapeMatches R shapes arity fields = someShapeMatches R' shapes arity fields := by
  rw [Bool.eq_iff_iff, someShapeMatches_iff, someShapeMatches_iff]
  exact exists_congr fun s => and_congr_right fun hs => by rw [positionsMatch_congr (h s hs)]

end RuntimeTypePredicate

/-! ## Readers that know a test -/

namespace TypeTest

open RuntimeTypePredicate

variable (T : TypeTest)

/-- A reader that can answer everything a test asks, at any depth. -/
structure Knows (R : RuntimeValueReader) (p : RuntimeTypePredicate) : Prop where
  atomNames : R.atomNames = T.atomNames
  structSchemas : R.structSchemas = T.structSchemas
  callables : R.callables = T.callables
  numbered : R.Numbered T.tupleSchema T.namedSchema
  arities : ∀ a ∈ p.tupleAritiesAtEveryDepth, (R.tupleSchemaIds.lookup a).isSome = true
  named : p.readsNamedSchemas = true →
    R.namedSchemaIds = T.structSchemas.map fun name => (name, T.namedSchema name)

theorem numbered_reader (p : RuntimeTypePredicate) :
    (T.reader p).Numbered T.tupleSchema T.namedSchema := by
  refine ⟨T.tupleSchema_inj, T.tuple_ne_named, fun e he => ?_, fun e he => ?_⟩
  · obtain ⟨arity, -, rfl⟩ := List.mem_map.mp he
    rfl
  · dsimp only [reader, interpRuntimeTypePredicateSchemaIds] at he
    split at he
    · obtain ⟨name, -, rfl⟩ := List.mem_map.mp he
      rfl
    · exact nomatch he

theorem knows_reader (p : RuntimeTypePredicate) : T.Knows (T.reader p) p where
  atomNames := rfl
  structSchemas := rfl
  callables := rfl
  numbered := T.numbered_reader p
  arities a ha := by
    rw [List.lookup_isSome_iff]
    refine ⟨(a, T.tupleSchema a), List.mem_map_of_mem ?_, beq_self_eq_true a⟩
    exact (Finset.mem_sort _).mpr ha
  named h := by
    dsimp only [reader, interpRuntimeTypePredicateSchemaIds]
    rw [if_pos h]

variable {T} {R R' : RuntimeValueReader} {p q : RuntimeTypePredicate}

theorem Knows.tuples (h : T.Knows R p) :
    ∀ a ∈ p.tuples.arities.values, (R.tupleSchemaIds.lookup a).isSome = true :=
  fun a ha => h.arities a (mem_tupleAritiesAtEveryDepth.mpr (.inl ha))

theorem Knows.head (h : T.Knows R p) (hq : q ∈ p.lists.heads) : T.Knows R q :=
  { h with
    arities := fun a ha => h.arities a (mem_tupleAritiesAtEveryDepth.mpr (.inr (.inl ⟨q, hq, ha⟩)))
    named := fun hr => h.named (readsNamedSchemas_iff.mpr (.inr (.inl ⟨q, hq, hr⟩))) }

theorem Knows.position (h : T.Knows R p) {s : List RuntimeTypePredicate} (hs : s ∈ p.tuples.shapes)
    (hq : q ∈ s) : T.Knows R q :=
  { h with
    arities := fun a ha =>
      h.arities a (mem_tupleAritiesAtEveryDepth.mpr (.inr (.inr ⟨s, hs, q, hq, ha⟩)))
    named := fun hr => h.named (readsNamedSchemas_iff.mpr (.inr (.inr ⟨s, hs, q, hq, hr⟩))) }

theorem Knows.namedSchemaIds_eq (h : T.Knows R p) (h' : T.Knows R' p)
    (hr : p.readsNamedSchemas = true) : R.namedSchemaIds = R'.namedSchemaIds :=
  (h.named hr).trans (h'.named hr).symm

theorem Knows.knownNamedSchemas_eq (h : T.Knows R p) (h' : T.Knows R' p)
    (hr : p.readsNamedSchemas = true) : R.knownNamedSchemas = R'.knownNamedSchemas := by
  rw [RuntimeValueReader.knownNamedSchemas, RuntimeValueReader.knownNamedSchemas,
    h.structSchemas, h'.structSchemas, h.namedSchemaIds_eq h' hr]

theorem Knows.unnamedStructOfArity_eq (h : T.Knows R p) (h' : T.Knows R' p)
    {arities : FiniteSet Nat} (hsub : arities.values ⊆ p.tuples.arities.values)
    (hr : arities.cofinite = true → p.readsNamedSchemas = true) (schema : Nat) :
    R.unnamedStructOfArity schema arities = R'.unnamedStructOfArity schema arities := by
  have hschemas : R.schemasOfArities arities.values schema
      = R'.schemasOfArities arities.values schema := by
    rw [Bool.eq_iff_iff, h.numbered.schemasOfArities_iff fun a ha => h.tuples a (hsub ha),
      h'.numbered.schemasOfArities_iff fun a ha => h'.tuples a (hsub ha)]
  rw [RuntimeValueReader.unnamedStructOfArity, RuntimeValueReader.unnamedStructOfArity, hschemas]
  cases hc : arities.cofinite with
  | false => rfl
  | true => rw [h.knownNamedSchemas_eq h' (hr hc)]

theorem Knows.matchesNamedStructAxis_eq (h : T.Knows R p) (h' : T.Knows R' p) (schema : Nat) :
    p.matchesNamedStructAxis R schema = p.matchesNamedStructAxis R' schema := by
  rw [matchesNamedStructAxis, matchesNamedStructAxis]
  cases hnone : p.namedStructs.isNone with
  | true => rfl
  | false =>
    have hr : p.readsNamedSchemas = true := readsNamedSchemas_iff.mpr (.inl (.inl hnone))
    rw [h.knownNamedSchemas_eq h' hr, h.namedSchemaIds_eq h' hr]

theorem Knows.matchesOtherStructAxis_eq (h : T.Knows R p) (h' : T.Knows R' p) (schema : Nat) :
    p.matchesOtherStructAxis R schema = p.matchesOtherStructAxis R' schema := by
  refine h.unnamedStructOfArity_eq h' ?_ ?_ schema <;> rw [otherStructArities] <;> split
  · exact subset_rfl
  · exact Finset.empty_subset _
  · rename_i ho
    exact fun _ => readsNamedSchemas_iff.mpr (.inl (.inr (.inr ho)))
  · exact fun hc => by cases hc

theorem Knows.tupleArityOf_none (h : T.Knows R p) {schema : Nat}
    (hschema : ∀ n, schema ≠ T.tupleSchema n) : R.tupleArityOf schema = Option.none := by
  cases ha : R.tupleArityOf schema with
  | none => rfl
  | some n => exact absurd (h.numbered.tupleArityOf_eq ha) (hschema n)

theorem matches_congr (hp : p.Constructed) (h : T.Knows R p) (h' : T.Knows R' p)
    (v : RuntimeAnyValue) :
    p.matchesRuntimeTypePredicate R v = p.matchesRuntimeTypePredicate R' v := by
  induction hp generalizing v with
  | @mk p harities hsub ih =>
    have hfinite := (Constructed.mk harities hsub).finite
    have hheads : ∀ q ∈ p.lists.heads, ∀ v,
        q.matchesRuntimeTypePredicate R v = q.matchesRuntimeTypePredicate R' v :=
      fun q hq v => ih q (.head hq) (h.head hq) (h'.head hq) v
    have hshapes : ∀ s ∈ p.tuples.shapes, ∀ q ∈ s, ∀ v,
        q.matchesRuntimeTypePredicate R v = q.matchesRuntimeTypePredicate R' v :=
      fun s hs q hq v => ih q (.position hs hq) (h.position hs hq) (h'.position hs hq) v
    cases v with
    | atom i =>
      rw [matches_atom, matches_atom, RuntimeValueReader.atomMembership,
        RuntimeValueReader.atomMembership, h.atomNames, h'.atomNames]
    | closure code =>
      rw [matches_closure, matches_closure, matchesRuntimeCallable, matchesRuntimeCallable,
        h.callables, h'.callables]
    | cons head tail =>
      rw [Bool.eq_iff_iff, matches_cons, matches_cons, ← someHeadMatches_iff,
        ← someHeadMatches_iff, someHeadMatches_congr hheads]
    | struct schema fields =>
      by_cases hschema : ∃ n, schema = T.tupleSchema n
      · obtain ⟨n, rfl⟩ := hschema
        rw [h.numbered.matches_tuple h.tuples hfinite, h'.numbered.matches_tuple h'.tuples hfinite,
          someShapeMatches_congr hshapes]
      · have hnone : ∀ n, schema ≠ T.tupleSchema n := not_exists.mp hschema
        have hreads : p.tuples.arities.cofinite = true → p.readsNamedSchemas = true :=
          fun hc => readsNamedSchemas_iff.mpr (.inl (.inr (.inl hc)))
        rw [matches_struct_eq, matches_struct_eq, h.tupleArityOf_none hnone,
          h'.tupleArityOf_none hnone, h.unnamedStructOfArity_eq h' subset_rfl hreads,
          h.matchesNamedStructAxis_eq h', h.matchesOtherStructAxis_eq h']
    | _ => rw [matches_eq, matches_eq]

end TypeTest

/-! ## Callables held as lanes -/

namespace ShapeDescr

mutual
/-- Whether some field, at any depth of fields held as lanes, is a callable held as lanes. -/
def lanesHoldCallable : ShapeDescr → Bool
  | nothing | lane => false
  | tuple fields => someFieldHoldsCallable fields
  | callable _ => true

def someFieldHoldsCallable : List (TransportLayout ShapeDescr) → Bool
  | [] => false
  | ⟨structural, .absent⟩ :: rest => structural.lanesHoldCallable || someFieldHoldsCallable rest
  | ⟨_, .valueRef⟩ :: rest => someFieldHoldsCallable rest
end

theorem someFieldHoldsCallable_of_mem {fields : List (TransportLayout ShapeDescr)}
    {layout : TransportLayout ShapeDescr} (hmem : layout ∈ fields) (hc : layout.carrier = .absent)
    (h : layout.structural.lanesHoldCallable = true) : someFieldHoldsCallable fields = true := by
  induction fields with
  | nil => exact nomatch hmem
  | cons other rest ih =>
    obtain ⟨structural, carrier⟩ := other
    cases List.mem_cons.mp hmem with
    | inl heq =>
      subst heq
      cases hc
      rw [someFieldHoldsCallable, Bool.or_eq_true]
      exact .inl h
    | inr hrest => cases carrier <;> simp [someFieldHoldsCallable, ih hrest]

end ShapeDescr

/-- A test answers as it should, or refuses a callable held as lanes. -/
inductive Answers (stuck : Prop) (answer : Bool) : Except LaneError Bool → Prop where
  | ok : Answers stuck answer (.ok answer)
  | refused (c : CallableDescr ShapeDescr) (h : stuck) :
    Answers stuck answer (.error (.cannotReadLaneForm (.callable c)))

namespace Answers

variable {stuck : Prop} {a b : Bool} {x y : Except LaneError Bool}

theorem mono {stuck' : Prop} (hs : stuck → stuck') : Answers stuck a x → Answers stuck' a x
  | ok => ok
  | refused c h => refused c (hs h)

theorem and (hx : Answers stuck a x) (hy : Answers stuck b y) :
    Answers stuck (a && b) (x >>= fun matched => if matched then y else .ok false) := by
  cases hx with
  | refused c h => exact refused c h
  | ok =>
    cases a with
    | true => exact hy
    | false => exact ok

theorem or (hx : Answers stuck a x) (hy : Answers stuck b y) :
    Answers stuck (a || b) (x >>= fun matched => if matched then .ok true else y) := by
  cases hx with
  | refused c h => exact refused c h
  | ok =>
    cases a with
    | true => exact ok
    | false => exact hy

end Answers

/-! ## Fields -/

theorem length_spansFrom (fields : List (TransportLayout ShapeDescr)) (offset : Nat) :
    (spansFrom offset fields).length = fields.length := by
  induction fields generalizing offset with
  | nil => rfl
  | cons layout rest ih => rw [spansFrom, List.length_cons, List.length_cons, ih]

namespace TypeTest

open RuntimeTypePredicate

variable (T : TypeTest)

/-- What a field of a materialized tuple holds. -/
def FieldReads (shape : ShapeDescr) (lanes : List AnyValue) (span : FieldSpan)
    (field : RuntimeAnyValue) : Prop :=
  ∃ view word, decodeField shape lanes span = .ok view ∧
    T.materializeBackendValue view = .ok word ∧ word.value = .ok field

theorem materialize_tuple_spec {fields : List (TransportLayout ShapeDescr)} {lanes : List AnyValue}
    {v : AnyValue} (h : T.materializeTransportValue (.tuple fields) lanes = .ok v) :
    lanes.length = (ShapeDescr.tuple fields).shapeWidth ∧
      ∃ slots, v = .ref (some (.struct (T.tupleSchema fields.length) slots)) ∧
        List.Forall₂ (T.FieldReads (.tuple fields) lanes) (spansFrom 0 fields) slots := by
  rw [materialize_tuple] at h
  obtain ⟨views, hviews, h⟩ := Except.bind_eq_ok.mp h
  obtain ⟨items, hitems, h⟩ := Except.bind_eq_ok.mp h
  obtain ⟨slots, hslots, h⟩ := Except.bind_eq_ok.mp h
  cases h
  obtain ⟨hwidth, hdecode⟩ := transportFieldViews_tuple.mp hviews
  have hreads := forall₂_comp hdecode
    (forall₂_comp (Except.mapM_eq_ok.mp hitems) (Except.mapM_eq_ok.mp hslots))
  have hlength : items.length = fields.length := by
    rw [← (Except.mapM_eq_ok.mp hitems).length_eq, ← hdecode.length_eq, length_spansFrom]
  refine ⟨hwidth, slots, by rw [hlength], hreads.imp fun span slot hslot => ?_⟩
  obtain ⟨view, hview, word, hword, hvalue⟩ := hslot
  exact ⟨view, word, hview, hword, hvalue⟩

variable {T}

section Positions

variable {stuck : Prop} {R : RuntimeValueReader} {shape : ShapeDescr} {lanes : List AnyValue}
  {spans : List FieldSpan} {slots : List RuntimeAnyValue}
  {Holds : FieldSpan → RuntimeAnyValue → Prop}

/-- A position's question, put to the field a span decodes to, is answered as it is of the slot. -/
def AsksField (T : TypeTest) (stuck : Prop) (R : RuntimeValueReader) (shape : ShapeDescr)
    (lanes : List AnyValue) (Holds : FieldSpan → RuntimeAnyValue → Prop)
    (q : RuntimeTypePredicate) : Prop :=
  ∀ span slot, Holds span slot →
    Answers stuck (q.matchesRuntimeTypePredicate R slot)
      (decodeField shape lanes span >>= T.matchesValue q)

theorem positions_answer {positions : List RuntimeTypePredicate}
    (hq : ∀ q ∈ positions, AsksField T stuck R shape lanes Holds q)
    (h : List.Forall₂ Holds spans slots) (hlength : positions.length = slots.length) :
    Answers stuck (positionsMatch R positions slots)
      (T.positionsMatchLanes positions shape lanes spans) := by
  induction h generalizing positions with
  | nil =>
    obtain rfl := List.eq_nil_of_length_eq_zero hlength
    rw [positionsMatch, positionsMatchLanes]
    exact .ok
  | @cons span slot spans slots hslot _ ih =>
    cases positions with
    | nil => cases hlength
    | cons position positions =>
      rw [positionsMatch, positionsMatchLanes, ← bind_assoc]
      exact (hq position (.head _) span slot hslot).and
        (ih (fun q h => hq q (.tail _ h)) (Nat.succ.inj hlength))

theorem shapes_answer {shapes : List (List RuntimeTypePredicate)}
    (hq : ∀ s ∈ shapes, ∀ q ∈ s, AsksField T stuck R shape lanes Holds q)
    (h : List.Forall₂ Holds spans slots) :
    Answers stuck (someShapeMatches R shapes slots.length slots)
      (T.someShapeMatchesLanes shapes slots.length shape lanes spans) := by
  induction shapes with
  | nil =>
    rw [someShapeMatches, someShapeMatchesLanes]
    exact .ok
  | cons positions shapes ih =>
    have hrest := ih fun s hs => hq s (.tail _ hs)
    rw [someShapeMatches, someShapeMatchesLanes]
    split
    · rename_i hlength
      rw [decide_eq_true hlength, Bool.true_and]
      exact (positions_answer (hq positions (.head _)) h hlength).or hrest
    · rename_i hlength
      rw [decide_eq_false hlength, Bool.false_and, Bool.false_or]
      exact hrest

end Positions

/-- The lane test of a tuple asks what the matcher asks of the tuple the lanes denote. -/
theorem matchesValue_answers {p : RuntimeTypePredicate} (hp : p.Constructed)
    {fields : List (TransportLayout ShapeDescr)} {lanes : List AnyValue} {v : AnyValue}
    (hv : T.materializeTransportValue (.tuple fields) lanes = .ok v) :
    Answers ((ShapeDescr.tuple fields).lanesHoldCallable = true) (T.wholeValueMatches p v)
      (T.matchesValue p (.transport (.tuple fields) lanes)) := by
  induction hp generalizing fields lanes v with
  | @mk p harities hsub ih =>
    have hfinite := (Constructed.mk harities hsub).finite
    have hknows := T.knows_reader p
    obtain ⟨hwidth, slots, rfl, hreads⟩ := T.materialize_tuple_spec hv
    have hlength : slots.length = fields.length := by
      rw [← hreads.length_eq, length_spansFrom]
    have hspans : fieldSpansFor (.tuple fields) lanes = .ok (spansFrom 0 fields) := by
      rw [fieldSpansFor, if_neg (not_not.mpr hwidth)]
      rfl
    rw [show T.wholeValueMatches p (.ref (some (.struct (T.tupleSchema fields.length) slots))) =
      p.matchesRuntimeTypePredicate (T.reader p) (.struct (T.tupleSchema fields.length) slots)
      from rfl, hknows.numbered.matches_tuple hknows.tuples hfinite, matchesValue_eq]
    dsimp only [ShapeDescr.tupleArity]
    cases p.tuplePositions fields.length with
    | never => exact .ok
    | always => exact .ok
    | anyOf =>
      dsimp only
      rw [hspans, ← hlength]
      -- the spans' fields come from the tuple's own
      have hmem : List.Forall₂ (fun span slot => span.layout ∈ fields ∧
          T.FieldReads (.tuple fields) lanes span slot) (spansFrom 0 fields) slots :=
        forall₂_imp_mem hreads fun span hspan _ hslot => ⟨mem_spansFrom hspan, hslot⟩
      refine shapes_answer (fun s hs q hq span slot hslot => ?_) hmem
      have hposition := RuntimeTypePredicate.Sub.position hs hq
      obtain ⟨hlayout, view, word, hview, hword, hvalue⟩ := hslot
      -- the field's own reader answers as the whole test's does
      have hcongr := matches_congr (hsub q hposition) (T.knows_reader q) (hknows.position hs hq)
      have hwhole : q.matchesRuntimeTypePredicate (T.reader p) slot
          = T.wholeValueMatches q word := by
        rw [wholeValueMatches, hvalue]
        exact (hcongr slot).symm
      rw [hview, hwhole]
      show Answers _ _ (T.matchesValue q view)
      cases view with
      | absent => cases hword
      | runtime w =>
        cases hword
        rw [matchesValue_eq]
        exact .ok
      | transport s fieldLanes =>
        obtain ⟨hcarrier, rfl, hs⟩ := decodeField_transport hview
        have hstuck := ShapeDescr.someFieldHoldsCallable_of_mem hlayout hcarrier
        rcases hs with ⟨inner, hs⟩ | ⟨c, hs⟩
        · rw [hs] at hword hstuck ⊢
          exact (ih q hposition hword).mono hstuck
        · rw [hs] at hstuck ⊢
          rw [matchesValue_eq]
          exact .refused c (hstuck rfl)

/-- Where lanes denote a value, the lane test answers what the shared matcher answers on it, except
that it refuses a tuple some field of which, at any depth, is a callable held as lanes. -/
theorem matchesValue_agrees (T : TypeTest) {p : RuntimeTypePredicate} (hp : p.Constructed)
    {fields : List (TransportLayout ShapeDescr)} {lanes : List AnyValue} {v : AnyValue}
    (hv : T.materializeTransportValue (.tuple fields) lanes = .ok v) :
    T.matchesValue p (.transport (.tuple fields) lanes) = .ok (T.wholeValueMatches p v) ∨
      (ShapeDescr.tuple fields).lanesHoldCallable = true ∧
        ∃ c, T.matchesValue p (.transport (.tuple fields) lanes)
          = .error (.cannotReadLaneForm (.callable c)) := by
  generalize hx : T.matchesValue p (.transport (.tuple fields) lanes) = x
  have h := matchesValue_answers hp hv
  rw [hx] at h
  cases h with
  | ok => exact .inl rfl
  | refused c hstuck => exact .inr ⟨hstuck, c, rfl⟩

/-! ## Two runs -/

section Sample

theorem odd_injective : Function.Injective fun n : Nat => 2 * n + 1 := fun a b h => by
  dsimp only at h
  omega

theorem odd_ne_zero (arity : Nat) (_ : List String) : 2 * arity + 1 ≠ 0 := Nat.succ_ne_zero _

/-- A module without atoms or structs; tuples are numbered `2 * arity + 1`. -/
def sample : TypeTest where
  atomNames := []
  structSchemas := []
  callables _ := Option.none
  tupleSchema n := 2 * n + 1
  namedSchema _ := 0
  tupleSchema_inj := odd_injective
  tuple_ne_named := odd_ne_zero

theorem constructed_of_exactly {p : RuntimeTypePredicate}
    {shapes : List (List RuntimeTypePredicate)} (htuples : p.tuples = .exactly shapes)
    (hlists : p.lists.heads = []) (hcallables : p.callables.shapes = [])
    (hshapes : ∀ s ∈ shapes, ∀ q ∈ s, Constructed q) : Constructed p := by
  refine ⟨fun _ => by rw [htuples]; rfl, fun q hq => ?_⟩
  cases hq with
  | head hh => rw [hlists] at hh; exact nomatch hh
  | position hs hh =>
    rw [htuples] at hs
    exact hshapes _ hs q hh
  | capture hs hh => rw [hcallables] at hs; exact nomatch hs

/-- The test for tuples of one shape. -/
def tupleTest (shape : List RuntimeTypePredicate) : RuntimeTypePredicate :=
  { RuntimeTypePredicate.none with tuples := .exactly [shape] }

def intTest : RuntimeTypePredicate := { RuntimeTypePredicate.none with ints := .any }

def callableTest : RuntimeTypePredicate := { RuntimeTypePredicate.none with callables := .any }

theorem constructed_intTest : intTest.Constructed :=
  constructed_of_exactly rfl rfl rfl fun _ h => nomatch h

theorem constructed_callableTest : callableTest.Constructed :=
  constructed_of_exactly rfl rfl rfl fun _ h => nomatch h

theorem constructed_tupleTest {shape : List RuntimeTypePredicate}
    (h : ∀ q ∈ shape, Constructed q) : (tupleTest shape).Constructed :=
  constructed_of_exactly rfl rfl rfl fun _ hs q hq => h q (List.mem_singleton.mp hs ▸ hq)

def wordField : TransportLayout ShapeDescr := ⟨.lane, .absent⟩

theorem materialize_sample_pair : sample.materializeTransportValue
    (.tuple [wordField, ⟨.lane, .valueRef⟩]) [.int 2, .int 3] =
      .ok (.ref (some (.struct 5 [.int 2, .int 3]))) := by
  rw [materialize_tuple]
  rfl

/-- A pair held as the lanes of its fields, one of them a pair held as lanes. -/
theorem matchesValue_agrees_nested :
    sample.matchesValue (tupleTest [intTest, tupleTest [intTest, intTest]])
      (.transport (.tuple [wordField, ⟨.tuple [wordField, ⟨.lane, .valueRef⟩], .absent⟩])
        [.int 1, .int 2, .int 3]) =
      .ok (sample.wholeValueMatches (tupleTest [intTest, tupleTest [intTest, intTest]])
        (.ref (some (.struct 5 [.int 1, .struct 5 [.int 2, .int 3]])))) := by
  have hv : sample.materializeTransportValue
      (.tuple [wordField, ⟨.tuple [wordField, ⟨.lane, .valueRef⟩], .absent⟩])
      [.int 1, .int 2, .int 3] =
        .ok (.ref (some (.struct 5 [.int 1, .struct 5 [.int 2, .int 3]]))) := by
    rw [materialize_tuple]
    refine Except.bind_eq_ok.mpr ⟨[.runtime (.int 1), .transport _ [.int 2, .int 3]], rfl, ?_⟩
    refine Except.bind_eq_ok.mpr ⟨[.int 1, .ref (some (.struct 5 [.int 2, .int 3]))],
      Except.mapM_eq_ok.mpr ?_, rfl⟩
    exact .cons rfl (.cons materialize_sample_pair .nil)
  have hp : (tupleTest [intTest, tupleTest [intTest, intTest]]).Constructed := by
    refine constructed_tupleTest fun q hq => ?_
    rcases List.mem_cons.mp hq with rfl | hq
    · exact constructed_intTest
    · rw [List.mem_singleton.mp hq]
      refine constructed_tupleTest fun q hq => ?_
      have hint : q = intTest := by simpa using hq
      exact hint ▸ constructed_intTest
  rcases matchesValue_agrees sample hp hv with h | ⟨h, -⟩
  · exact h
  · exact nomatch h

/-- A function reference without captures has no lanes.  A value can be built of it, which the
matcher admits; the lane test refuses to read it. -/
theorem matchesValue_refuses_callable :
    ¬∀ (T : TypeTest) (p : RuntimeTypePredicate), p.Constructed →
      ∀ (fields : List (TransportLayout ShapeDescr)) (lanes : List AnyValue) (v : AnyValue),
        T.materializeTransportValue (.tuple fields) lanes = .ok v →
        T.matchesValue p (.transport (.tuple fields) lanes) = .ok (T.wholeValueMatches p v) := by
  intro h
  have hp : (tupleTest [callableTest]).Constructed :=
    constructed_tupleTest fun _ hq => List.mem_singleton.mp hq ▸ constructed_callableTest
  have hv : sample.materializeTransportValue (.tuple [⟨.callable ⟨some 7, 1, []⟩, .absent⟩]) [] =
      .ok (.ref (some (.struct 3 [.closure 7]))) := by
    rw [materialize_tuple]
    refine Except.bind_eq_ok.mpr ⟨[.transport (.callable ⟨some 7, 1, []⟩) []], rfl, ?_⟩
    refine Except.bind_eq_ok.mpr ⟨[.fnRef 7 1 7], Except.mapM_eq_ok.mpr (.cons ?_ .nil), rfl⟩
    rw [materializeBackendValue, materializeTransportValue]
    rfl
  have hanswer := h sample _ hp _ _ _ hv
  have hrefused : sample.matchesValue (tupleTest [callableTest])
      (.transport (.tuple [⟨.callable ⟨some 7, 1, []⟩, .absent⟩]) []) =
        .error (.cannotReadLaneForm (.callable ⟨some 7, 1, []⟩)) := rfl
  rw [hrefused] at hanswer
  cases hanswer

end Sample

end TypeTest

end Fz.Types
