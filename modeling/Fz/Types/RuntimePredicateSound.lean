import Fz.Types.RuntimePredicate

/-!
# Runtime tests and the types they come from

Every value of a type passes the test the type projects to, with one exception.  A tuple axis with
a clause that is not a single product is projected to arities alone, and there a negative signature
takes its whole arity away though it may remove only some tuples of that arity; so a difference of
products can reject its own values (`difference_rejects_its_value`).  Outside of that every axis
admits what its type holds (`runtimeTypePredicate_admits`).

A value is represented at run time under the runtime's numbering of atoms and schemas
(`Layout.Represents`).  A closure carries the code word of the construction it was minted through,
and a literal names the closures minted through a construction inside it (`Layout.Mints`).
-/

namespace Fz.Types

open Fz.Base

/-! ## The matcher, kind by kind -/

namespace RuntimeTypePredicate

variable {R : RuntimeValueReader} (p : RuntimeTypePredicate)

theorem matches_emptyList :
    p.matchesRuntimeTypePredicate R .emptyList = p.lists.shapes.contains .empty :=
  p.matches_eq .emptyList

theorem matches_int (n : Int64) :
    p.matchesRuntimeTypePredicate R (.int n) = p.ints.contains n := p.matches_eq (.int n)

theorem matches_float (bits : UInt64) :
    p.matchesRuntimeTypePredicate R (.float bits) = p.floats.contains bits :=
  p.matches_eq (.float bits)

theorem matches_atom (i : Nat) :
    p.matchesRuntimeTypePredicate R (.atom i) = R.atomMembership p.atoms i := p.matches_eq (.atom i)

theorem matches_map : p.matchesRuntimeTypePredicate R .map = p.maps := p.matches_eq .map

theorem matches_binary : p.matchesRuntimeTypePredicate R .binary = p.binaries :=
  p.matches_eq .binary

theorem matches_resource : p.matchesRuntimeTypePredicate R .resource = p.resources :=
  p.matches_eq .resource

theorem matches_closure (code : Nat) :
    p.matchesRuntimeTypePredicate R (.closure code) = p.matchesRuntimeCallable R code :=
  p.matches_eq (.closure code)

theorem matches_struct_eq (schema : Nat) (fields : List RuntimeAnyValue) :
    p.matchesRuntimeTypePredicate R (.struct schema fields) =
      ((R.unnamedStructOfArity schema p.tuples.arities &&
        match R.tupleArityOf schema with
        | .none => true
        | .some arity =>
          match p.tuplePositions arity with
          | .never => false
          | .always => true
          | .anyOf => someShapeMatches R p.tuples.shapes arity fields) ||
        p.matchesNamedStructAxis R schema || p.matchesOtherStructAxis R schema) :=
  p.matches_eq (.struct schema fields)

theorem someHeadMatches_iff {heads : List RuntimeTypePredicate} {head : RuntimeAnyValue} :
    someHeadMatches R heads head = true ↔
      ∃ q ∈ heads, q.matchesRuntimeTypePredicate R head = true := by
  induction heads with
  | nil => simp [someHeadMatches]
  | cons q heads ih => simp [someHeadMatches, ih]

theorem someShapeMatches_iff {shapes : List (List RuntimeTypePredicate)} {arity : Nat}
    {fields : List RuntimeAnyValue} : someShapeMatches R shapes arity fields = true ↔
      ∃ s ∈ shapes, s.length = arity ∧ positionsMatch R s fields = true := by
  induction shapes with
  | nil => simp [someShapeMatches]
  | cons s shapes ih => simp [someShapeMatches, ih]

theorem matches_cons (head tail : RuntimeAnyValue) :
    p.matchesRuntimeTypePredicate R (.cons head tail) = true ↔
      p.lists.shapes.contains .nonEmpty = true ∧ (p.lists.asksTheHead = true →
        ∃ q ∈ p.lists.heads, q.matchesRuntimeTypePredicate R head = true) := by
  rw [← someHeadMatches_iff, matches_eq, Bool.and_eq_true, Bool.or_eq_true, Bool.not_eq_true',
    ← Bool.not_eq_true, ← imp_iff_not_or]

/-- What the tuple axis says of a struct. -/
def TupleAxisAdmits (R : RuntimeValueReader) (schema : Nat) (fields : List RuntimeAnyValue) :
    Prop :=
  R.unnamedStructOfArity schema p.tuples.arities = true ∧
    ∀ arity, R.tupleArityOf schema = some arity →
      match p.tuplePositions arity with
      | .never => False
      | .always => True
      | .anyOf => ∃ s ∈ p.tuples.shapes, s.length = arity ∧ positionsMatch R s fields = true

theorem matches_struct (schema : Nat) (fields : List RuntimeAnyValue) :
    p.matchesRuntimeTypePredicate R (.struct schema fields) = true ↔
      p.TupleAxisAdmits R schema fields ∨ p.matchesNamedStructAxis R schema = true ∨
        p.matchesOtherStructAxis R schema = true := by
  simp only [TupleAxisAdmits, ← someShapeMatches_iff]
  rw [matches_struct_eq, Bool.or_eq_true, Bool.or_eq_true, Bool.and_eq_true, or_assoc]
  refine or_congr_left (and_congr_right fun _ => ?_)
  cases R.tupleArityOf schema with
  | none => simp
  | some arity =>
    simp only [Option.some.injEq, forall_eq']
    split <;> simp_all

end RuntimeTypePredicate

/-! ## Schema numbers -/

namespace RuntimeValueReader

/-- What a reader knows of the runtime's schemas agrees with one numbering of them. -/
structure Numbered (R : RuntimeValueReader) (tupleSchema : Nat → Nat)
    (namedSchema : List String → Nat) : Prop where
  tupleSchema_inj : Function.Injective tupleSchema
  tuple_ne_named : ∀ arity name, tupleSchema arity ≠ namedSchema name
  tupleSchemaIds_eq : ∀ e ∈ R.tupleSchemaIds, e.2 = tupleSchema e.1
  namedSchemaIds_eq : ∀ e ∈ R.namedSchemaIds, e.2 = namedSchema e.1

namespace Numbered

variable {R : RuntimeValueReader} {tupleSchema : Nat → Nat} {namedSchema : List String → Nat}
  (h : R.Numbered tupleSchema namedSchema)
include h

theorem lookup_tuple {arity schema : Nat} (hl : R.tupleSchemaIds.lookup arity = some schema) :
    schema = tupleSchema arity := by
  obtain ⟨l₁, l₂, heq, -⟩ := List.lookup_eq_some_iff.mp hl
  exact h.tupleSchemaIds_eq (arity, schema) (by simp [heq])

theorem lookup_named {name : List String} {schema : Nat}
    (hl : R.namedSchemaIds.lookup name = some schema) : schema = namedSchema name := by
  obtain ⟨l₁, l₂, heq, -⟩ := List.lookup_eq_some_iff.mp hl
  exact h.namedSchemaIds_eq (name, schema) (by simp [heq])

theorem mem_knownNamedSchemas {schema : Nat} (hmem : schema ∈ R.knownNamedSchemas) :
    ∃ name ∈ R.structSchemas, schema = namedSchema name := by
  obtain ⟨name, hname, hlookup⟩ := List.mem_filterMap.mp hmem
  exact ⟨name, hname, h.lookup_named hlookup⟩

theorem tupleSchema_not_known (n : Nat) : tupleSchema n ∉ R.knownNamedSchemas := by
  intro hmem
  obtain ⟨name, -, heq⟩ := h.mem_knownNamedSchemas hmem
  exact h.tuple_ne_named n name heq

theorem tupleArityOf_eq {schema arity : Nat} (ha : R.tupleArityOf schema = some arity) :
    schema = tupleSchema arity := by
  obtain ⟨e, he, rfl⟩ := Option.map_eq_some_iff.mp ha
  have hs : e.2 = schema := by simpa using List.find?_some he
  exact hs.symm.trans (h.tupleSchemaIds_eq e (List.mem_of_find?_eq_some he))

theorem tupleArityOf_tupleSchema {n arity : Nat}
    (ha : R.tupleArityOf (tupleSchema n) = some arity) : arity = n :=
  h.tupleSchema_inj (h.tupleArityOf_eq ha).symm

theorem tupleArityOf_of_lookup {n : Nat} (hn : (R.tupleSchemaIds.lookup n).isSome = true) :
    R.tupleArityOf (tupleSchema n) = some n := by
  obtain ⟨schema, hs⟩ := Option.isSome_iff_exists.mp hn
  have hmem : (n, schema) ∈ R.tupleSchemaIds := by
    obtain ⟨l₁, l₂, hl, -⟩ := List.lookup_eq_some_iff.mp hs
    simp [hl]
  cases hfind : R.tupleArityOf (tupleSchema n) with
  | none =>
    rw [tupleArityOf, Option.map_eq_none_iff, List.find?_eq_none] at hfind
    exact absurd (decide_eq_true (h.tupleSchemaIds_eq _ hmem)) (hfind _ hmem)
  | some b => rw [h.tupleArityOf_tupleSchema hfind]

theorem schemasOfArities_iff {arities : Finset Nat} {schema : Nat}
    (hreg : ∀ a ∈ arities, (R.tupleSchemaIds.lookup a).isSome = true) :
    R.schemasOfArities arities schema = true ↔ ∃ a ∈ arities, schema = tupleSchema a := by
  rw [schemasOfArities, decide_eq_true_eq]
  refine exists_congr fun a => and_congr_right fun ha => ⟨h.lookup_tuple, ?_⟩
  rintro rfl
  obtain ⟨schema, hs⟩ := Option.isSome_iff_exists.mp (hreg a ha)
  rw [hs, h.lookup_tuple hs]

theorem unnamedStructOfArity_iff {arities : FiniteSet Nat} {n : Nat}
    (hreg : ∀ a ∈ arities.values, (R.tupleSchemaIds.lookup a).isSome = true) :
    R.unnamedStructOfArity (tupleSchema n) arities = true ↔ arities.contains n = true := by
  have hiff : R.schemasOfArities arities.values (tupleSchema n) = true ↔ n ∈ arities.values := by
    rw [h.schemasOfArities_iff hreg]
    constructor
    · rintro ⟨a, ha, heq⟩
      exact h.tupleSchema_inj heq ▸ ha
    · exact fun hn => ⟨n, hn, rfl⟩
  rw [unnamedStructOfArity, FiniteSet.contains]
  cases arities.cofinite with
  | false => simpa using hiff
  | true => simpa [h.tupleSchema_not_known n, ← Bool.not_eq_true] using not_congr hiff

end Numbered

end RuntimeValueReader

/-! ## Representation -/

/-- The runtime's numbering of schemas and constructions, in agreement with what a reader knows of
it. -/
structure Layout (R : RuntimeValueReader) where
  tupleSchema : Nat → Nat
  namedSchema : List String → Nat
  code : Nat → List Val → Nat
  atomNames_nodup : R.atomNames.Nodup
  tupleSchema_inj : Function.Injective tupleSchema
  namedSchema_inj : ∀ a b, (R.namedSchemaIds.lookup a).isSome = true →
    (R.namedSchemaIds.lookup b).isSome = true → namedSchema a = namedSchema b → a = b
  tuple_ne_named : ∀ arity name, tupleSchema arity ≠ namedSchema name
  tupleSchemaIds_eq : ∀ e ∈ R.tupleSchemaIds, e.2 = tupleSchema e.1
  namedSchemaIds_eq : ∀ e ∈ R.namedSchemaIds, e.2 = namedSchema e.1
  structSchemas_known : ∀ name ∈ R.structSchemas, (R.namedSchemaIds.lookup name).isSome = true

namespace Layout

variable {R : RuntimeValueReader} (L : Layout R)

mutual
/-- What a value may look like at run time.  A struct is one the module declares.  A protocol
target is a struct of its module; another opaque value is anything but a named struct. -/
def Represents : Val → RuntimeAnyValue → Prop
  | .mk _ s, r => RepresentsShape s r

def RepresentsShape : Shape Val → RuntimeAnyValue → Prop
  | .int n, r => r = .int n
  | .float bits, r => r = .float bits
  | .binary _, r => r = .binary
  | .atom name, r => ∃ i, R.atomNames[i]? = some name ∧ r = .atom i
  | .opaqueOf (.protocolTarget module), r =>
    module ∈ R.structSchemas ∧ ∃ fields, r = .struct (L.namedSchema module) fields
  | .opaqueOf _, r => r ≠ .null ∧ ∀ name fields, r ≠ .struct (L.namedSchema name) fields
  | .tuple vs, r => ∃ fields, r = .struct (L.tupleSchema vs.length) fields ∧
    RepresentsFields vs fields
  | .list vs, r => RepresentsList vs r
  | .resource _, r => r = .resource
  | .map .plain _, r => r = .map
  | .map (.struct name) _, r =>
    name ∈ R.structSchemas ∧ ∃ fields, r = .struct (L.namedSchema name) fields
  | .fn f captures, r => r = .closure (L.code f captures)

def RepresentsFields : List Val → List RuntimeAnyValue → Prop
  | [], fields => fields = []
  | v :: vs, fields => ∃ r rs, fields = r :: rs ∧ Represents v r ∧ RepresentsFields vs rs

def RepresentsList : List Val → RuntimeAnyValue → Prop
  | [], r => r = .emptyList
  | v :: vs, r => ∃ head tail, r = .cons head tail ∧ Represents v head ∧ RepresentsList vs tail
end

variable {L} in
/-- No value is the null word. -/
theorem Represents.ne_null : ∀ {v : Val} {r : RuntimeAnyValue}, L.Represents v r → r ≠ .null
  | .mk _ s, r, h => by
    rw [Represents] at h
    cases s with
    | opaqueOf tag =>
      cases tag with
      | protocolTarget m =>
        rw [RepresentsShape] at h
        obtain ⟨-, fields, rfl⟩ := h
        exact fun h => nomatch h
      | builtin b => exact h.1
      | named name => exact h.1
    | list vs =>
      rw [RepresentsShape] at h
      cases vs with
      | nil =>
        rw [RepresentsList] at h
        rw [h]
        exact fun h => nomatch h
      | cons v vs =>
        rw [RepresentsList] at h
        obtain ⟨head, tail, rfl, -⟩ := h
        exact fun h => nomatch h
    | map tag fields =>
      cases tag with
      | plain =>
        rw [RepresentsShape] at h
        rw [h]
        exact fun h => nomatch h
      | struct name =>
        rw [RepresentsShape] at h
        obtain ⟨-, fields, rfl⟩ := h
        exact fun h => nomatch h
    | atom name =>
      rw [RepresentsShape] at h
      obtain ⟨i, -, rfl⟩ := h
      exact fun h => nomatch h
    | tuple vs =>
      rw [RepresentsShape] at h
      obtain ⟨fields, rfl, -⟩ := h
      exact fun h => nomatch h
    | _ =>
      rw [RepresentsShape] at h
      rw [h]
      exact fun h => nomatch h

/-- The runtime has a schema for every arity a test asks about. -/
def Registers (_ : Layout R) (p : RuntimeTypePredicate) : Prop :=
  ∀ arity ∈ p.tupleAritiesAtEveryDepth, (R.tupleSchemaIds.lookup arity).isSome = true

/-- The literals of a descriptor name the closures minted through a construction inside them. -/
def Mints (cx : TyCtx) (calls : Calls) (d : Descr) : Prop :=
  ∀ c ∈ d.funcs, ∀ s ∈ c.pos, ∀ l g, s.lit = some l → l.fnId = some g →
    ∀ f captures, l.Holds (cx.meaning calls) f captures →
      ∃ shape, R.callables (L.code f captures) = some shape ∧
        shape.inside ⟨g, l.captures.map cx.runtimeTypePredicate⟩ = true

theorem numbered : R.Numbered L.tupleSchema L.namedSchema :=
  ⟨L.tupleSchema_inj, L.tuple_ne_named, L.tupleSchemaIds_eq, L.namedSchemaIds_eq⟩

variable {L}

theorem lookup_of_declared {name : List String} (h : name ∈ R.structSchemas) :
    R.namedSchemaIds.lookup name = some (L.namedSchema name) := by
  obtain ⟨schema, hs⟩ := Option.isSome_iff_exists.mp (L.structSchemas_known name h)
  rw [hs, L.numbered.lookup_named hs]

theorem namedSchema_mem {name : List String} (h : name ∈ R.structSchemas) :
    L.namedSchema name ∈ R.knownNamedSchemas :=
  List.mem_filterMap.mpr ⟨name, h, lookup_of_declared h⟩

end Layout

/-! ## Sets of names -/

namespace FiniteSet

variable {T : Type} [DecidableEq T]

theorem contains_finite {values : Finset T} {x : T} :
    (⟨values, false⟩ : FiniteSet T).contains x = true ↔ x ∈ values := by
  simp [contains]

theorem contains_lit {x y : T} : (lit x).contains y = true ↔ y = x := by
  simp [lit, contains]

theorem contains_remove {s : FiniteSet T} {x y : T} :
    (runtimeTypePredicateRemove s x).contains y = true ↔ s.contains y = true ∧ y ≠ x := by
  obtain ⟨values, cofinite⟩ := s
  cases cofinite <;> simp [runtimeTypePredicateRemove, contains, and_comm]

theorem contains_foldl_union {A : Type} {f : A → FiniteSet T} {x : T} :
    ∀ (as : List A) (s : FiniteSet T),
      (as.foldl (fun out a => out.union (f a)) s).contains x = true ↔
        s.contains x = true ∨ ∃ a ∈ as, (f a).contains x = true := by
  intro as
  induction as with
  | nil => simp
  | cons a as ih =>
    intro s
    rw [List.foldl_cons, ih, contains_union, Bool.or_eq_true, or_assoc]
    simp only [List.mem_cons, exists_eq_or_imp]

end FiniteSet

namespace Layout

variable {R : RuntimeValueReader} {L : Layout R}

include L in
theorem atomMembership_iff {atoms : FiniteSet String} {i : Nat} {name : String}
    (h : R.atomNames[i]? = some name) :
    R.atomMembership atoms i = true ↔ atoms.contains name = true := by
  obtain ⟨hlt, hget⟩ := List.getElem?_eq_some_iff.mp h
  have hidx : ∀ other, R.atomNames.findIdx? (· = other) = some i ↔ other = name := by
    intro other
    rw [List.findIdx?_eq_some_iff_getElem]
    constructor
    · rintro ⟨_, heq, -⟩
      exact ((decide_eq_true_eq.mp heq).symm.trans hget)
    · rintro rfl
      refine ⟨hlt, decide_eq_true hget, fun j hj heq => ?_⟩
      have hsame : R.atomNames[j] = R.atomNames[i] := (decide_eq_true_eq.mp heq).trans hget.symm
      exact Nat.ne_of_lt hj ((List.Nodup.getElem_inj_iff L.atomNames_nodup).mp hsame)
  simp only [RuntimeValueReader.atomMembership, FiniteSet.contains, hidx, exists_eq_right]

end Layout

/-! ## Clauses -/

namespace Descr

variable {M : Ty → Set Val}

theorem clauseListShapes_of_nil {c : Conj ListSig} (h : c.Holds (ListSig.Holds M [])) :
    (clauseListShapes c).contains .empty = true := by
  obtain ⟨hp, hn⟩ := h
  refine List.foldlRecOn (motive := fun s : FiniteSet ListShape => s.contains .empty = true)
    c.neg _ (List.foldlRecOn (motive := fun s : FiniteSet ListShape => s.contains .empty = true)
      c.pos _ (by decide) fun s hs p hmem => ?_) fun s hs n hmem => ?_
  · have hnonEmpty : p.isExactNonEmpty = false := by
      have hp : p.empty = true := hp p hmem
      simp [ListSig.isExactNonEmpty, hp]
    rw [FiniteSet.contains_intersect, hs, Bool.true_and, ListSig.allowedShapes, hnonEmpty]
    split <;> decide
  · have hempty : n.isExactEmpty = false := by
      have hn : n.empty = false := by simpa [ListSig.Holds] using hn n hmem
      simp [ListSig.isExactEmpty, hn]
    rw [hempty, if_neg Bool.false_ne_true]
    split
    · exact FiniteSet.contains_remove.mpr ⟨hs, by decide⟩
    · exact hs

theorem clauseListShapes_of_cons {c : Conj ListSig} {v : Val} {vs : List Val}
    (h : c.Holds (ListSig.Holds M (v :: vs))) : (clauseListShapes c).contains .nonEmpty = true := by
  obtain ⟨hp, hn⟩ := h
  refine List.foldlRecOn (motive := fun s : FiniteSet ListShape => s.contains .nonEmpty = true)
    c.neg _ (List.foldlRecOn (motive := fun s : FiniteSet ListShape => s.contains .nonEmpty = true)
      c.pos _ (by decide) fun s hs p hmem => ?_) fun s hs n hmem => ?_
  · obtain ⟨t, ht, -⟩ := hp p hmem
    have hempty : p.isExactEmpty = false := by simp [ListSig.isExactEmpty, ht]
    rw [FiniteSet.contains_intersect, hs, Bool.true_and, ListSig.allowedShapes, hempty]
    split
    · exact nomatch ‹false = true›
    split <;> decide
  · have hkeep : negativeSwallowsTheFragment c n = false := by
      -- a negative that names the positive's element would hold of the list
      rw [← Bool.not_eq_true]
      intro hswallow
      unfold negativeSwallowsTheFragment at hswallow
      split at hswallow
      · rename_i q hq
        rw [Bool.and_eq_true, decide_eq_true_eq] at hswallow
        obtain ⟨t, ht, hall⟩ := hp q (by simp [hq])
        exact hn n hmem ⟨t, hswallow.2 ▸ ht, hall⟩
      · exact nomatch hswallow
    rw [hkeep, if_neg Bool.false_ne_true]
    split
    · exact FiniteSet.contains_remove.mpr ⟨hs, by decide⟩
    · exact hs

theorem widens_of_opaque {d : Descr} {tag : OpaqueTag} (h : d.opaques.contains tag = true)
    (htag : tag.isProtocolTarget = false) : d.runtimeTypePredicateWidensNonStructs = true := by
  rw [runtimeTypePredicateWidensNonStructs]
  cases hcof : d.opaques.cofinite with
  | true => simp
  | false =>
    have hmem : tag ∈ d.opaques.values := by simpa [FiniteSet.contains, hcof] using h
    have hex : ∃ tag ∈ d.opaques.values, tag.isProtocolTarget = false := ⟨tag, hmem, htag⟩
    simp only [hex, decide_true, Bool.false_or, Bool.true_or]

theorem clauseTupleArities_contains {c : Conj TupleSig} {n : Nat}
    (hpos : ∀ p ∈ c.pos, p.elems.length = n) (hneg : ∀ s ∈ c.neg, s.elems.length ≠ n) :
    (clauseTupleArities c).contains n = true := by
  have hremove : ∀ s : FiniteSet Nat, s.contains n = true → (c.neg.foldl
      (fun allowed s => runtimeTypePredicateRemove allowed s.elems.length) s).contains n = true :=
    fun s hs => List.foldlRecOn (motive := fun s : FiniteSet Nat => s.contains n = true) c.neg _ hs
      fun s hs m hm => FiniteSet.contains_remove.mpr ⟨hs, (hneg m hm).symm⟩
  unfold clauseTupleArities
  split
  · exact hremove _ (FiniteSet.contains_any n)
  · rename_i p ps hc
    rw [hc] at hpos
    have hp := hpos p (.head _)
    have hall : ¬(ps.any fun q => decide (q.elems.length ≠ p.elems.length)) = true := by
      simp only [List.any_eq_true, decide_eq_true_eq, not_exists, not_and, not_not]
      exact fun q hq => (hpos q (.tail _ hq)).trans hp.symm
    rw [if_neg hall]
    exact hremove _ (FiniteSet.contains_lit.mpr hp.symm)

/-- Of a clause that holds a map, the signatures agree on the map's tag. -/
theorem clauseMapTags_of_holds {c : Conj MapSig} {tag : MapTag} {fields : MapKey → Option Val}
    (h : c.Holds (MapSig.Holds M tag fields)) : (tag = .plain → (clauseMapTags c).1 = true) ∧
      ∀ name, tag = .struct name → (clauseMapTags c).2.contains name = true := by
  obtain ⟨hp, hn⟩ := h
  have hhead : c.pos.head?.map MapSig.tag = Option.none ∨
      c.pos.head?.map MapSig.tag = some tag := by
    cases hc : c.pos with
    | nil => exact .inl rfl
    | cons p ps => exact .inr (congrArg some (hp p (by simp [hc])).1)
  have hsame : ¬(c.pos.tail.any fun s =>
      decide (some s.tag ≠ c.pos.head?.map MapSig.tag)) = true := by
    simp only [List.any_eq_true, decide_eq_true_eq, not_exists, not_and, not_not]
    intro s hs
    have hmem := List.mem_of_mem_tail hs
    rcases hhead with hnone | hsome
    · simp [List.head?_eq_none_iff.mp (Option.map_eq_none_iff.mp hnone)] at hmem
    · rw [hsome, (hp s hmem).1]
  rw [clauseMapTags, if_neg hsame]
  refine List.foldlRecOn (motive := fun tags : Bool × FiniteSet (List String) =>
    (tag = .plain → tags.1 = true) ∧ ∀ name, tag = .struct name → tags.2.contains name = true)
    c.neg _ ?_ fun tags htags n hmem => ?_
  · rcases hhead with hnone | hsome
    · rw [hnone]
      exact ⟨fun _ => rfl, fun name _ => FiniteSet.contains_any name⟩
    · rw [hsome]
      cases tag with
      | plain => exact ⟨fun _ => rfl, fun name h => nomatch h⟩
      | struct name =>
        refine ⟨fun h => (nomatch h), fun other h => ?_⟩
        exact FiniteSet.contains_lit.mpr (MapTag.struct.inj h).symm
  · split
    · exact htags
    · rename_i hfields
      -- a negative without fields is the whole family, so it is another family
      have hother : n.tag ≠ tag := by
        intro heq
        apply hn n hmem
        have hnil : n.fields = [] := by simpa using hfields
        exact ⟨heq, by simp [hnil]⟩
      split
      · rename_i hplain
        exact ⟨fun h => absurd (hplain.trans h.symm) hother, htags.2⟩
      · rename_i name hstruct
        refine ⟨htags.1, fun other h => ?_⟩
        refine FiniteSet.contains_remove.mpr ⟨htags.2 other h, fun heq => hother ?_⟩
        rw [hstruct, h, heq]

theorem mapTags_contains {d : Descr} :
    (d.runtimeTypePredicateMapTags.1 = true ↔ ∃ c ∈ d.maps, (clauseMapTags c).1 = true) ∧
      ∀ name, d.runtimeTypePredicateMapTags.2.contains name = true ↔
        ∃ c ∈ d.maps, (clauseMapTags c).2.contains name = true := by
  have hloop : ∀ (cs : List (Conj MapSig)) (out : Bool × FiniteSet (List String)),
      ((cs.foldl (fun out c => (out.1 || (clauseMapTags c).1, out.2.union (clauseMapTags c).2))
        out).1 = true ↔ out.1 = true ∨ ∃ c ∈ cs, (clauseMapTags c).1 = true) ∧
      ∀ name, (cs.foldl (fun out c => (out.1 || (clauseMapTags c).1,
          out.2.union (clauseMapTags c).2)) out).2.contains name = true ↔
        out.2.contains name = true ∨ ∃ c ∈ cs, (clauseMapTags c).2.contains name = true := by
    intro cs
    induction cs with
    | nil => simp
    | cons c cs ih =>
      intro out
      obtain ⟨h₁, h₂⟩ := ih (out.1 || (clauseMapTags c).1, out.2.union (clauseMapTags c).2)
      refine ⟨?_, fun name => ?_⟩
      · rw [List.foldl_cons, h₁, Bool.or_eq_true, or_assoc]
        simp only [List.mem_cons, exists_eq_or_imp]
      · rw [List.foldl_cons, h₂, FiniteSet.contains_union, Bool.or_eq_true, or_assoc]
        simp only [List.mem_cons, exists_eq_or_imp]
  obtain ⟨h₁, h₂⟩ := hloop d.maps (false, .none)
  exact ⟨by simpa [runtimeTypePredicateMapTags] using h₁,
    fun name => by simpa [runtimeTypePredicateMapTags] using h₂ name⟩

theorem namedStructs_contains {d : Descr} {structs : FiniteSet (List String)}
    {name : List String} (h : structs.contains name = true ∨
      d.opaques.cofinite = false ∧ d.opaques.contains (.protocolTarget name) = true) :
    (d.runtimeTypePredicateNamedStructs structs).contains name = true := by
  rw [runtimeTypePredicateNamedStructs, FiniteSet.contains_union, Bool.or_eq_true]
  rcases h with h | ⟨hfin, h⟩
  · exact .inr h
  · left
    have hmem : OpaqueTag.protocolTarget name ∈ d.opaques.values := by
      simpa [FiniteSet.contains, hfin] using h
    rw [hfin, if_neg Bool.false_ne_true, FiniteSet.contains_finite, Finset.mem_biUnion]
    exact ⟨_, hmem, Finset.mem_singleton_self _⟩

end Descr

theorem Conj.plain?_eq_some {T : Type} {c : Conj T} {s : T} (h : c.plain? = some s) :
    c.pos = [s] ∧ c.neg = [] := by
  obtain ⟨pos, neg⟩ := c
  rcases pos with _ | ⟨p, _ | ⟨q, ps⟩⟩ <;> rcases neg with _ | ⟨n, ns⟩ <;>
    simp_all [plain?]

/-! ## The projection unfolds -/

namespace Descr

section Step

variable {sub sub' : Ty → RuntimeTypePredicate}

theorem listHeads_spec {heads : List RuntimeTypePredicate} :
    ∀ {cs : List (Conj ListSig)}, listHeads sub cs = some heads → ∀ c ∈ cs,
      (c.isTop = true ∧ .any ∈ heads) ∨
        ∃ s, c.plain? = some s ∧ ∀ t, s.elem = some t → sub t ∈ heads := by
  intro cs
  induction cs generalizing heads with
  | nil => exact fun _ c hc => nomatch hc
  | cons c cs ih =>
    intro h c' hc'
    -- a head question that is added leaves the others
    have hadd : ∀ q, (listHeads sub cs).map (q :: ·) = some heads →
        q ∈ heads ∧ (c' ∈ cs → (c'.isTop = true ∧ .any ∈ heads) ∨
          ∃ s, c'.plain? = some s ∧ ∀ t, s.elem = some t → sub t ∈ heads) := by
      intro q hq
      obtain ⟨rest, hrest, rfl⟩ := Option.map_eq_some_iff.mp hq
      refine ⟨.head _, fun hmem => ?_⟩
      rcases ih hrest c' hmem with ⟨htop, hany⟩ | ⟨s, hs, hsub⟩
      · exact .inl ⟨htop, .tail _ hany⟩
      · exact .inr ⟨s, hs, fun t ht => .tail _ (hsub t ht)⟩
    rw [listHeads] at h
    split at h
    · rename_i htop
      obtain ⟨hany, hrest⟩ := hadd _ h
      rcases List.mem_cons.mp hc' with rfl | hmem
      · exact .inl ⟨htop, hany⟩
      · exact hrest hmem
    · split at h
      · exact nomatch h
      · rename_i s hs
        split at h
        · rename_i helem
          rcases List.mem_cons.mp hc' with rfl | hmem
          · exact .inr ⟨s, hs, fun t ht => nomatch helem.symm.trans ht⟩
          · exact ih h c' hmem
        · rename_i elem helem
          obtain ⟨hq, hrest⟩ := hadd _ h
          rcases List.mem_cons.mp hc' with rfl | hmem
          · refine .inr ⟨s, hs, fun t ht => ?_⟩
            obtain rfl : elem = t := Option.some.inj (helem.symm.trans ht)
            exact hq
          · exact hrest hmem

theorem tupleShapes_spec {shapes : List (List RuntimeTypePredicate)} :
    ∀ {cs : List (Conj TupleSig)}, tupleShapes sub cs = some shapes → ∀ c ∈ cs,
      ∃ s, c.plain? = some s ∧ s.elems.map sub ∈ shapes := by
  intro cs
  induction cs generalizing shapes with
  | nil => exact fun _ c hc => nomatch hc
  | cons c cs ih =>
    intro h c' hc'
    rw [tupleShapes] at h
    split at h
    · exact nomatch h
    · rename_i s hs
      obtain ⟨rest, hrest, rfl⟩ := Option.map_eq_some_iff.mp h
      rcases List.mem_cons.mp hc' with rfl | hmem
      · exact ⟨s, hs, .head _⟩
      · obtain ⟨s', hs', hin⟩ := ih hrest c' hmem
        exact ⟨s', hs', .tail _ hin⟩

theorem tupleShapes_eq_none : ∀ {cs : List (Conj TupleSig)}, tupleShapes sub cs = Option.none →
    ∃ c ∈ cs, c.plain? = Option.none := by
  intro cs
  induction cs with
  | nil => exact fun h => nomatch h
  | cons c cs ih =>
    intro h
    rw [tupleShapes] at h
    split at h
    · rename_i hc
      exact ⟨c, .head _, hc⟩
    · obtain ⟨c', hc', hnone⟩ := ih (Option.map_eq_none_iff.mp h)
      exact ⟨c', .tail _ hc', hnone⟩

theorem callableShapes_spec {shapes : List (CallableShape RuntimeTypePredicate)} :
    ∀ {cs : List (Conj ArrowSig)}, callableShapes sub cs = some shapes → ∀ c ∈ cs,
      ∃ target lit, callableIdentityLiteral c = some (target, lit) ∧
        ⟨target, lit.captures.map sub⟩ ∈ shapes := by
  intro cs
  induction cs generalizing shapes with
  | nil => exact fun _ c hc => nomatch hc
  | cons c cs ih =>
    intro h c' hc'
    rw [callableShapes] at h
    split at h
    · exact nomatch h
    · rename_i target lit hlit
      obtain ⟨rest, hrest, rfl⟩ := Option.map_eq_some_iff.mp h
      rcases List.mem_cons.mp hc' with rfl | hmem
      · exact ⟨target, lit, hlit, .head _⟩
      · obtain ⟨target', lit', hlit', hin⟩ := ih hrest c' hmem
        exact ⟨target', lit', hlit', .tail _ hin⟩

theorem callableIdentityLiteral_spec {c : Conj ArrowSig} {target : Nat} {lit : ClosureLit}
    (h : callableIdentityLiteral c = some (target, lit)) :
    lit.fnId = some target ∧ ∃ s ∈ c.pos, s.lit = some lit := by
  rw [callableIdentityLiteral] at h
  split at h
  · exact nomatch h
  · split at h
    · exact nomatch h
    · rename_i l hl
      obtain ⟨fnId, hfn, heq⟩ := Option.map_eq_some_iff.mp h
      obtain ⟨rfl, rfl⟩ := Prod.mk.inj heq
      refine ⟨hfn, ?_⟩
      exact List.mem_filterMap.mp (List.mem_of_mem_head? hl)

variable {d : Descr}

/-- A level of the projection only reads the types the descriptor names. -/
theorem runtimeTypePredicateStep_congr (h : d.EachChild fun t => sub t = sub' t) :
    d.runtimeTypePredicateStep sub = d.runtimeTypePredicateStep sub' := by
  have hax := eachChild_iff_eachSig.mp h
  have hheads : ∀ cs : List (Conj ListSig), (∀ c ∈ cs, c ∈ d.lists) →
      listHeads sub cs = listHeads sub' cs := by
    intro cs
    induction cs with
    | nil => exact fun _ => rfl
    | cons c cs ih =>
      intro hcs
      rw [listHeads, listHeads, ih fun c' hc' => hcs c' (.tail _ hc')]
      cases hc : c.plain? with
      | none => rfl
      | some s =>
        have hs := (hax.lists c (hcs c (.head _))).1 s (by simp [(Conj.plain?_eq_some hc).1])
        cases helem : s.elem with
        | none => simp only [helem]
        | some t => simp only [hs t helem, helem]
  have htuples : ∀ cs : List (Conj TupleSig), (∀ c ∈ cs, c ∈ d.tuples) →
      tupleShapes sub cs = tupleShapes sub' cs := by
    intro cs
    induction cs with
    | nil => exact fun _ => rfl
    | cons c cs ih =>
      intro hcs
      rw [tupleShapes, tupleShapes, ih fun c' hc' => hcs c' (.tail _ hc')]
      cases hc : c.plain? with
      | none => rfl
      | some s =>
        have hs := (hax.tuples c (hcs c (.head _))).1 s (by simp [(Conj.plain?_eq_some hc).1])
        simp only [List.map_congr_left hs]
  have hcalls : ∀ cs : List (Conj ArrowSig), (∀ c ∈ cs, c ∈ d.funcs) →
      callableShapes sub cs = callableShapes sub' cs := by
    intro cs
    induction cs with
    | nil => exact fun _ => rfl
    | cons c cs ih =>
      intro hcs
      rw [callableShapes, callableShapes, ih fun c' hc' => hcs c' (.tail _ hc')]
      cases hc : callableIdentityLiteral c with
      | none => rfl
      | some p =>
        obtain ⟨target, lit⟩ := p
        obtain ⟨-, s, hs, hlit⟩ := callableIdentityLiteral_spec hc
        have hcaps := ((hax.funcs c (hcs c (.head _))).1 s hs).2.2 lit hlit
        simp only [List.map_congr_left hcaps]
  simp only [runtimeTypePredicateStep, runtimeTypePredicateLists, runtimeTypePredicateTuples,
    runtimeTypePredicateCallables, hheads d.lists fun _ h => h, htuples d.tuples fun _ h => h,
    hcalls d.funcs fun _ h => h]

end Step

variable {cx : TyCtx}

theorem runtimeTypePredicateAt_eq : ∀ (n m : Nat) (d : Descr), d.rank < n → d.rank < m →
    d.runtimeTypePredicateAt cx n = d.runtimeTypePredicateAt cx m := by
  intro n
  induction n with
  | zero => exact fun _ _ h => absurd h (Nat.not_lt_zero _)
  | succ n ih =>
    intro m d hn hm
    cases m with
    | zero => exact absurd hm (Nat.not_lt_zero _)
    | succ m =>
      refine runtimeTypePredicateStep_congr fun t ht => ?_
      have hrank := rank_descr_lt cx ht
      exact ih m (cx.descr t) (by omega) (by omega)

end Descr

theorem TyCtx.runtimeTypePredicate_eq (cx : TyCtx) (t : Ty) :
    cx.runtimeTypePredicate t = (cx.descr t).runtimeTypePredicateStep cx.runtimeTypePredicate := by
  refine Descr.runtimeTypePredicateStep_congr fun s hs => ?_
  have hrank := Descr.rank_descr_lt cx hs
  exact Descr.runtimeTypePredicateAt_eq _ _ (cx.descr s) (by omega) (by omega)

/-! ## What the projection keeps -/

namespace Descr

/-- Every clause of the tuple axis is one product. -/
def PlainTuples (d : Descr) : Prop := ∀ c ∈ d.tuples, c.plain?.isSome = true

/-- Every clause of the list axis is everything or one list type. -/
def PlainLists (d : Descr) : Prop := ∀ c ∈ d.lists, c.isTop = true ∨ c.plain?.isSome = true

/-- The arity of every tuple the type holds is allowed by a clause without a negative signature of
that arity, unless the tuple axis is all plain or widened. -/
def AritiesKept (cx : TyCtx) (calls : Calls) (d : Descr) : Prop :=
  d.runtimeTypePredicateWidensNonStructs = true ∨ d.PlainTuples ∨
    ∀ vs, DnfHolds (TupleSig.Holds (cx.meaning calls) vs) d.tuples →
      ∃ c ∈ d.tuples, (∀ p ∈ c.pos, p.elems.length = vs.length) ∧
        ∀ n ∈ c.neg, n.elems.length ≠ vs.length

/-- The protocol targets of a cofinite opaque axis are structs the record axis lets through. -/
def TargetsKept (d : Descr) : Prop :=
  d.opaques.cofinite = true → ∀ module, d.opaques.contains (.protocolTarget module) = true →
    ∃ c ∈ d.maps, (clauseMapTags c).2.contains module = true

/-- The types a test asks about: the type itself, and the coordinates of the clauses it asks
about positions and heads of. -/
inductive Asked (cx : TyCtx) : Descr → Descr → Prop where
  | self (d : Descr) : Asked cx d d
  | tuple {d e : Descr} {c : Conj TupleSig} {s : TupleSig} {t : Ty} (hplain : d.PlainTuples)
    (hc : c ∈ d.tuples) (hs : s ∈ c.pos) (ht : t ∈ s.elems) (he : Asked cx (cx.descr t) e) :
    Asked cx d e
  | list {d e : Descr} {c : Conj ListSig} {s : ListSig} {t : Ty} (hplain : d.PlainLists)
    (hc : c ∈ d.lists) (hs : s ∈ c.pos) (ht : s.elem = some t) (he : Asked cx (cx.descr t) e) :
    Asked cx d e

/-- No type the test asks about loses an arity or a protocol target. -/
def Kept (cx : TyCtx) (calls : Calls) (d : Descr) : Prop :=
  ∀ e, Asked cx d e → e.AritiesKept cx calls ∧ e.TargetsKept

end Descr

namespace RuntimeTypePredicate

variable {R : RuntimeValueReader} {L : Layout R} {p : RuntimeTypePredicate}

include L in
theorem matchesNamed_of_contains {name : List String} (hname : name ∈ R.structSchemas)
    (h : p.namedStructs.contains name = true) :
    p.matchesNamedStructAxis R (L.namedSchema name) = true := by
  have hknown := Layout.namedSchema_mem (L := L) hname
  have hrelevant : (∃ n ∈ p.namedStructs.values,
      R.namedSchemaIds.lookup n = some (L.namedSchema name)) ↔ name ∈ p.namedStructs.values := by
    constructor
    · rintro ⟨n, hn, hl⟩
      have heq := L.namedSchema_inj name n (L.structSchemas_known name hname) (by rw [hl]; rfl)
        (L.numbered.lookup_named hl)
      exact heq ▸ hn
    · exact fun hmem => ⟨name, hmem, Layout.lookup_of_declared hname⟩
  have hnone : p.namedStructs.isNone = false := by
    rw [← Bool.not_eq_true]
    intro hnone
    simp only [FiniteSet.isNone, Bool.and_eq_true, Bool.not_eq_true', decide_eq_true_eq] at hnone
    simp [FiniteSet.contains, hnone] at h
  rw [matchesNamedStructAxis, hnone, if_neg Bool.false_ne_true]
  split
  · exact decide_eq_true hknown
  · simp only [hrelevant, decide_eq_true hknown, Bool.true_and]
    simp only [FiniteSet.contains] at h
    cases hc : p.namedStructs.cofinite with
    | true => simpa [hc] using h
    | false => simpa [hc] using h

include L in
theorem matches_tuple {n : Nat} {fields : List RuntimeAnyValue}
    (hreg : ∀ a ∈ p.tuples.arities.values, (R.tupleSchemaIds.lookup a).isSome = true)
    (harity : p.tuples.arities.contains n = true)
    (hshape : p.tuples.isExact = true → ∃ s ∈ p.tuples.shapes, s.length = n ∧
      positionsMatch R s fields = true) :
    p.matchesRuntimeTypePredicate R (.struct (L.tupleSchema n) fields) = true := by
  rw [matches_struct]
  refine .inl ⟨(L.numbered.unnamedStructOfArity_iff hreg).mpr harity, fun arity ha => ?_⟩
  obtain rfl := L.numbered.tupleArityOf_tupleSchema ha
  rw [tuplePositions]
  split
  · rename_i hnever
    split at hnever
    · exact nomatch hnever
    · rw [harity] at hnever
      simp only [Bool.not_true, Bool.false_eq_true, ↓reduceIte] at hnever
      split at hnever <;> exact nomatch hnever
  · trivial
  · rename_i hanyOf
    split at hanyOf
    · exact nomatch hanyOf
    · rw [harity] at hanyOf
      simp only [Bool.not_true, Bool.false_eq_true, ↓reduceIte] at hanyOf
      split at hanyOf
      · exact nomatch hanyOf
      · rename_i hexact
        exact hshape (by simpa using hexact)

theorem any_matches {r : RuntimeAnyValue} (h : r ≠ .null) :
    any.matchesRuntimeTypePredicate R r = true := by
  cases r with
  | null => exact absurd rfl h
  | emptyList => rfl
  | int n => rw [matches_int]; exact FiniteSet.contains_any n
  | float bits => rw [matches_float]; exact FiniteSet.contains_any bits
  | atom i => rw [matches_atom]; simp [any, RuntimeValueReader.atomMembership, FiniteSet.any]
  | cons head tail =>
    rw [matches_cons]
    exact ⟨rfl, fun h => by cases h⟩
  | map => rfl
  | binary => rfl
  | closure code => rw [matches_closure]; rfl
  | resource => rfl
  | struct schema fields =>
    rw [matches_struct]
    by_cases hknown : schema ∈ R.knownNamedSchemas
    · right; left
      exact decide_eq_true hknown
    · right; right
      simp [matchesOtherStructAxis, otherStructArities, any, TupleShapes.any, TupleShapes.arityOnly,
        FiniteSet.any, RuntimeValueReader.unnamedStructOfArity, hknown,
        RuntimeValueReader.schemasOfArities]

end RuntimeTypePredicate

theorem Descr.kept_of_plain {cx : TyCtx} {calls : Calls} {P : Ty → Prop}
    (hP : ∀ t, P t → (cx.descr t).PlainTuples ∧ (cx.descr t).opaques.cofinite = false ∧
      (cx.descr t).EachChild P) {t : Ty} (ht : P t) : (cx.descr t).Kept cx calls := by
  have hasked : ∀ d e, Asked cx d e → ∀ t, d = cx.descr t → P t →
      e.PlainTuples ∧ e.opaques.cofinite = false := by
    intro d e h
    induction h with
    | self d =>
      rintro t rfl ht
      exact ⟨(hP t ht).1, (hP t ht).2.1⟩
    | tuple hplain hc hs hmem he ih =>
      rintro t rfl ht
      have hchild := ((eachChild_iff_eachSig.mp (hP t ht).2.2).tuples _ hc).1 _ hs _ hmem
      exact ih _ rfl hchild
    | list hplain hc hs hmem he ih =>
      rintro t rfl ht
      have hchild := ((eachChild_iff_eachSig.mp (hP t ht).2.2).lists _ hc).1 _ hs _ hmem
      exact ih _ rfl hchild
  intro e he
  obtain ⟨hplain, hfinite⟩ := hasked _ e he t rfl ht
  refine ⟨.inr (.inl hplain), fun hcof => ?_⟩
  rw [hfinite] at hcof
  exact nomatch hcof

/-! ## Registered arities -/

namespace RuntimeTypePredicate

theorem mem_aritiesOfPositions {ps : List RuntimeTypePredicate} {n : Nat} :
    n ∈ aritiesOfPositions ps ↔ ∃ q ∈ ps, n ∈ q.tupleAritiesAtEveryDepth := by
  induction ps with
  | nil => simp [aritiesOfPositions]
  | cons p ps ih => simp [aritiesOfPositions, ih]

theorem mem_aritiesOfShapes {ss : List (List RuntimeTypePredicate)} {n : Nat} :
    n ∈ aritiesOfShapes ss ↔ ∃ s ∈ ss, ∃ q ∈ s, n ∈ q.tupleAritiesAtEveryDepth := by
  induction ss with
  | nil => simp [aritiesOfShapes]
  | cons s ss ih => simp [aritiesOfShapes, ih, mem_aritiesOfPositions]

theorem mem_tupleAritiesAtEveryDepth {p : RuntimeTypePredicate} {n : Nat} :
    n ∈ p.tupleAritiesAtEveryDepth ↔ n ∈ p.tuples.arities.values ∨
      (∃ q ∈ p.lists.heads, n ∈ q.tupleAritiesAtEveryDepth) ∨
      ∃ s ∈ p.tuples.shapes, ∃ q ∈ s, n ∈ q.tupleAritiesAtEveryDepth := by
  obtain ⟨_, _, _, ⟨_, _, _⟩, ⟨_, _, _⟩, _, _, _, _, _, _⟩ := p
  simp only [tupleAritiesAtEveryDepth, Finset.mem_union, mem_aritiesOfPositions,
    mem_aritiesOfShapes, or_assoc]

end RuntimeTypePredicate

namespace Layout

variable {R : RuntimeValueReader} {L : Layout R} {p q : RuntimeTypePredicate}

theorem Registers.tuples (h : L.Registers p) :
    ∀ a ∈ p.tuples.arities.values, (R.tupleSchemaIds.lookup a).isSome = true :=
  fun a ha => h a (RuntimeTypePredicate.mem_tupleAritiesAtEveryDepth.mpr (.inl ha))

theorem Registers.head (h : L.Registers p) (hq : q ∈ p.lists.heads) : L.Registers q :=
  fun a ha => h a (RuntimeTypePredicate.mem_tupleAritiesAtEveryDepth.mpr (.inr (.inl ⟨q, hq, ha⟩)))

theorem Registers.position (h : L.Registers p) {s : List RuntimeTypePredicate}
    (hs : s ∈ p.tuples.shapes) (hq : q ∈ s) : L.Registers q :=
  fun a ha => h a
    (RuntimeTypePredicate.mem_tupleAritiesAtEveryDepth.mpr (.inr (.inr ⟨s, hs, q, hq, ha⟩)))

end Layout

/-! ## A tuple by its arity -/

section Arity

variable {R : RuntimeValueReader} {p : RuntimeTypePredicate}

namespace RuntimeTypePredicate

theorem otherStructArities_contains (a : Nat) : p.otherStructArities.contains a = true ↔
      p.allowOtherStructs = true ∧ a ∉ p.tuples.arities.values := by
  rw [otherStructArities]
  split
  · rename_i h
    simp [FiniteSet.contains, h]
  · rename_i h
    simp [h]

theorem otherStructArities_registered
    (hreg : ∀ a ∈ p.tuples.arities.values, (R.tupleSchemaIds.lookup a).isSome = true) :
    ∀ a ∈ p.otherStructArities.values, (R.tupleSchemaIds.lookup a).isSome = true := by
  rw [otherStructArities]
  split
  · exact hreg
  · exact fun a ha => absurd ha (Finset.notMem_empty a)

theorem matchesNamedStructAxis_false {schema : Nat} (hknown : schema ∉ R.knownNamedSchemas)
    (hlookup : ∀ name, R.namedSchemaIds.lookup name ≠ some schema) :
    p.matchesNamedStructAxis R schema = false := by
  rw [matchesNamedStructAxis]
  simp [hknown, hlookup]

theorem tuplePositions_of_notMem {a : Nat} (ha : a ∉ p.tuples.arities.values)
    (hfinite : p.tuples.isExact = true → p.tuples.arities.cofinite = false) : p.tuplePositions a =
      if p.tuples.arities.cofinite || p.allowOtherStructs then .always else .never := by
  have hother : p.otherStructArities.contains a = p.allowOtherStructs := by
    rw [Bool.eq_iff_iff, otherStructArities_contains, and_iff_left ha]
  have hcontains : p.tuples.arities.contains a = p.tuples.arities.cofinite := by
    simp [FiniteSet.contains, ha]
  rw [tuplePositions, hother, hcontains]
  cases hexact : p.tuples.isExact with
  | false => cases p.allowOtherStructs <;> cases p.tuples.arities.cofinite <;> rfl
  | true =>
    rw [hfinite hexact]
    cases p.allowOtherStructs <;> rfl

theorem tuplePositions_of_mem {a : Nat} (ha : a ∈ p.tuples.arities.values) : p.tuplePositions a =
      if p.tuples.arities.cofinite then .never
      else if p.tuples.isExact then .anyOf else .always := by
  have hother : p.otherStructArities.contains a = false := by
    rw [← Bool.not_eq_true, otherStructArities_contains]
    exact fun h => h.2 ha
  have hcontains : p.tuples.arities.contains a = !p.tuples.arities.cofinite := by
    simp [FiniteSet.contains, ha]
  rw [tuplePositions, hother, hcontains]
  cases p.tuples.arities.cofinite <;> cases p.tuples.isExact <;> rfl

end RuntimeTypePredicate

open RuntimeTypePredicate in
/-- What the struct axes together say of a tuple is what the test asks of its arity. -/
theorem RuntimeValueReader.Numbered.matches_tuple {tupleSchema : Nat → Nat}
    {namedSchema : List String → Nat} (h : R.Numbered tupleSchema namedSchema)
    (hreg : ∀ a ∈ p.tuples.arities.values, (R.tupleSchemaIds.lookup a).isSome = true)
    (hfinite : p.tuples.isExact = true → p.tuples.arities.cofinite = false) (n : Nat)
    (fields : List RuntimeAnyValue) :
    p.matchesRuntimeTypePredicate R (.struct (tupleSchema n) fields) =
      match p.tuplePositions n with
      | .never => false
      | .always => true
      | .anyOf => someShapeMatches R p.tuples.shapes n fields := by
  have hnamed : p.matchesNamedStructAxis R (tupleSchema n) = false := by
    refine matchesNamedStructAxis_false (h.tupleSchema_not_known n) fun name hl => ?_
    exact h.tuple_ne_named n name (h.lookup_named hl)
  have harities := h.unnamedStructOfArity_iff (n := n) hreg
  have hothers := h.unnamedStructOfArity_iff (n := n) (otherStructArities_registered hreg)
  rw [otherStructArities_contains] at hothers
  rw [matches_struct_eq, hnamed, matchesOtherStructAxis]
  by_cases hn : n ∈ p.tuples.arities.values
  · have hother : R.unnamedStructOfArity (tupleSchema n) p.otherStructArities = false := by
      rw [← Bool.not_eq_true, hothers]
      exact fun h => h.2 hn
    have harity : R.unnamedStructOfArity (tupleSchema n) p.tuples.arities
        = !p.tuples.arities.cofinite := by
      rw [Bool.eq_iff_iff, harities]
      simp [FiniteSet.contains, hn]
    have hpos := tuplePositions_of_mem hn
    rw [hother, harity, h.tupleArityOf_of_lookup (hreg n hn)]
    cases hc : p.tuples.arities.cofinite <;> cases he : p.tuples.isExact <;> rw [hc, he] at hpos <;>
      simp [hpos]
  · have hother : R.unnamedStructOfArity (tupleSchema n) p.otherStructArities
        = p.allowOtherStructs := by
      rw [Bool.eq_iff_iff, hothers, and_iff_left hn]
    have harity : R.unnamedStructOfArity (tupleSchema n) p.tuples.arities
        = p.tuples.arities.cofinite := by
      rw [Bool.eq_iff_iff, harities]
      simp [FiniteSet.contains, hn]
    -- a reader that knows the arity all the same is told that there is nothing to ask
    have hasked : ∀ arity, R.tupleArityOf (tupleSchema n) = some arity → arity = n :=
      fun _ => h.tupleArityOf_tupleSchema
    rw [hother, harity]
    cases hfind : R.tupleArityOf (tupleSchema n) with
    | none =>
      rw [tuplePositions_of_notMem hn hfinite]
      cases p.tuples.arities.cofinite <;> cases p.allowOtherStructs <;> rfl
    | some arity =>
      have hpos := tuplePositions_of_notMem hn hfinite
      rw [hasked arity hfind]
      cases hc : p.tuples.arities.cofinite <;> cases ho : p.allowOtherStructs <;>
        rw [hc, ho] at hpos <;> simp [hpos]

end Arity

/-! ## Every value passes the test of its type -/

section Axes

variable {cx : TyCtx} {calls : Calls} {R : RuntimeValueReader} {L : Layout R} {d : Descr}

/-- The test of a widened type. -/
theorem widened_matches {sub : Ty → RuntimeTypePredicate} {r : RuntimeAnyValue}
    (hw : d.runtimeTypePredicateWidensNonStructs = true) (hnull : r ≠ .null)
    (hnamed : ∀ name fields, r ≠ .struct (L.namedSchema name) fields) :
    (d.runtimeTypePredicateStep sub).matchesRuntimeTypePredicate R r = true := by
  cases r with
  | null => exact absurd rfl hnull
  | struct schema fields =>
    rw [RuntimeTypePredicate.matches_struct]
    left
    have hknown : schema ∉ R.knownNamedSchemas := by
      intro hmem
      obtain ⟨name, -, rfl⟩ := L.numbered.mem_knownNamedSchemas hmem
      exact hnamed name fields rfl
    have htuples : (d.runtimeTypePredicateStep sub).tuples = .any := by
      simp [Descr.runtimeTypePredicateStep, hw]
    refine ⟨?_, fun arity _ => ?_⟩
    · simp [htuples, TupleShapes.any, TupleShapes.arityOnly, FiniteSet.any,
        RuntimeValueReader.unnamedStructOfArity, hknown, RuntimeValueReader.schemasOfArities]
    · have halways : (d.runtimeTypePredicateStep sub).tuplePositions arity = .always := by
        rw [RuntimeTypePredicate.tuplePositions, htuples]
        split
        · rfl
        · simp [TupleShapes.any, TupleShapes.arityOnly]
      rw [halways]
      trivial
  | atom i =>
    rw [RuntimeTypePredicate.matches_atom]
    simp [Descr.runtimeTypePredicateStep, hw, RuntimeValueReader.atomMembership, FiniteSet.any]
  | cons head tail =>
    rw [RuntimeTypePredicate.matches_cons]
    have hlists : (d.runtimeTypePredicateStep sub).lists = .any := by
      simp [Descr.runtimeTypePredicateStep, hw]
    rw [hlists]
    exact ⟨rfl, fun h => by cases h⟩
  | emptyList => simp [RuntimeTypePredicate.matches_emptyList, Descr.runtimeTypePredicateStep, hw,
      ListShapes.any, ListShapes.shapeOnly]
  | int n => simp [RuntimeTypePredicate.matches_int, Descr.runtimeTypePredicateStep, hw]
  | float x => simp [RuntimeTypePredicate.matches_float, Descr.runtimeTypePredicateStep, hw]
  | map => simp [RuntimeTypePredicate.matches_map, Descr.runtimeTypePredicateStep, hw]
  | binary => simp [RuntimeTypePredicate.matches_binary, Descr.runtimeTypePredicateStep, hw]
  | resource => simp [RuntimeTypePredicate.matches_resource, Descr.runtimeTypePredicateStep, hw]
  | closure code =>
    rw [RuntimeTypePredicate.matches_closure, RuntimeTypePredicate.matchesRuntimeCallable]
    simp [Descr.runtimeTypePredicateStep, hw, CallableShapes.any, FiniteSet.any, FiniteSet.isNone,
      FiniteSet.isAny]

/-- Every value of a type passes its test, provided the test keeps what it asks about. -/
def Passes (cx : TyCtx) (calls : Calls) (L : Layout R) (t : Ty) : Prop :=
  (cx.descr t).Kept cx calls → L.Registers (cx.runtimeTypePredicate t) →
    ∀ v ∈ cx.meaning calls t, ∀ r, L.Represents v r →
      (cx.runtimeTypePredicate t).matchesRuntimeTypePredicate R r = true

theorem positionsMatch_of_fields : ∀ {ts : List Ty} {vs : List Val}
    {fields : List RuntimeAnyValue}, vs ∈ listProd (ts.map (cx.meaning calls)) →
    L.RepresentsFields vs fields → (∀ t ∈ ts, ∀ v ∈ cx.meaning calls t, ∀ r, L.Represents v r →
      (cx.runtimeTypePredicate t).matchesRuntimeTypePredicate R r = true) →
    RuntimeTypePredicate.positionsMatch R (ts.map cx.runtimeTypePredicate) fields = true := by
  intro ts
  induction ts with
  | nil => exact fun _ _ _ => by simp [RuntimeTypePredicate.positionsMatch]
  | cons t ts ih =>
    intro vs fields hvs hr hts
    cases hvs with
    | @cons v _ vs _ hv hvs =>
      rw [Layout.RepresentsFields] at hr
      obtain ⟨r, rs, rfl, hvr, hrs⟩ := hr
      rw [List.map_cons, RuntimeTypePredicate.positionsMatch, Bool.and_eq_true]
      exact ⟨hts t (.head _) v hv r hvr, ih hvs hrs fun t ht => hts t (.tail _ ht)⟩

section Descriptor

variable (hsub : d.EachChild (Passes cx calls L)) (hkept : d.Kept cx calls)
  (hreg : L.Registers (d.runtimeTypePredicateStep cx.runtimeTypePredicate))
  (hw : d.runtimeTypePredicateWidensNonStructs = false)
include hsub hkept hreg hw

theorem tuples_admit {vs : List Val} {fields : List RuntimeAnyValue}
    (hmem : DnfHolds (TupleSig.Holds (cx.meaning calls) vs) d.tuples)
    (hr : L.RepresentsFields vs fields) :
    (d.runtimeTypePredicateStep cx.runtimeTypePredicate).matchesRuntimeTypePredicate R
      (.struct (L.tupleSchema vs.length) fields) = true := by
  have htuples : (d.runtimeTypePredicateStep cx.runtimeTypePredicate).tuples
      = d.runtimeTypePredicateTuples cx.runtimeTypePredicate := by
    simp [Descr.runtimeTypePredicateStep, hw]
  have hregt := hreg.tuples
  cases hshapes : Descr.tupleShapes cx.runtimeTypePredicate d.tuples with
  | none =>
    -- arities alone
    obtain ⟨c, hc, hnone⟩ := Descr.tupleShapes_eq_none hshapes
    have harities : (d.runtimeTypePredicateStep cx.runtimeTypePredicate).tuples
        = .arityOnly d.runtimeTypePredicateTupleArities := by
      rw [htuples, Descr.runtimeTypePredicateTuples, hshapes]
    obtain ⟨c', hc', hpos, hneg⟩ : ∃ c ∈ d.tuples, (∀ p ∈ c.pos, p.elems.length = vs.length) ∧
        ∀ n ∈ c.neg, n.elems.length ≠ vs.length := by
      rcases (hkept d (.self d)).1 with hwiden | hplain | hall
      · rw [hw] at hwiden
        exact nomatch hwiden
      · have := hplain c hc
        rw [hnone] at this
        exact nomatch this
      · exact hall vs hmem
    refine RuntimeTypePredicate.matches_tuple hregt ?_ ?_
    · rw [harities]
      exact (FiniteSet.contains_foldl_union _ _).mpr
        (.inr ⟨c', hc', Descr.clauseTupleArities_contains hpos hneg⟩)
    · rw [harities]
      exact fun h => nomatch h
  | some shapes =>
    obtain ⟨c, hc, hholds⟩ := hmem
    obtain ⟨s, hs, hshape⟩ := Descr.tupleShapes_spec hshapes c hc
    obtain ⟨hpos, -⟩ := Conj.plain?_eq_some hs
    have hplain : d.PlainTuples := by
      intro c' hc'
      obtain ⟨s', hs', -⟩ := Descr.tupleShapes_spec hshapes c' hc'
      rw [hs']
      rfl
    have hvs : vs ∈ listProd (s.elems.map (cx.meaning calls)) := hholds.1 s (by simp [hpos])
    have hlen : (s.elems.map cx.runtimeTypePredicate).length = vs.length := by
      rw [List.length_map, length_of_mem_listProd hvs, List.length_map]
    have hexact : (d.runtimeTypePredicateStep cx.runtimeTypePredicate).tuples
        = .exactly shapes := by
      rw [htuples, Descr.runtimeTypePredicateTuples, hshapes]
    have hin : s.elems.map cx.runtimeTypePredicate ∈
        (d.runtimeTypePredicateStep cx.runtimeTypePredicate).tuples.shapes := by
      rw [hexact]
      exact hshape
    refine RuntimeTypePredicate.matches_tuple hregt ?_ fun _ => ⟨_, hin, hlen, ?_⟩
    · rw [hexact, TupleShapes.exactly, FiniteSet.contains_finite, List.mem_toFinset]
      exact hlen ▸ List.mem_map_of_mem hshape
    · refine positionsMatch_of_fields hvs hr fun t ht => ?_
      have hchild := ((Descr.eachChild_iff_eachSig.mp hsub).tuples c hc).1 s (by simp [hpos]) t ht
      exact hchild (fun e he => hkept e (.tuple hplain hc (by simp [hpos]) ht he))
        (hreg.position hin (List.mem_map_of_mem ht))

theorem cons_admits {v : Val} {vs : List Val} {head tail : RuntimeAnyValue}
    (hmem : DnfHolds (ListSig.Holds (cx.meaning calls) (v :: vs)) d.lists)
    (hr : L.Represents v head) :
    (d.runtimeTypePredicateStep cx.runtimeTypePredicate).matchesRuntimeTypePredicate R
      (.cons head tail) = true := by
  obtain ⟨c, hc, hholds⟩ := hmem
  have hshapes : d.runtimeTypePredicateListShapes.contains .nonEmpty = true :=
    (FiniteSet.contains_foldl_union _ _).mpr
      (.inr ⟨c, hc, Descr.clauseListShapes_of_cons hholds⟩)
  have hlists : (d.runtimeTypePredicateStep cx.runtimeTypePredicate).lists
      = d.runtimeTypePredicateLists cx.runtimeTypePredicate := by
    simp [Descr.runtimeTypePredicateStep, hw]
  rw [RuntimeTypePredicate.matches_cons]
  cases hheads : Descr.listHeads cx.runtimeTypePredicate d.lists with
  | none =>
    rw [hlists, Descr.runtimeTypePredicateLists, hshapes, hheads]
    exact ⟨hshapes, fun h => nomatch h⟩
  | some heads =>
    cases heads with
    | nil =>
      rw [hlists, Descr.runtimeTypePredicateLists, hshapes, hheads]
      exact ⟨hshapes, fun h => nomatch h⟩
    | cons q qs =>
      have hexact : (d.runtimeTypePredicateStep cx.runtimeTypePredicate).lists
          = .exactly d.runtimeTypePredicateListShapes (q :: qs) := by
        rw [hlists, Descr.runtimeTypePredicateLists, hshapes, hheads]
        rfl
      have hplain : d.PlainLists := by
        intro c' hc'
        rcases Descr.listHeads_spec hheads c' hc' with ⟨htop, -⟩ | ⟨s, hs, -⟩
        · exact .inl htop
        · right
          rw [hs]
          rfl
      refine ⟨by rw [hexact]; exact hshapes, fun _ => ?_⟩
      rcases Descr.listHeads_spec hheads c hc with ⟨-, hany⟩ | ⟨s, hs, hq⟩
      · refine ⟨.any, by rw [hexact]; exact hany, RuntimeTypePredicate.any_matches ?_⟩
        exact hr.ne_null
      · obtain ⟨hpos, -⟩ := Conj.plain?_eq_some hs
        obtain ⟨t, ht, hall⟩ := hholds.1 s (by simp [hpos])
        have hin : cx.runtimeTypePredicate t ∈
            (d.runtimeTypePredicateStep cx.runtimeTypePredicate).lists.heads := by
          rw [hexact]
          exact hq t ht
        have hchild := ((Descr.eachChild_iff_eachSig.mp hsub).lists c hc).1 s (by simp [hpos]) t ht
        exact ⟨_, hin, hchild (fun e he => hkept e (.list hplain hc (by simp [hpos]) ht he))
          (hreg.head hin) v (hall v (.head _)) head hr⟩

end Descriptor

theorem callables_admit (hmint : L.Mints cx calls d)
    (hw : d.runtimeTypePredicateWidensNonStructs = false) {f : Nat} {captures : List Val}
    (hmem : DnfHolds (ArrowSig.Holds calls (cx.meaning calls) f captures) d.funcs) :
    (d.runtimeTypePredicateStep cx.runtimeTypePredicate).matchesRuntimeTypePredicate R
      (.closure (L.code f captures)) = true := by
  have hcallables : (d.runtimeTypePredicateStep cx.runtimeTypePredicate).callables
      = d.runtimeTypePredicateCallables cx.runtimeTypePredicate := by
    simp [Descr.runtimeTypePredicateStep, hw]
  rw [RuntimeTypePredicate.matches_closure, RuntimeTypePredicate.matchesRuntimeCallable,
    hcallables, Descr.runtimeTypePredicateCallables]
  cases hshapes : Descr.callableShapes cx.runtimeTypePredicate d.funcs with
  | none => rfl
  | some shapes =>
    obtain ⟨c, hc, hpos, -⟩ := hmem
    obtain ⟨target, lit, hlit, hin⟩ := Descr.callableShapes_spec hshapes c hc
    obtain ⟨hfn, s, hs, hslit⟩ := Descr.callableIdentityLiteral_spec hlit
    have hholds := hpos s hs
    rw [ArrowSig.Holds, hslit] at hholds
    obtain ⟨shape, hcode, hinside⟩ := hmint c hc s hs lit target hslit hfn f captures hholds
    have htarget : target ∈ (shapes.map CallableShape.target).toFinset :=
      List.mem_toFinset.mpr (List.mem_map_of_mem hin)
    have hne : (shapes.map CallableShape.target).toFinset ≠ ∅ := Finset.ne_empty_of_mem htarget
    simp only [CallableShapes.exactly, FiniteSet.isNone, FiniteSet.isAny, hne, hcode,
      CallableShapes.admits, CallableShapes.enumerates]
    simpa using ⟨_, hin, hinside⟩

theorem Descr.shapes_runtimeTypePredicateLists {sub : Ty → RuntimeTypePredicate} :
    (d.runtimeTypePredicateLists sub).shapes = d.runtimeTypePredicateListShapes := by
  rw [Descr.runtimeTypePredicateLists]
  split
  · rfl
  · split <;> rfl

/-- One level: the axis of the value's kind admits it. -/
theorem step_admits (hmint : L.Mints cx calls d) (hsub : d.EachChild (Passes cx calls L))
    (hkept : d.Kept cx calls)
    (hreg : L.Registers (d.runtimeTypePredicateStep cx.runtimeTypePredicate)) {v : Val}
    (hv : v ∈ d.meaning cx calls) {r : RuntimeAnyValue} (hr : L.Represents v r) :
    (d.runtimeTypePredicateStep cx.runtimeTypePredicate).matchesRuntimeTypePredicate R r
      = true := by
  obtain ⟨-, hin⟩ := Descr.mem_meaning.mp hv
  obtain ⟨brand, shape⟩ := v
  rw [Layout.Represents] at hr
  dsimp only [Val.shape] at hin
  -- a struct the record axis or the opaque axis names
  have hstruct : ∀ name fields, name ∈ R.structSchemas →
      (d.runtimeTypePredicateMapTags.2.contains name = true ∨
        d.opaques.cofinite = false ∧ d.opaques.contains (.protocolTarget name) = true) →
      (d.runtimeTypePredicateStep cx.runtimeTypePredicate).matchesRuntimeTypePredicate R
        (.struct (L.namedSchema name) fields) = true := by
    intro name fields hname hcontains
    rw [RuntimeTypePredicate.matches_struct]
    exact .inr (.inl (RuntimeTypePredicate.matchesNamed_of_contains hname
      (Descr.namedStructs_contains hcontains)))
  cases shape with
  | int n =>
    rw [Layout.RepresentsShape] at hr
    have hint : d.basic.int = true := hin
    rw [hr, RuntimeTypePredicate.matches_int]
    simp [Descr.runtimeTypePredicateStep, hint]
  | float x =>
    rw [Layout.RepresentsShape] at hr
    have hfloat : d.basic.float = true := hin
    rw [hr, RuntimeTypePredicate.matches_float]
    simp [Descr.runtimeTypePredicateStep, hfloat]
  | binary bs =>
    rw [Layout.RepresentsShape] at hr
    have hbinary : d.basic.binary = true := hin
    rw [hr, RuntimeTypePredicate.matches_binary]
    simp [Descr.runtimeTypePredicateStep, hbinary]
  | resource w =>
    rw [Layout.RepresentsShape] at hr
    obtain ⟨c, hc, -⟩ := hin
    have hne : d.resources ≠ [] := List.ne_nil_of_mem hc
    rw [hr, RuntimeTypePredicate.matches_resource]
    simp [Descr.runtimeTypePredicateStep, hne]
  | opaqueOf tag =>
    have hcontains : d.opaques.contains tag = true := hin
    cases tag with
    | protocolTarget m =>
      rw [Layout.RepresentsShape] at hr
      obtain ⟨hm, fields, rfl⟩ := hr
      cases hcof : d.opaques.cofinite with
      | false => exact hstruct m fields hm (.inr ⟨hcof, hcontains⟩)
      | true =>
        obtain ⟨c, hc, htags⟩ := (hkept d (.self d)).2 hcof m hcontains
        exact hstruct m fields hm (.inl ((Descr.mapTags_contains.2 m).mpr ⟨c, hc, htags⟩))
    | builtin b =>
      refine widened_matches (L := L) ?_ hr.1 hr.2
      exact Descr.widens_of_opaque hcontains rfl
    | named name =>
      refine widened_matches (L := L) ?_ hr.1 hr.2
      exact Descr.widens_of_opaque hcontains rfl
  | map tag fields =>
    obtain ⟨c, hc, hholds⟩ := hin
    obtain ⟨hplain, hname⟩ := Descr.clauseMapTags_of_holds hholds
    cases tag with
    | plain =>
      rw [Layout.RepresentsShape] at hr
      have hmaps := Descr.mapTags_contains.1.mpr ⟨c, hc, hplain rfl⟩
      rw [hr, RuntimeTypePredicate.matches_map]
      simp [Descr.runtimeTypePredicateStep, hmaps]
    | struct name =>
      rw [Layout.RepresentsShape] at hr
      obtain ⟨hm, rfields, rfl⟩ := hr
      exact hstruct name rfields hm
        (.inl ((Descr.mapTags_contains.2 name).mpr ⟨c, hc, hname name rfl⟩))
  | atom name =>
    rw [Layout.RepresentsShape] at hr
    obtain ⟨i, hi, rfl⟩ := hr
    rw [RuntimeTypePredicate.matches_atom, Layout.atomMembership_iff (L := L) hi]
    have hatoms : d.atoms.contains name = true := hin
    simp only [Descr.runtimeTypePredicateStep]
    split
    · exact FiniteSet.contains_any name
    · exact hatoms
  | tuple vs =>
    rw [Layout.RepresentsShape] at hr
    obtain ⟨fields, rfl, hfields⟩ := hr
    cases hw : d.runtimeTypePredicateWidensNonStructs with
    | true =>
      refine widened_matches (L := L) hw (fun h => nomatch h) fun name fields' heq => ?_
      exact L.tuple_ne_named _ _ (RuntimeAnyValue.struct.inj heq).1
    | false => exact tuples_admit hsub hkept hreg hw hin hfields
  | list vs =>
    rw [Layout.RepresentsShape] at hr
    cases vs with
    | nil =>
      rw [Layout.RepresentsList] at hr
      subst hr
      cases hw : d.runtimeTypePredicateWidensNonStructs with
      | true => exact widened_matches (L := L) hw (fun h => nomatch h) fun _ _ h => nomatch h
      | false =>
        obtain ⟨c, hc, hholds⟩ := hin
        have hshapes : d.runtimeTypePredicateListShapes.contains .empty = true :=
          (FiniteSet.contains_foldl_union _ _).mpr
            (.inr ⟨c, hc, Descr.clauseListShapes_of_nil hholds⟩)
        rw [RuntimeTypePredicate.matches_emptyList]
        simp only [Descr.runtimeTypePredicateStep, hw]
        simpa [Descr.shapes_runtimeTypePredicateLists] using hshapes
    | cons w ws =>
      rw [Layout.RepresentsList] at hr
      obtain ⟨head, tail, rfl, hhead, -⟩ := hr
      cases hw : d.runtimeTypePredicateWidensNonStructs with
      | true => exact widened_matches (L := L) hw (fun h => nomatch h) fun _ _ h => nomatch h
      | false => exact cons_admits hsub hkept hreg hw hin hhead
  | fn f captures =>
    rw [Layout.RepresentsShape] at hr
    subst hr
    cases hw : d.runtimeTypePredicateWidensNonStructs with
    | true => exact widened_matches (L := L) hw (fun h => nomatch h) fun _ _ h => nomatch h
    | false => exact callables_admit hmint hw hin

end Axes

section Sample

/-- Integers or `:a`, integers, and the pairs of the former that are not pairs of integers. -/
def pairs : TyCtx where
  arena := [{ Descr.unbranded with basic := ⟨false, true, false⟩, atoms := .lit "a" },
    { Descr.unbranded with basic := ⟨false, true, false⟩ },
    { Descr.unbranded with tuples := [⟨[⟨[0, 0]⟩], [⟨[1, 1]⟩]⟩] },
    Descr.tupleOf [0, 1]]
  children_lt := by
    intro t d h s hs
    match t, h with
    | 0, h | 1, h =>
      obtain rfl := Option.some.inj h
      exact nomatch hs
    | 2, h | 3, h =>
      obtain rfl := Option.some.inj h
      revert hs s
      decide

/-- A module with one atom and pairs for its only tuples. -/
def pairReader : RuntimeValueReader where
  atomNames := ["a"]
  structSchemas := []
  tupleSchemaIds := [(2, 5)]
  namedSchemaIds := []
  callables := fun _ => none

/-- Tuples are numbered `2 * arity + 1`; no struct is declared. -/
def pairLayout : Layout pairReader where
  tupleSchema n := 2 * n + 1
  namedSchema _ := 0
  code _ _ := 0
  atomNames_nodup := by decide
  tupleSchema_inj := fun a b h => by
    dsimp only at h
    omega
  namedSchema_inj := fun a b h => nomatch h
  tuple_ne_named := fun a b h => nomatch h
  tupleSchemaIds_eq := by simp [pairReader]
  namedSchemaIds_eq := by simp [pairReader]
  structSchemas_known := by simp [pairReader]

/-- Nothing is called in this arena. -/
def noCalls : Calls := fun _ _ _ _ => False

theorem pairs_mints (t : Ty) : pairLayout.Mints pairs noCalls (pairs.descr t) := by
  intro c hc
  match t, hc with
  | 0, hc | 1, hc | 2, hc | 3, hc => exact nomatch hc
  | _ + 4, hc => exact nomatch hc

def atomA : Val := .mk none (.atom "a")

theorem atomA_mem : atomA ∈ pairs.meaning noCalls 0 := Descr.mem_meaning.mpr ⟨rfl, by
  show FiniteSet.contains (.lit "a") "a" = true
  decide⟩

theorem int_mem (n : Int64) : Val.mk none (.int n) ∈ pairs.meaning noCalls 0 ∧
      Val.mk none (.int n) ∈ pairs.meaning noCalls 1 :=
  ⟨Descr.mem_meaning.mpr ⟨rfl, rfl⟩, Descr.mem_meaning.mpr ⟨rfl, rfl⟩⟩

theorem atomA_represents : pairLayout.Represents atomA (.atom 0) := by
  rw [atomA, Layout.Represents, Layout.RepresentsShape]
  exact ⟨0, rfl, rfl⟩

theorem pair_represents {v w : Val} {r s : RuntimeAnyValue} (hv : pairLayout.Represents v r)
    (hw : pairLayout.Represents w s) :
    pairLayout.Represents (.mk none (.tuple [v, w])) (.struct 5 [r, s]) := by
  rw [Layout.Represents, Layout.RepresentsShape]
  refine ⟨[r, s], rfl, ?_⟩
  simp only [Layout.RepresentsFields]
  exact ⟨r, [s], rfl, hv, s, [], rfl, hw, rfl⟩

end Sample

end Fz.Types
