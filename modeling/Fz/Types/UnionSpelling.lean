import Mathlib.Algebra.BigOperators.Group.List.Basic
import Fz.Types.Projections

/-!
# How a union is spelled

Union keeps the order of clauses, so two unions of one set of descriptors may be spelled
differently, and the union of a single descriptor may repeat clauses.  It is associative all the
same, and once a descriptor has been joined with itself it stays as it is when that is done again:
the descriptors of this kind form a monoid whose elements are all idempotent (`Spelled`).  So the
union of a list does not change when it takes the place of a member.
-/

namespace Fz.Types

theorem prod_replace {M : Type} [Monoid M] (hidem : ∀ a : M, a * a = a) (l r : List M) (a : M) :
    (l ++ (l ++ a :: r).prod :: r).prod = (l ++ a :: r).prod := by
  simp only [List.prod_append, List.prod_cons]
  calc l.prod * (l.prod * (a * r.prod) * r.prod)
      = l.prod * l.prod * (a * (r.prod * r.prod)) := by simp only [mul_assoc]
    _ = l.prod * (a * r.prod) := by rw [hidem, hidem]

/-! ## Components -/

namespace FiniteSet

variable {N : Type} [DecidableEq N]

theorem eq_of_contains {s t : FiniteSet N} (hcofinite : s.cofinite = t.cofinite)
    (h : ∀ x, s.contains x = t.contains x) : s = t := by
  obtain ⟨vs, c⟩ := s
  obtain ⟨ws, c'⟩ := t
  obtain rfl : c = c' := hcofinite
  have hvalues : vs = ws := by
    ext x
    have hx := h x
    simp only [contains, bne, Bool.not_inj_iff] at hx
    by_cases hv : x ∈ vs <;> by_cases hw : x ∈ ws <;> cases c <;> simp_all
  rw [hvalues]

theorem cofinite_union (s t : FiniteSet N) : (s.union t).cofinite = (s.cofinite || t.cofinite) := by
  obtain ⟨vs, c⟩ := s
  obtain ⟨ws, c'⟩ := t
  cases c <;> cases c' <;> rfl

theorem union_assoc (s t u : FiniteSet N) : (s.union t).union u = s.union (t.union u) :=
  eq_of_contains (by simp only [cofinite_union, Bool.or_assoc])
    fun x => by simp only [contains_union, Bool.or_assoc]

theorem union_self (s : FiniteSet N) : s.union s = s :=
  eq_of_contains (by rw [cofinite_union, Bool.or_self]) fun x => by
    rw [contains_union, Bool.or_self]

end FiniteSet

namespace BasicBits

theorem union_assoc (a b c : BasicBits) : (a.union b).union c = a.union (b.union c) := by
  simp only [union, Bool.or_assoc]

theorem union_self (a : BasicBits) : a.union a = a := by
  simp only [union, Bool.or_self]

end BasicBits

section Clauses

variable {T : Type} [DecidableEq T]

theorem foldl_pushNew_concat (xs : List T) (x : T) (out : List T) :
    (xs ++ [x]).foldl pushNew out = pushNew (xs.foldl pushNew out) x := by
  rw [List.foldl_append]
  rfl

theorem pushNew_of_mem {out : List T} {x : T} (h : x ∈ out) : pushNew out x = out := if_pos h

theorem foldl_pushNew_firsts (out : List T) (xs : List T) :
    (xs.foldl pushNew []).foldl pushNew out = xs.foldl pushNew out := by
  induction xs using List.reverseRecOn with
  | nil => rfl
  | append_singleton xs x ih =>
    rw [foldl_pushNew_concat, foldl_pushNew_concat, ← ih]
    by_cases hx : x ∈ xs.foldl pushNew []
    · rw [pushNew_of_mem hx, pushNew_of_mem (mem_foldl_pushNew.mpr (.inr hx))]
    · rw [pushNew, if_neg hx, foldl_pushNew_concat]

theorem foldl_pushNew_of_subset {xs out : List T} (h : ∀ x ∈ xs, x ∈ out) :
    xs.foldl pushNew out = out := by
  induction xs with
  | nil => rfl
  | cons x xs ih =>
    rw [List.foldl_cons, pushNew_of_mem (h x List.mem_cons_self)]
    exact ih fun y hy => h y (List.mem_cons_of_mem _ hy)

theorem foldl_pushNew_dnfUnion (out : List (Conj T)) (a b : List (Conj T)) :
    (dnfUnion a b).foldl pushNew out = b.foldl pushNew (a.foldl pushNew out) := by
  rw [dnfUnion, ← List.foldl_append, foldl_pushNew_firsts, List.foldl_append]

theorem dnfUnion_assoc (a b c : List (Conj T)) :
    dnfUnion (dnfUnion a b) c = dnfUnion a (dnfUnion b c) := by
  rw [dnfUnion, foldl_pushNew_dnfUnion]
  exact (foldl_pushNew_dnfUnion (a.foldl pushNew []) b c).symm

theorem dnfUnion_twice (a b : List (Conj T)) :
    dnfUnion (dnfUnion a b) (dnfUnion a b) = dnfUnion a b := by
  have hfirst : (dnfUnion a b).foldl pushNew [] = dnfUnion a b := foldl_pushNew_dnfUnion [] a b
  rw [dnfUnion, hfirst]
  exact foldl_pushNew_of_subset fun _ h => h

theorem dnfUnion_respelled (a b : List (Conj T)) :
    dnfUnion (dnfUnion a a) (dnfUnion b b) = dnfUnion a b := by
  have hself : ∀ x : List (Conj T), dnfUnion x x = x.foldl pushNew [] := fun x =>
    foldl_pushNew_of_subset fun y hy => mem_foldl_pushNew.mpr (.inr hy)
  rw [hself, hself]
  simp only [dnfUnion, foldl_pushNew_firsts]

end Clauses

/-! ## Descriptors -/

namespace Descr

theorem union_of_inhabited {a b : Descr} (ha : a.looksEmpty = false) (hb : b.looksEmpty = false) :
    a.union b =
      { basic := a.basic.union b.basic
        atoms := a.atoms.union b.atoms
        opaques := a.opaques.union b.opaques
        brands := a.brands.union b.brands
        vars := a.vars.union b.vars
        tuples := dnfUnion a.tuples b.tuples
        lists := dnfUnion a.lists b.lists
        resources := dnfUnion a.resources b.resources
        funcs := dnfUnion a.funcs b.funcs
        maps := dnfUnion a.maps b.maps } := by
  rw [union, if_neg (by simp [ha]), if_neg (by simp [hb])]

theorem looksEmpty_none : none.looksEmpty = true := rfl

theorem union_eq_of_looksEmpty {a : Descr} (ha : a.looksEmpty = true) (b : Descr) :
    a.union b = none.union b := by
  rw [union_of_looksEmpty_left ha, union_of_looksEmpty_left looksEmpty_none]

theorem none_union_of_inhabited {b : Descr} (hb : b.looksEmpty = false) : none.union b = b := by
  rw [union_of_looksEmpty_left looksEmpty_none, hb]
  rfl

theorem none_union_of_looksEmpty {b : Descr} (hb : b.looksEmpty = true) : none.union b = none := by
  rw [union_of_looksEmpty_left looksEmpty_none, if_pos hb]

theorem looksEmpty_union_eq (a b : Descr) :
    (a.union b).looksEmpty = (a.looksEmpty && b.looksEmpty) := by
  cases ha : a.looksEmpty with
  | true =>
    rw [union_eq_of_looksEmpty ha, Bool.true_and]
    cases hb : b.looksEmpty with
    | true => rw [none_union_of_looksEmpty hb, looksEmpty_none]
    | false => rw [none_union_of_inhabited hb, hb]
  | false =>
    cases hb : b.looksEmpty with
    | true => rw [union_of_looksEmpty_right ha hb, ha, Bool.false_and]
    | false => rw [looksEmpty_union ha hb, Bool.false_and]

theorem union_assoc (a b c : Descr) : (a.union b).union c = a.union (b.union c) := by
  cases ha : a.looksEmpty with
  | true =>
    rw [union_eq_of_looksEmpty ha, union_eq_of_looksEmpty ha]
    cases hb : b.looksEmpty with
    | true =>
      rw [none_union_of_looksEmpty hb, union_eq_of_looksEmpty hb]
      cases hc : c.looksEmpty with
      | true => rw [none_union_of_looksEmpty hc, none_union_of_looksEmpty looksEmpty_none]
      | false => rw [none_union_of_inhabited hc, none_union_of_inhabited hc]
    | false =>
      rw [none_union_of_inhabited hb, none_union_of_inhabited]
      rw [looksEmpty_union_eq, hb, Bool.false_and]
  | false =>
    cases hb : b.looksEmpty with
    | true =>
      rw [union_of_looksEmpty_right ha hb, union_eq_of_looksEmpty hb]
      cases hc : c.looksEmpty with
      | true =>
        rw [none_union_of_looksEmpty hc, union_of_looksEmpty_right ha hc,
          union_of_looksEmpty_right ha looksEmpty_none]
      | false => rw [none_union_of_inhabited hc]
    | false =>
      cases hc : c.looksEmpty with
      | true =>
        rw [union_of_looksEmpty_right (looksEmpty_union ha hb) hc, union_of_looksEmpty_right hb hc]
      | false =>
        rw [union_of_inhabited (looksEmpty_union ha hb) hc,
          union_of_inhabited ha (looksEmpty_union hb hc), union_of_inhabited ha hb,
          union_of_inhabited hb hc]
        simp only [BasicBits.union_assoc, FiniteSet.union_assoc, dnfUnion_assoc]

theorem union_twice {a b : Descr} (ha : a.looksEmpty = false) (hb : b.looksEmpty = false) :
    (a.union b).union (a.union b) = a.union b := by
  rw [union_of_inhabited (looksEmpty_union ha hb) (looksEmpty_union ha hb),
    union_of_inhabited ha hb]
  simp only [BasicBits.union_self, FiniteSet.union_self, dnfUnion_twice]

theorem union_respelled (a b : Descr) :
    (a.union b).union (a.union b) = (a.union a).union (b.union b) := by
  cases ha : a.looksEmpty with
  | true =>
    rw [union_eq_of_looksEmpty ha, union_eq_of_looksEmpty ha, none_union_of_looksEmpty ha]
    cases hb : b.looksEmpty with
    | true =>
      rw [none_union_of_looksEmpty hb, union_eq_of_looksEmpty hb, none_union_of_looksEmpty hb]
    | false =>
      rw [none_union_of_inhabited hb, none_union_of_inhabited (looksEmpty_union hb hb)]
  | false =>
    cases hb : b.looksEmpty with
    | true =>
      rw [union_of_looksEmpty_right ha hb, union_eq_of_looksEmpty hb, none_union_of_looksEmpty hb,
        union_of_looksEmpty_right (looksEmpty_union ha ha) looksEmpty_none]
    | false =>
      rw [union_twice ha hb, union_of_inhabited (looksEmpty_union ha ha) (looksEmpty_union hb hb),
        union_of_inhabited ha ha, union_of_inhabited hb hb, union_of_inhabited ha hb]
      simp only [BasicBits.union_self, FiniteSet.union_self, dnfUnion_respelled]

end Descr

/-! ## Spelled descriptors -/

/-- A descriptor that joining with itself leaves as it is. -/
structure Spelled where
  descr : Descr
  normal : descr.union descr = descr

namespace Spelled

theorem ext {a b : Spelled} (h : a.descr = b.descr) : a = b := by
  cases a
  cases b
  cases h
  rfl

def of (d : Descr) : Spelled where
  descr := d.union d
  normal := by
    cases hd : d.looksEmpty with
    | true =>
      rw [Descr.union_eq_of_looksEmpty hd, Descr.none_union_of_looksEmpty hd]
      rfl
    | false => exact Descr.union_twice hd hd

theorem eq_none_of_looksEmpty (a : Spelled) (h : a.descr.looksEmpty = true) :
    a.descr = Descr.none := by
  rw [← a.normal, Descr.union_eq_of_looksEmpty h, Descr.none_union_of_looksEmpty h]

instance : Monoid Spelled where
  mul a b := ⟨a.descr.union b.descr, by rw [Descr.union_respelled, a.normal, b.normal]⟩
  one := ⟨Descr.none, rfl⟩
  mul_assoc a b c := ext (Descr.union_assoc a.descr b.descr c.descr)
  one_mul a := ext (by
    show Descr.none.union a.descr = a.descr
    cases ha : a.descr.looksEmpty with
    | true => rw [Descr.none_union_of_looksEmpty ha, a.eq_none_of_looksEmpty ha]
    | false => exact Descr.none_union_of_inhabited ha)
  mul_one a := ext (by
    show a.descr.union Descr.none = a.descr
    cases ha : a.descr.looksEmpty with
    | true =>
      rw [a.eq_none_of_looksEmpty ha]
      rfl
    | false => exact Descr.union_of_looksEmpty_right ha Descr.looksEmpty_none)

theorem mul_self (a : Spelled) : a * a = a := ext a.normal

theorem of_union (a b : Descr) : of (a.union b) = of a * of b := ext (Descr.union_respelled a b)

end Spelled

/-! ## Unions of lists -/

/-- The union of a list of descriptors. -/
def unionOf (ds : List Descr) : Descr := ds.foldl Descr.union Descr.none

theorem unionOf_concat (ds : List Descr) (d : Descr) :
    unionOf (ds ++ [d]) = (unionOf ds).union d := by
  rw [unionOf, List.foldl_append]
  rfl

theorem of_unionOf (ds : List Descr) : Spelled.of (unionOf ds) = (ds.map Spelled.of).prod := by
  induction ds using List.reverseRecOn with
  | nil => rfl
  | append_singleton ds d ih =>
    rw [unionOf_concat, Spelled.of_union, ih, List.map_append, List.prod_append, List.map_singleton,
      List.prod_singleton]

theorem of_unionOf_replace (ds es : List Descr) (d : Descr) :
    Spelled.of (unionOf (ds ++ unionOf (ds ++ d :: es) :: es)) =
      Spelled.of (unionOf (ds ++ d :: es)) := by
  simp only [of_unionOf, List.map_append, List.map_cons]
  exact prod_replace Spelled.mul_self _ _ _

theorem looksEmpty_unionOf (ds : List Descr) :
    (unionOf ds).looksEmpty = ds.all Descr.looksEmpty := by
  induction ds using List.reverseRecOn with
  | nil => rfl
  | append_singleton ds d ih =>
    rw [unionOf_concat, Descr.looksEmpty_union_eq, ih, List.all_append, List.all_cons, List.all_nil,
      Bool.and_true]

theorem unionOf_cases (ds : List Descr) : (unionOf ds).union (unionOf ds) = unionOf ds ∨
      (unionOf ds).looksEmpty = false ∧ ∀ d ∈ ds, d.looksEmpty = false → d = unionOf ds := by
  induction ds using List.reverseRecOn with
  | nil => exact .inl rfl
  | append_singleton ds d ih =>
    rw [unionOf_concat]
    cases hu : (unionOf ds).looksEmpty with
    | true =>
      rw [Descr.union_eq_of_looksEmpty hu]
      cases hd : d.looksEmpty with
      | true =>
        rw [Descr.none_union_of_looksEmpty hd]
        exact .inl rfl
      | false =>
        rw [Descr.none_union_of_inhabited hd]
        refine .inr ⟨hd, fun e he hne => ?_⟩
        rw [looksEmpty_unionOf, List.all_eq_true] at hu
        rcases List.mem_append.mp he with he | he
        · rw [hu e he] at hne
          exact nomatch hne
        · exact List.mem_singleton.mp he
    | false =>
      cases hd : d.looksEmpty with
      | true =>
        rw [Descr.union_of_looksEmpty_right hu hd]
        refine ih.imp_right fun ⟨_, hall⟩ => ⟨hu, fun e he hne => ?_⟩
        rcases List.mem_append.mp he with he | he
        · exact hall e he hne
        · rw [List.mem_singleton.mp he, hd] at hne
          exact nomatch hne
      | false => exact .inl (Descr.union_twice hu hd)

end Fz.Types
