import Fz.Terms.Order
import Mathlib.Algebra.Order.Field.Rat
import Mathlib.Data.Rat.Cast.Order
import Mathlib.Tactic.FieldSimp
import Mathlib.Tactic.Positivity

/-!
# The widening order of terms

Widening comparison is a total preorder on published words, and it places a number at its exact
rational value.  Both facts come from `compare_eq_cmpIn`: the comparator answers with the order
of terms in the mode, which compares trees of keys, so its laws do not depend on the conversions
between integers and floats that the comparator makes on the way.

A float is the dyadic rational of its sign, its significand and its exponent (`F64.toRat`).  A map
compares by its number of entries, then by its keys, strictly in both modes, then by its values.
-/

namespace Fz.Terms

open Std Fz.Base

/-! ## Rational values -/

/-- The dyadic rational a float stands for; subnormals have no implicit leading bit. -/
def F64.toRat (x : F64) : ℚ :=
  (if x.negative then -1 else 1) * (if x.exponent = 0 then x.fraction else 2 ^ 52 + x.fraction) *
    2 ^ ((max x.exponent 1 : ℤ) - 1075)

/-- The exact value of a number. -/
def AnyValue.rational? : AnyValue → Option ℚ
  | .int n => some n.toInt
  | .float x => if x.isFinite then some x.toRat else none
  | _ => none

theorem F64.toRat_eq (x : F64) : x.toRat = x.value / F64.unitsPerOne := by
  have hexp : (max x.exponent 1 : ℤ) - 1075 = (x.exponent - 1 : ℕ) - (unitBits : ℤ) := by
    rw [unitBits]
    omega
  have hpow : (2 : ℚ) ^ ((max x.exponent 1 : ℤ) - 1075) = 2 ^ (x.exponent - 1) / 2 ^ unitBits := by
    rw [hexp, zpow_sub₀ (by norm_num), zpow_natCast, zpow_natCast]
  rw [toRat, hpow, value, units, unitsPerOne]
  generalize unitBits = n
  by_cases hn : x.negative <;> by_cases he : x.exponent = 0 <;>
    simp only [hn, he, Bool.false_eq_true, ↓reduceIte] <;> push_cast <;> ring

theorem cmp_div_units (a b : ℤ) :
    cmp ((a : ℚ) / F64.unitsPerOne) (b / F64.unitsPerOne) = Ord.compare (3 * a) (3 * b) := by
  have hU : (0 : ℚ) < F64.unitsPerOne := by exact_mod_cast F64.unitsPerOne_pos
  have hiff : ∀ c d : ℤ, (c : ℚ) / F64.unitsPerOne < d / F64.unitsPerOne ↔ 3 * c < 3 * d := by
    intro c d
    rw [div_lt_div_iff_of_pos_right hU, Int.cast_lt]
    omega
  rcases Int.lt_trichotomy a b with h | h | h
  · rw [(cmp_eq_lt_iff _ _).mpr ((hiff a b).mpr (by omega)), Int.compare_eq_lt.mpr (by omega)]
  · rw [h, cmp_self_eq_eq, Int.compare_eq_eq.mpr rfl]
  · rw [(cmp_eq_gt_iff _ _).mpr ((hiff b a).mpr (by omega)), Int.compare_eq_gt.mpr (by omega)]

namespace TermComparator

variable {c : TermComparator}

theorem published_of_rational {a : AnyValue} {v : ℚ} (h : a.rational? = some v) :
    ∃ (k : Label) (u : ℤ), c.Published a (.node k []) ∧
      k.keyIn .widening = (0, "", none, (0, 0, []), 3 * u, []) ∧ v = u / F64.unitsPerOne := by
  have hU : (F64.unitsPerOne : ℚ) ≠ 0 := by exact_mod_cast F64.unitsPerOne_pos.ne'
  cases a with
  | int n =>
    obtain rfl := Option.some.inj h
    refine ⟨.int n, n.toInt * F64.unitsPerOne, ⟨1, rfl⟩, rfl, ?_⟩
    push_cast
    rw [mul_div_cancel_right₀ _ hU]
  | float x =>
    simp only [AnyValue.rational?, Option.ite_none_right_eq_some, Option.some.injEq] at h
    obtain ⟨hx, rfl⟩ := h
    exact ⟨.float x, x.value, ⟨1, if_pos hx⟩, rfl, x.toRat_eq⟩
  | _ => exact nomatch h

theorem answers_cmp_rational {a b : AnyValue} {v w : ℚ} (ha : a.rational? = some v)
    (hb : b.rational? = some w) : c.Answers a b .widening (cmp v w) := by
  obtain ⟨k, u, hk, hku, rfl⟩ := published_of_rational (c := c) ha
  obtain ⟨l, w, hl, hlw, rfl⟩ := published_of_rational (c := c) hb
  have h := answers_cmpIn hk hl .widening
  rw [Term.cmpIn_leaf, Label.cmpIn, hku, hlw] at h
  simp only [Label.compare_pair, Label.compare_refl, Ordering.eq_then, Ordering.then_eq] at h
  rwa [cmp_div_units]

/-! ## Maps -/

theorem forall₂_published {n : Nat} : ∀ {xs : List AnyValue} {ts : List Term},
    xs.mapM (c.term? n) = some ts → List.Forall₂ c.Published xs ts
  | [], _, h => by
    obtain rfl := Option.some.inj h
    exact .nil
  | x :: xs, _, h => by
    obtain ⟨t, ts', ht, hts', rfl⟩ := mapM_cons_eq_some h
    exact .cons ⟨n, ht⟩ (forall₂_published hts')

/-- The terms of a published map's keys and of its values. -/
def MapParts (c : TermComparator) (x : Addr) (ks vs : List Term) : Prop :=
  ∃ entries, c.memory x = some (.map false entries) ∧
    List.Forall₂ c.Published (entries.map Prod.fst) ks ∧
    List.Forall₂ c.Published (entries.map Prod.snd) vs

theorem mapParts_of_published {x : Addr} {s : Term} (h : c.Published (.heapRef .map x) s) :
    ∃ ks vs, c.MapParts x ks vs ∧ s = .node (.map ks.length) (ks ++ vs) := by
  obtain ⟨n, hn⟩ := h
  cases n with
  | zero => exact nomatch hn
  | succ n =>
    cases reads_of_term? hn with
    | list hk => exact nomatch hk
    | @map a entries ks vs hmem hks hvs =>
      refine ⟨ks, vs, ⟨entries, hmem, forall₂_published hks, forall₂_published hvs⟩, ?_⟩
      rw [← length_of_mapM hks, List.length_map]
    | binary hk => exact nomatch hk

/-- Widening comparison is a total preorder on published words: it always answers, is reflexive,
answers the opposite on swapped arguments and is transitive.  Words that are strictly equal are
equal in it, two numbers compare as their exact rational values, and the keys of maps compare
strictly in both modes. -/
theorem widening_compare_total_preorder (c : TermComparator) {a b d : AnyValue} {s t u : Term}
    (ha : c.Published a s) (hb : c.Published b t) (hd : c.Published d u) :
    c.Answers a a .widening .eq ∧
    (∃ o, c.Answers a b .widening o ∧ c.Answers b a .widening o.swap) ∧
    (∀ o₁ o₂, c.Answers a b .widening o₁ → c.Answers b d .widening o₂ → o₁.isLE → o₂.isLE →
      ∃ o₃, c.Answers a d .widening o₃ ∧ o₃.isLE) ∧
    (c.Answers a b .strict .eq → c.Answers a b .widening .eq) ∧
    (∀ v w, a.rational? = some v → b.rational? = some w → c.Answers a b .widening (cmp v w)) ∧
    (∀ x y, a = .heapRef .map x → b = .heapRef .map y →
      ∃ ks vs ls ws, c.MapParts x ks vs ∧ c.MapParts y ls ws ∧
        ∀ mode, c.Answers a b mode ((Ord.compare ks.length ls.length).then
          ((Term.cmpListIn .strict ks ls).then (Term.cmpListIn mode vs ws)))) := by
  refine ⟨?_, ⟨Term.cmpIn .widening s t, answers_cmpIn ha hb _, ?_⟩, ?_, ?_, ?_, ?_⟩
  · have h := answers_cmpIn ha ha .widening
    rwa [Term.cmpIn_self] at h
  · rw [← OrientedCmp.eq_swap]
    exact answers_cmpIn hb ha .widening
  · intro o₁ o₂ h₁ h₂ hle₁ hle₂
    obtain rfl := h₁.unique (answers_cmpIn ha hb .widening)
    obtain rfl := h₂.unique (answers_cmpIn hb hd .widening)
    exact ⟨Term.cmpIn .widening s u, answers_cmpIn ha hd .widening, TransCmp.isLE_trans hle₁ hle₂⟩
  · -- strict equality is equality of the terms
    intro h
    obtain rfl : s = t := LawfulEqCmp.eq_of_compare ((answers_cmp ha hb).unique h)
    have h' := answers_cmpIn ha hb .widening
    rwa [Term.cmpIn_self] at h'
  · intro v w hv hw
    exact answers_cmp_rational hv hw
  · rintro x y rfl rfl
    obtain ⟨ks, vs, hx, rfl⟩ := mapParts_of_published ha
    obtain ⟨ls, ws, hy, rfl⟩ := mapParts_of_published hb
    refine ⟨ks, vs, ls, ws, hx, hy, fun mode => ?_⟩
    rw [← Term.cmpIn_map]
    exact answers_cmpIn ha hb mode

/-- `2 ^ 53 + 1` is no float, and stands above the float `2 ^ 53`. -/
theorem widening_above_two_pow_53 :
    let n : AnyValue := .int 9007199254740993
    let x : AnyValue := .float ⟨false, 1076, 0, by decide, by decide⟩
    sample.Answers n n .widening .eq ∧
    (∃ o, sample.Answers n x .widening o ∧ sample.Answers x n .widening o.swap) ∧
    (∀ o₁ o₂, sample.Answers n x .widening o₁ →
      sample.Answers x (.heapRef .struct 80) .widening o₂ → o₁.isLE → o₂.isLE →
      ∃ o₃, sample.Answers n (.heapRef .struct 80) .widening o₃ ∧ o₃.isLE) ∧
    (sample.Answers n x .strict .eq → sample.Answers n x .widening .eq) ∧
    (∀ v w, n.rational? = some v → x.rational? = some w →
      sample.Answers n x .widening (cmp v w)) ∧
    (∀ y z, n = .heapRef .map y → x = .heapRef .map z →
      ∃ ks vs ls ws, sample.MapParts y ks vs ∧ sample.MapParts z ls ws ∧
        ∀ mode, sample.Answers n x mode ((Ord.compare ks.length ls.length).then
          ((Term.cmpListIn .strict ks ls).then (Term.cmpListIn mode vs ws)))) :=
  widening_compare_total_preorder sample ⟨1, rfl⟩ ⟨1, rfl⟩ ⟨3, rfl⟩

end TermComparator

end Fz.Terms
