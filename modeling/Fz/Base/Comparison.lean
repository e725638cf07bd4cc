import Mathlib.Order.Compare
import Mathlib.Data.List.Basic

/-!
# Comparisons

How transitive comparisons compose: pulled back along a function, one after another, over two
disjoint kinds, and over lists.  A list can end before or after it goes on, that is, a proper start
of a list can come first or last.
-/

namespace Fz.Base

open Std

variable {α β : Type}

theorem transCmp_on {cmp : β → β → Ordering} (h : TransCmp cmp) (f : α → β) :
    TransCmp fun a b => cmp (f a) (f b) where
  eq_swap := h.eq_swap
  isLE_trans := h.isLE_trans

theorem transCmp_then {cmp cmp' : α → α → Ordering} (h : TransCmp cmp) (h' : TransCmp cmp') :
    TransCmp fun a b => (cmp a b).then (cmp' a b) :=
  inferInstanceAs (TransCmp (compareLex cmp cmp'))

/-! ## Two kinds -/

/-- Everything of the first kind comes before everything of the second. -/
def cmpSum (cmp : α → α → Ordering) (cmp' : β → β → Ordering) : α ⊕ β → α ⊕ β → Ordering
  | .inl a, .inl b => cmp a b
  | .inl _, .inr _ => .lt
  | .inr _, .inl _ => .gt
  | .inr a, .inr b => cmp' a b

instance transCmp_sum {cmp : α → α → Ordering} {cmp' : β → β → Ordering} [hcmp : TransCmp cmp]
    [hcmp' : TransCmp cmp'] : TransCmp (cmpSum cmp cmp') where
  eq_swap {a b} := by
    cases a with
    | inl a =>
      cases b with
      | inl b => exact hcmp.eq_swap
      | inr b => rfl
    | inr a =>
      cases b with
      | inl b => rfl
      | inr b => exact hcmp'.eq_swap
  isLE_trans {a b c} hab hbc := by
    cases a with
    | inl a =>
      cases c with
      | inr c => rfl
      | inl c =>
        cases b with
        | inl b => exact hcmp.isLE_trans hab hbc
        | inr b => cases hbc
    | inr a =>
      cases b with
      | inl b => cases hab
      | inr b =>
        cases c with
        | inl c => cases hbc
        | inr c => exact hcmp'.isLE_trans hab hbc

/-! ## Lists that end last -/

/-- Element by element, and a list that goes on comes before one that ends. -/
def cmpEndsLast (cmp : α → α → Ordering) : List α → List α → Ordering
  | [], [] => .eq
  | [], _ :: _ => .gt
  | _ :: _, [] => .lt
  | x :: xs, y :: ys => (cmp x y).then (cmpEndsLast cmp xs ys)

theorem cmpEndsLast_eq (cmp : α → α → Ordering) (xs ys : List α) :
    cmpEndsLast cmp xs ys = List.compareLex (cmpSum cmp fun _ _ : Unit => .eq)
      (xs.map .inl ++ [.inr ()]) (ys.map .inl ++ [.inr ()]) := by
  induction xs generalizing ys with
  | nil =>
    cases ys with
    | nil => rfl
    | cons y ys => rfl
  | cons x xs ih =>
    cases ys with
    | nil => rfl
    | cons y ys =>
      rw [cmpEndsLast, ih, List.map_cons, List.map_cons, List.cons_append, List.cons_append,
        List.compareLex_cons_cons]
      rfl

instance transCmp_endsLast {cmp : α → α → Ordering} [TransCmp cmp] :
    TransCmp (cmpEndsLast cmp) := by
  have hunit : TransCmp fun _ _ : Unit => Ordering.eq :=
    { eq_swap := rfl, isLE_trans := fun _ _ => rfl }
  have hlex : TransCmp (List.compareLex (cmpSum cmp fun _ _ : Unit => .eq)) := inferInstance
  have h := transCmp_on hlex fun xs : List α => xs.map .inl ++ [.inr ()]
  simp only [← cmpEndsLast_eq] at h
  exact h

end Fz.Base
