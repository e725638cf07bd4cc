import Mathlib.Order.Compare
import Mathlib.Data.List.Basic

/-!
# Ordered trees

A finite tree whose nodes carry a label and a list of subtrees, compared label first and then
subtree by subtree, a list that is a proper initial part of another coming first.  Whatever total
order the labels have, the trees have: the comparison is oriented and transitive, and it answers
`eq` exactly on equal trees.

Transitivity is proved of `lt` alone.  A comparison that answers `eq` only on equal arguments is
transitive as soon as its `lt` is (`transCmp_of_lt_trans`), and along a recursion `lt` is the only
case left once equal parts have been substituted.
-/

namespace Fz.Base

open Std

/-! ## Comparisons -/

/-- An oriented comparison that separates points is transitive if its `lt` is. -/
theorem transCmp_of_lt_trans {α : Type} {f : α → α → Ordering} [OrientedCmp f] [LawfulEqCmp f]
    (h : ∀ a b c, f a b = .lt → f b c = .lt → f a c = .lt) : TransCmp f where
  isLE_trans {a b c} hab hbc := by
    rw [Ordering.isLE_iff_eq_lt_or_eq_eq] at hab hbc ⊢
    rcases hab with hab | hab
    · rcases hbc with hbc | hbc
      · exact .inl (h a b c hab hbc)
      · exact .inl (LawfulEqCmp.eq_of_compare hbc ▸ hab)
    · rw [LawfulEqCmp.eq_of_compare hab]
      exact hbc

/-- One lexicographic step of transitivity: the first components either decide, or are equal and
leave the decision to the second ones. -/
theorem then_lt_trans {α : Type} {f : α → α → Ordering} [LawfulEqCmp f] {a b c : α}
    {p q r : Ordering} (hf : f a b = .lt → f b c = .lt → f a c = .lt)
    (hpq : p = .lt → q = .lt → r = .lt) (hab : (f a b).then p = .lt) (hbc : (f b c).then q = .lt) :
    (f a c).then r = .lt := by
  rw [Ordering.then_eq_lt] at hab hbc ⊢
  rcases hab with hab | ⟨hab, hp⟩
  · rcases hbc with hbc | ⟨hbc, -⟩
    · exact .inl (hf hab hbc)
    · exact .inl (LawfulEqCmp.eq_of_compare hbc ▸ hab)
  · obtain rfl := LawfulEqCmp.eq_of_compare hab
    rcases hbc with hbc | ⟨hbc, hq⟩
    · exact .inl hbc
    · exact .inr ⟨hbc, hpq hp hq⟩

/-! ## Trees -/

/-- A finite tree with labels in `K`. -/
inductive Rose (K : Type) where
  | node (label : K) (children : List (Rose K))

namespace Rose

variable {K : Type}

mutual
/-- The tree order over a comparison of labels. -/
def cmp (f : K → K → Ordering) : Rose K → Rose K → Ordering
  | .node k ts, .node l us => (f k l).then (cmpList f ts us)

/-- The tree order on lists of trees, an initial part coming first. -/
def cmpList (f : K → K → Ordering) : List (Rose K) → List (Rose K) → Ordering
  | [], [] => .eq
  | [], _ :: _ => .lt
  | _ :: _, [] => .gt
  | t :: ts, u :: us => (cmp f t u).then (cmpList f ts us)
end

section Laws

variable {f : K → K → Ordering}

mutual
theorem eq_of_cmp [LawfulEqCmp f] : ∀ t u : Rose K, cmp f t u = .eq → t = u
  | .node k ts, .node l us, h => by
    rw [cmp, Ordering.then_eq_eq] at h
    rw [LawfulEqCmp.eq_of_compare h.1, eq_of_cmpList ts us h.2]

theorem eq_of_cmpList [LawfulEqCmp f] : ∀ ts us : List (Rose K), cmpList f ts us = .eq → ts = us
  | [], [], _ => rfl
  | [], _ :: _, h => by simp [cmpList] at h
  | _ :: _, [], h => by simp [cmpList] at h
  | t :: ts, u :: us, h => by
    rw [cmpList, Ordering.then_eq_eq] at h
    rw [eq_of_cmp t u h.1, eq_of_cmpList ts us h.2]
end

mutual
theorem cmp_self [ReflCmp f] : ∀ t : Rose K, cmp f t t = .eq
  | .node k ts => by
    rw [cmp, Ordering.then_eq_eq]
    exact ⟨ReflCmp.compare_self, cmpList_self ts⟩

theorem cmpList_self [ReflCmp f] : ∀ ts : List (Rose K), cmpList f ts ts = .eq
  | [] => rfl
  | t :: ts => by
    rw [cmpList, Ordering.then_eq_eq]
    exact ⟨cmp_self t, cmpList_self ts⟩
end

instance [LawfulEqCmp f] : LawfulEqCmp (cmp f) where
  compare_self := cmp_self _
  eq_of_compare := eq_of_cmp _ _

mutual
theorem cmp_swap [OrientedCmp f] : ∀ t u : Rose K, cmp f t u = (cmp f u t).swap
  | .node k ts, .node l us => by
    rw [cmp, cmp, Ordering.swap_then, ← cmpList_swap ts us, ← OrientedCmp.eq_swap]

theorem cmpList_swap [OrientedCmp f] : ∀ ts us : List (Rose K),
    cmpList f ts us = (cmpList f us ts).swap
  | [], [] => rfl
  | [], _ :: _ => rfl
  | _ :: _, [] => rfl
  | t :: ts, u :: us => by
    rw [cmpList, cmpList, Ordering.swap_then, ← cmp_swap t u, ← cmpList_swap ts us]
end

instance [OrientedCmp f] : OrientedCmp (cmp f) where
  eq_swap := cmp_swap _ _

mutual
theorem cmp_lt_trans [TransCmp f] [LawfulEqCmp f] : ∀ t u v : Rose K,
    cmp f t u = .lt → cmp f u v = .lt → cmp f t v = .lt
  | .node k ts, .node l us, .node m vs, htu, huv => by
    rw [cmp] at htu huv ⊢
    exact then_lt_trans TransCmp.lt_trans (cmpList_lt_trans ts us vs) htu huv

theorem cmpList_lt_trans [TransCmp f] [LawfulEqCmp f] : ∀ ts us vs : List (Rose K),
    cmpList f ts us = .lt → cmpList f us vs = .lt → cmpList f ts vs = .lt
  | [], [], _, htu, _ => by simp [cmpList] at htu
  | [], _ :: _, [], _, huv => by simp [cmpList] at huv
  | [], _ :: _, _ :: _, _, _ => rfl
  | _ :: _, [], _, htu, _ => by simp [cmpList] at htu
  | _ :: _, _ :: _, [], _, huv => by simp [cmpList] at huv
  | t :: ts, u :: us, v :: vs, htu, huv => by
    rw [cmpList] at htu huv ⊢
    exact then_lt_trans (cmp_lt_trans t u v) (cmpList_lt_trans ts us vs) htu huv
end

instance [TransCmp f] [LawfulEqCmp f] : TransCmp (cmp f) :=
  transCmp_of_lt_trans cmp_lt_trans

/-- Lists with starts of one length compare start first. -/
theorem cmpList_append (ts us ts' us' : List (Rose K)) (h : ts.length = us.length) :
    cmpList f (ts ++ ts') (us ++ us') = (cmpList f ts us).then (cmpList f ts' us') := by
  induction ts generalizing us with
  | nil =>
    obtain rfl : us = [] := List.eq_nil_of_length_eq_zero h.symm
    rfl
  | cons t ts ih =>
    cases us with
    | nil => simp at h
    | cons u us =>
      simp only [List.length_cons, Nat.add_right_cancel_iff] at h
      simp only [List.cons_append, cmpList]
      rw [ih us h, Ordering.then_assoc]

end Laws

end Rose

end Fz.Base
