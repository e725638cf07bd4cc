import Mathlib.Order.Compare
import Mathlib.Data.List.Basic
import Mathlib.Data.Nat.Bitwise

/-!
# Lexicographic comparison of bit strings

`List.compareLex` cut at a common length, after starts of equal length, and over the big-endian
bits of numbers: comparing two numbers of `k` bits is comparing their bits from the top.
-/

namespace Fz.Base

open Std

section Lex

variable {α : Type} {f : α → α → Ordering}

theorem compareLex_append (xs ys xs' ys' : List α) (h : xs.length = ys.length) :
    List.compareLex f (xs ++ xs') (ys ++ ys')
      = (List.compareLex f xs ys).then (List.compareLex f xs' ys') := by
  induction xs generalizing ys with
  | nil =>
    obtain rfl : ys = [] := List.eq_nil_of_length_eq_zero h.symm
    rfl
  | cons x xs ih =>
    cases ys with
    | nil => simp at h
    | cons y ys =>
      simp only [List.length_cons, Nat.add_right_cancel_iff] at h
      simp only [List.cons_append, List.compareLex_cons_cons]
      rw [ih ys h, Ordering.then_assoc]

/-- The lexicographic order looks at the common length first, and at the lengths last. -/
theorem compareLex_take_min (xs ys : List α) : List.compareLex f xs ys
      = (List.compareLex f (xs.take (min xs.length ys.length))
          (ys.take (min xs.length ys.length))).then (compare xs.length ys.length) := by
  induction xs generalizing ys with
  | nil =>
    cases ys with
    | nil => rfl
    | cons y ys =>
      simp only [List.length_nil, Nat.zero_min, List.take_zero, List.compareLex_nil_nil,
        List.compareLex_nil_cons, List.length_cons, Ordering.eq_then]
      exact (Nat.compare_eq_lt.mpr (Nat.succ_pos _)).symm
  | cons x xs ih =>
    cases ys with
    | nil =>
      simp only [List.length_nil, Nat.min_zero, List.take_zero, List.compareLex_nil_nil,
        List.compareLex_cons_nil, List.length_cons, Ordering.eq_then]
      exact (Nat.compare_eq_gt.mpr (Nat.succ_pos _)).symm
    | cons y ys =>
      have hlen : compare (x :: xs).length (y :: ys).length = compare xs.length ys.length := by
        simp only [List.length_cons, Nat.compare_eq_ite_lt, Nat.add_lt_add_iff_right]
      have hmin : min (x :: xs).length (y :: ys).length = min xs.length ys.length + 1 := by
        simp only [List.length_cons, Nat.add_min_add_right]
      rw [hlen, hmin, List.take_succ_cons, List.take_succ_cons, List.compareLex_cons_cons,
        List.compareLex_cons_cons, ih ys, Ordering.then_assoc]

end Lex

/-- The lowest `k` bits of a number, highest first. -/
def bitsOf : Nat → Nat → List Bool
  | 0, _ => []
  | k + 1, n => n.testBit k :: bitsOf k n

@[simp] theorem length_bitsOf (k n : Nat) : (bitsOf k n).length = k := by
  induction k with
  | zero => rfl
  | succ k ih => simp only [bitsOf, List.length_cons, ih]

theorem bitsOf_mod (k n : Nat) : ∀ j, j ≤ k → bitsOf j (n % 2 ^ k) = bitsOf j n := by
  intro j
  induction j with
  | zero => exact fun _ => rfl
  | succ j ih =>
    intro hj
    simp only [bitsOf, Nat.testBit_mod_two_pow, ih (by omega)]
    simp [Nat.lt_of_succ_le hj]

theorem testBit_top {k n : Nat} (hn : n < 2 ^ (k + 1)) :
    n.testBit k = true ∧ n = 2 ^ k + n % 2 ^ k ∨ n.testBit k = false ∧ n = n % 2 ^ k := by
  rw [Nat.pow_succ] at hn
  rcases Nat.lt_or_ge n (2 ^ k) with h | h
  · exact .inr ⟨Nat.testBit_lt_two_pow h, (Nat.mod_eq_of_lt h).symm⟩
  · have hsub : n - 2 ^ k < 2 ^ k := by omega
    have hn' : n = 2 ^ k + (n - 2 ^ k) := by omega
    refine .inl ⟨?_, ?_⟩
    · rw [hn', Nat.testBit_two_pow_add_eq, Nat.testBit_lt_two_pow hsub]
      rfl
    · rw [Nat.mod_eq_sub_mod h, Nat.mod_eq_of_lt hsub]
      exact hn'

/-- Numbers of `k` bits compare as their bits do, from the top. -/
theorem compare_bitsOf (k : Nat) : ∀ n m : Nat, n < 2 ^ k → m < 2 ^ k →
    compare n m = List.compareLex compare (bitsOf k n) (bitsOf k m) := by
  induction k with
  | zero =>
    intro n m hn hm
    obtain rfl : n = 0 := by omega
    obtain rfl : m = 0 := by omega
    rfl
  | succ k ih =>
    intro n m hn hm
    have hpos := Nat.two_pow_pos k
    have hrn := Nat.mod_lt n hpos
    have hrm := Nat.mod_lt m hpos
    have hrest := ih (n % 2 ^ k) (m % 2 ^ k) hrn hrm
    rw [bitsOf_mod k n k le_rfl, bitsOf_mod k m k le_rfl] at hrest
    rw [bitsOf, bitsOf, List.compareLex_cons_cons, ← hrest]
    rcases testBit_top hn with ⟨hbn, hn'⟩ | ⟨hbn, hn'⟩ <;>
      rcases testBit_top hm with ⟨hbm, hm'⟩ | ⟨hbm, hm'⟩ <;> rw [hbn, hbm]
    · show compare n m = compare (n % 2 ^ k) (m % 2 ^ k)
      simp only [Nat.compare_eq_ite_lt]
      congr 1
      · exact propext (by omega)
      · congr 1
        exact propext (by omega)
    · exact Nat.compare_eq_gt.mpr (by omega)
    · exact Nat.compare_eq_lt.mpr (by omega)
    · show compare n m = compare (n % 2 ^ k) (m % 2 ^ k)
      rw [← hn', ← hm']

end Fz.Base
