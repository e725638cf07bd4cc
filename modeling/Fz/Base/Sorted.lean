import Mathlib.Data.Finset.Basic
import Mathlib.Data.Finset.Card
import Mathlib.Data.List.Sort

/-!
# The elements of a finite set in order

`sorted` lists a finite set in increasing order by insertion, so that it evaluates.
-/

namespace Fz.Base

variable {α : Type*} [LinearOrder α]

/-- The elements of a set in increasing order. -/
def sorted (s : Finset α) : List α :=
  Quot.liftOn s.val (fun l => l.insertionSort (· ≤ ·)) fun _ _ h =>
    List.Perm.eq_of_pairwise' (List.pairwise_insertionSort _ _) (List.pairwise_insertionSort _ _)
      ((List.perm_insertionSort _ _).trans (h.trans (List.perm_insertionSort _ _).symm))

theorem coe_sorted (s : Finset α) : (sorted s : Multiset α) = s.val := by
  obtain ⟨l, hl⟩ := s
  induction l using Quot.inductionOn with
  | h l => exact Quot.sound (List.perm_insertionSort _ l)

@[simp]
theorem mem_sorted {s : Finset α} {k : α} : k ∈ sorted s ↔ k ∈ s := by
  rw [← Multiset.mem_coe, coe_sorted, Finset.mem_val]

theorem nodup_sorted (s : Finset α) : (sorted s).Nodup := by
  rw [← Multiset.coe_nodup, coe_sorted]
  exact s.nodup

theorem length_sorted (s : Finset α) : (sorted s).length = s.card := by
  rw [← Multiset.coe_card, coe_sorted]
  rfl

end Fz.Base
