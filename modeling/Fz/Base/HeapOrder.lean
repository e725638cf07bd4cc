import Mathlib.Data.List.Basic
import Mathlib.Data.Set.Defs

/-!
# Heap order

An array as a binary tree: the parent of place `i` is at `(i - 1) / 2`.  It is in heap order when no
value is above one of its parent.  The two repairs of a heap each keep the order everywhere but at
one place.  On the way up only the pair of that place and its parent may be out of order, on the way
down only the pairs of that place and its children; in both cases the children fit under the parent
of the place, which is what lets the place move on.
-/

namespace Fz.Base

variable {α : Type} {le : α → α → Prop} {values : Array α}

/-- The parent of a place that is not the root. -/
def heapParent (i : Nat) : Nat := (i - 1) / 2

theorem heapParent_lt {i : Nat} (hi : 0 < i) : heapParent i < i := by
  unfold heapParent
  omega

theorem heapParent_eq_iff {i p : Nat} (hi : 0 < i) :
    heapParent i = p ↔ i = p * 2 + 1 ∨ i = p * 2 + 2 := by
  unfold heapParent
  omega

theorem getElem?_swap_eq {i j : Nat} (hi : i < values.size) (hj : j < values.size) (k : Nat) :
    (values.swap i j)[k]? =
      if k = j then some values[i] else if k = i then some values[j] else values[k]? := by
  rw [Array.getElem?_swap]
  simp only [eq_comm (b := k)]

def HeapOrdered (le : α → α → Prop) (values : Array α) : Prop :=
  ∀ i a b, 0 < i → values[heapParent i]? = some a → values[i]? = some b → le a b

/-- In order, but for a place and its parent. -/
structure UpOrdered (le : α → α → Prop) (values : Array α) (child : Nat) : Prop where
  rest : ∀ i a b, 0 < i → i ≠ child → values[heapParent i]? = some a → values[i]? = some b → le a b
  skip : ∀ i a b, 0 < child → 0 < i → heapParent i = child →
    values[heapParent child]? = some a → values[i]? = some b → le a b

/-- In order, but for a place and its children. -/
structure DownOrdered (le : α → α → Prop) (values : Array α) (parent : Nat) : Prop where
  rest : ∀ i a b, 0 < i → heapParent i ≠ parent →
    values[heapParent i]? = some a → values[i]? = some b → le a b
  skip : ∀ i a b, 0 < parent → 0 < i → heapParent i = parent →
    values[heapParent parent]? = some a → values[i]? = some b → le a b

/-- Nothing is below the root. -/
theorem HeapOrdered.root (hrefl : ∀ a, le a a) (htrans : ∀ a b c, le a b → le b c → le a c)
    (h : HeapOrdered le values) {a : α} (hroot : values[0]? = some a) :
    ∀ {i : Nat} {b : α}, values[i]? = some b → le a b := by
  intro i
  induction i using Nat.strongRecOn with
  | ind i ih =>
    intro b hb
    rcases Nat.eq_zero_or_pos i with rfl | hpos
    · rw [hroot] at hb
      cases hb
      exact hrefl a
    · have hparent := heapParent_lt hpos
      obtain ⟨hi, -⟩ := Array.getElem?_eq_some_iff.mp hb
      have hp : values[heapParent i]? = some values[heapParent i] :=
        Array.getElem?_eq_getElem (by omega)
      exact htrans _ _ _ (ih _ hparent hp) (h i _ b hpos hp hb)

/-- A sorted array is in heap order. -/
theorem heapOrdered_of_pairwise (h : values.toList.Pairwise le) : HeapOrdered le values := by
  intro i a b hpos ha hb
  obtain ⟨hi, rfl⟩ := Array.getElem?_eq_some_iff.mp hb
  obtain ⟨hp, rfl⟩ := Array.getElem?_eq_some_iff.mp ha
  exact List.pairwise_iff_getElem.mp h _ _ hp hi (heapParent_lt hpos)

/-! ## The way up -/

theorem HeapOrdered.push (h : HeapOrdered le values) (value : α) :
    UpOrdered le (values.push value) values.size where
  rest i a b hpos hne ha hb := by
    have hi : i < values.size := by
      obtain ⟨hi, -⟩ := Array.getElem?_eq_some_iff.mp hb
      rw [Array.size_push] at hi
      omega
    have hparent := heapParent_lt hpos
    rw [Array.getElem?_push, if_neg (by omega)] at ha hb
    exact h i a b hpos ha hb
  skip i a b hchild hpos hi ha hb := by
    have hparent := heapParent_lt hpos
    obtain ⟨hlt, -⟩ := Array.getElem?_eq_some_iff.mp hb
    rw [Array.size_push] at hlt
    omega

theorem UpOrdered.stop {child : Nat} (h : UpOrdered le values child)
    (hchild : 0 < child → ∀ a b, values[heapParent child]? = some a → values[child]? = some b →
      le a b) : HeapOrdered le values := by
  intro i a b hpos ha hb
  by_cases hi : i = child
  · subst hi
    exact hchild hpos a b ha hb
  · exact h.rest i a b hpos hi ha hb

theorem UpOrdered.swap (htrans : ∀ a b c, le a b → le b c → le a c) {child : Nat}
    (hpos : 0 < child) (hchild : child < values.size) (hparent : heapParent child < values.size)
    (h : UpOrdered le values child) (hle : le values[child] values[heapParent child]) :
    UpOrdered le (values.swap child (heapParent child)) (heapParent child) := by
  have hlt := heapParent_lt hpos
  have hp : values[heapParent child]? = some values[heapParent child] :=
    Array.getElem?_eq_getElem hparent
  -- What stands at the parent fits over everything else under it.
  have hunder : ∀ i b, 0 < i → i ≠ child → heapParent i = heapParent child →
      values[i]? = some b → le values[heapParent child] b := fun i b hi hne heq hb =>
    h.rest i _ b hi hne (by rw [heq]; exact hp) hb
  refine ⟨fun i a b hi hne ha hb => ?_, fun i a b hq hi heq ha hb => ?_⟩
  · rw [getElem?_swap_eq] at ha hb
    rw [if_neg hne] at hb
    by_cases hic : i = child
    · subst hic
      rw [if_pos rfl] at ha hb
      cases ha
      cases hb
      exact hle
    · rw [if_neg hic] at hb
      by_cases hpp : heapParent i = heapParent child
      · rw [if_pos hpp] at ha
        cases ha
        exact htrans _ _ _ hle (hunder i b hi hic hpp hb)
      · rw [if_neg hpp] at ha
        by_cases hpc : heapParent i = child
        · rw [if_pos hpc] at ha
          cases ha
          exact h.skip i _ b hpos hi hpc hp hb
        · rw [if_neg hpc] at ha
          exact h.rest i a b hi hic ha hb
  · have hqq := heapParent_lt hq
    rw [getElem?_swap_eq] at ha hb
    rw [if_neg (by omega), if_neg (by omega)] at ha
    rw [if_neg (by have := heapParent_lt hi; omega)] at hb
    have hover : le a values[heapParent child] := h.rest _ a _ hq (by omega) ha hp
    by_cases hic : i = child
    · rw [if_pos hic] at hb
      cases hb
      exact hover
    · rw [if_neg hic] at hb
      exact htrans _ _ _ hover (hunder i b hi hic heq hb)

/-! ## The way down -/

theorem DownOrdered.stop {parent : Nat} (h : DownOrdered le values parent)
    (hparent : ∀ i a b, 0 < i → heapParent i = parent → values[parent]? = some a →
      values[i]? = some b → le a b) : HeapOrdered le values := by
  intro i a b hpos ha hb
  by_cases hi : heapParent i = parent
  · exact hparent i a b hpos hi (hi ▸ ha) hb
  · exact h.rest i a b hpos hi ha hb

theorem DownOrdered.swap {parent child : Nat} (hpos : 0 < child)
    (heq : heapParent child = parent) (hchild : child < values.size)
    (hparent : parent < values.size) (h : DownOrdered le values parent)
    (hle : le values[child] values[parent])
    (hleast : ∀ i b, 0 < i → heapParent i = parent → values[i]? = some b → le values[child] b) :
    DownOrdered le (values.swap child parent) child := by
  have hlt := heapParent_lt hpos
  have hc : values[child]? = some values[child] := Array.getElem?_eq_getElem hchild
  refine ⟨fun i a b hi hne ha hb => ?_, fun i a b _ hi hic ha hb => ?_⟩
  · rw [getElem?_swap_eq] at ha hb
    by_cases hip : i = parent
    · subst hip
      have hpp := heapParent_lt hi
      rw [if_neg (by omega), if_neg hne] at ha
      rw [if_pos rfl] at hb
      cases hb
      exact h.skip child a _ hi hpos heq ha hc
    · rw [if_neg hip] at hb
      by_cases hic : i = child
      · subst hic
        rw [if_pos heq] at ha
        rw [if_pos rfl] at hb
        cases ha
        cases hb
        exact hle
      · rw [if_neg hic] at hb
        by_cases hpp : heapParent i = parent
        · rw [if_pos hpp] at ha
          cases ha
          exact hleast i b hi hpp hb
        · rw [if_neg hpp, if_neg hne] at ha
          exact h.rest i a b hi hpp ha hb
  · have hpi := heapParent_lt hi
    rw [getElem?_swap_eq] at ha hb
    rw [if_pos heq] at ha
    rw [if_neg (by omega), if_neg (by omega)] at hb
    cases ha
    exact h.rest i _ b hi (by omega) (hic ▸ hc) hb

end Fz.Base
