import Mathlib.Data.Finset.Basic
import Mathlib.Data.Finset.SDiff
import Mathlib.Data.Fintype.EquivFin

/-!
# Finite and cofinite sets

A set of names, or everything except a set of names.  The type lattice keeps its atoms, opaques,
brands and variables in this form, which is closed under union, intersection and complement.
-/

namespace Fz.Types

/-- `cofinite = false` is exactly the listed values, `cofinite = true` everything else. -/
structure FiniteSet (T : Type) where
  values : Finset T
  cofinite : Bool
  deriving DecidableEq

namespace FiniteSet

variable {T : Type} [DecidableEq T]

def none : FiniteSet T := ⟨∅, false⟩

def any : FiniteSet T := ⟨∅, true⟩

def lit (value : T) : FiniteSet T := ⟨{value}, false⟩

def isNone (s : FiniteSet T) : Bool := !s.cofinite && s.values = ∅

def isAny (s : FiniteSet T) : Bool := s.cofinite && s.values = ∅

def contains (s : FiniteSet T) (value : T) : Bool := decide (value ∈ s.values) != s.cofinite

def union (s t : FiniteSet T) : FiniteSet T :=
  match s.cofinite, t.cofinite with
  | false, false => ⟨s.values ∪ t.values, false⟩
  | true, false => ⟨s.values \ t.values, true⟩
  | false, true => ⟨t.values \ s.values, true⟩
  | true, true => ⟨s.values ∩ t.values, true⟩

def intersect (s t : FiniteSet T) : FiniteSet T :=
  match s.cofinite, t.cofinite with
  | false, false => ⟨s.values ∩ t.values, false⟩
  | true, false => ⟨t.values \ s.values, false⟩
  | false, true => ⟨s.values \ t.values, false⟩
  | true, true => ⟨s.values ∪ t.values, true⟩

def neg (s : FiniteSet T) : FiniteSet T := ⟨s.values, !s.cofinite⟩

/-- Whether every member of `t` is one of `s`; a finite set is never reported to contain a
cofinite one. -/
def containsAll (s t : FiniteSet T) : Bool :=
  match s.cofinite, t.cofinite with
  | false, false => t.values ⊆ s.values
  | false, true => false
  | true, false => t.values ∩ s.values = ∅
  | true, true => s.values ⊆ t.values

def overlaps (s t : FiniteSet T) : Bool :=
  match s.cofinite, t.cofinite with
  | false, false => s.values ∩ t.values ≠ ∅
  | false, true => s.values \ t.values ≠ ∅
  | true, false => t.values \ s.values ≠ ∅
  | true, true => true

@[simp] theorem contains_none (x : T) : (none : FiniteSet T).contains x = false := by
  simp [none, contains]

@[simp] theorem contains_any (x : T) : (any : FiniteSet T).contains x = true := by
  simp [any, contains]

theorem contains_union (s t : FiniteSet T) (x : T) :
    (s.union t).contains x = (s.contains x || t.contains x) := by
  obtain ⟨vs, cs⟩ := s
  obtain ⟨ws, ct⟩ := t
  cases cs <;> cases ct <;> by_cases hv : x ∈ vs <;> by_cases hw : x ∈ ws <;>
    simp [union, contains, hv, hw]

theorem contains_intersect (s t : FiniteSet T) (x : T) :
    (s.intersect t).contains x = (s.contains x && t.contains x) := by
  obtain ⟨vs, cs⟩ := s
  obtain ⟨ws, ct⟩ := t
  cases cs <;> cases ct <;> simp [intersect, contains, Bool.and_comm]

theorem contains_neg (s : FiniteSet T) (x : T) : s.neg.contains x = !s.contains x := by
  obtain ⟨vs, cs⟩ := s
  cases cs <;> simp [neg, contains]

theorem isNone_iff [Infinite T] (s : FiniteSet T) : s.isNone ↔ ∀ x, s.contains x = false := by
  obtain ⟨vs, cs⟩ := s
  cases cs with
  | false => simp [isNone, contains, Finset.eq_empty_iff_forall_notMem]
  | true =>
    obtain ⟨x, hx⟩ := Infinite.exists_notMem_finset vs
    simp only [isNone, Bool.not_true, Bool.false_and, Bool.false_eq_true, false_iff, not_forall,
      Bool.not_eq_false]
    exact ⟨x, by simp [contains, hx]⟩

variable {s t : FiniteSet T}

theorem isNone_of_union (h : (s.union t).isNone = true) : s.isNone = true := by
  obtain ⟨vs, cs⟩ := s
  obtain ⟨ws, ct⟩ := t
  cases cs <;> cases ct <;> simp_all [union, isNone, Finset.union_eq_empty]

theorem contains_of_containsAll (h : s.containsAll t = true) {x : T}
    (hx : t.contains x = true) : s.contains x = true := by
  obtain ⟨vs, cs⟩ := s
  obtain ⟨ws, ct⟩ := t
  cases cs <;> cases ct <;> simp [containsAll, contains] at h hx ⊢
  · exact h hx
  · exact fun hmem => Finset.notMem_empty x (h ▸ Finset.mem_inter.mpr ⟨hx, hmem⟩)
  · exact fun hmem => hx (h hmem)

theorem overlaps_of_contains {x : T} (hs : s.contains x = true)
    (ht : t.contains x = true) : s.overlaps t = true := by
  obtain ⟨vs, cs⟩ := s
  obtain ⟨ws, ct⟩ := t
  cases cs <;> cases ct <;> simp [overlaps, contains] at hs ht ⊢
  · exact Finset.ne_empty_of_mem (Finset.mem_inter.mpr ⟨hs, ht⟩)
  · exact fun h => ht (h hs)
  · exact fun h => hs (h ht)

theorem exists_of_overlaps (h : s.overlaps t = true) :
    (s.cofinite = true ∧ t.cofinite = true) ∨ ∃ x, s.contains x = true ∧ t.contains x = true := by
  obtain ⟨vs, cs⟩ := s
  obtain ⟨ws, ct⟩ := t
  cases cs <;> cases ct <;> simp [overlaps, contains] at h ⊢
  · obtain ⟨x, hx⟩ := Finset.nonempty_iff_ne_empty.mpr h
    exact ⟨x, Finset.mem_inter.mp hx⟩
  · exact Finset.not_subset.mp h
  · obtain ⟨x, hx, hn⟩ := Finset.not_subset.mp h
    exact ⟨x, hn, hx⟩

theorem overlaps_symm (h : s.overlaps t = true) : t.overlaps s = true := by
  rcases exists_of_overlaps h with ⟨hs, ht⟩ | ⟨x, hs, ht⟩
  · simp [overlaps, hs, ht]
  · exact overlaps_of_contains ht hs

theorem cofinite_of_containsAll (h : s.containsAll t = true)
    (ht : t.cofinite = true) : s.cofinite = true := by
  cases hs : s.cofinite with
  | true => rfl
  | false => simp [containsAll, hs, ht] at h

theorem overlaps_mono {s s' t t' : FiniteSet T} (hs : s'.containsAll s = true)
    (ht : t'.containsAll t = true) (h : s.overlaps t = true) : s'.overlaps t' = true := by
  rcases exists_of_overlaps h with ⟨hcs, hct⟩ | ⟨x, hxs, hxt⟩
  · simp [overlaps, cofinite_of_containsAll hs hcs, cofinite_of_containsAll ht hct]
  · exact overlaps_of_contains (contains_of_containsAll hs hxs) (contains_of_containsAll ht hxt)

theorem containsAll_trans {r s t : FiniteSet T} (h : r.containsAll s = true)
    (h' : s.containsAll t = true) : r.containsAll t = true := by
  obtain ⟨us, cr⟩ := r
  obtain ⟨vs, cs⟩ := s
  obtain ⟨ws, ct⟩ := t
  cases cr <;> cases cs <;> cases ct <;> simp [containsAll] at h h' ⊢
  · exact h'.trans h
  · rw [← Finset.disjoint_iff_inter_eq_empty] at h ⊢
    exact h.mono_left h'
  · rw [← Finset.disjoint_iff_inter_eq_empty] at h' ⊢
    exact h'.mono_right h
  · exact h.trans h'
end FiniteSet

end Fz.Types
