import Fz.Base.Product
import Fz.Types.Emptiness
import Mathlib.Algebra.Order.Ring.Nat

/-!
# Product subtraction

`phiTuple` decides whether a product lies in a union of products, as exactly as its query decides
the coordinates.  It splits the product against one negative product after another, and it has two
shortcuts: an empty coordinate ends the question, and a negative that is disjoint from the product
at some coordinate is passed over.  Neither shortcut changes an answer.
-/

namespace Fz.Types

open Fz.Base

variable {V : Type} {empty : Descr → Bool} {P : Descr → Prop} {den : Descr → Set V}

/-- On the descriptors of `P` the query, the meet and the difference are those of sets. -/
structure ExactOn (empty : Descr → Bool) (P : Descr → Prop) (den : Descr → Set V) : Prop where
  intersect : ∀ {a b}, P a → P b → P (a.intersect b) ∧ den (a.intersect b) = den a ∩ den b
  diff : ∀ {a b}, P a → P b → P (a.diff b) ∧ den (a.diff b) = den a \ den b
  empty_iff : ∀ {d}, P d → (empty d = true ↔ den d = ∅)

/-- `phiTuple` with each of its shortcuts taken or not. -/
def phiTupleWith (empty : Descr → Bool) (prune skip : Bool) : List Descr → List (List Descr) → Bool
  | t, [] => t.any empty
  | t, head :: rest =>
    if prune && t.any empty then true
    else if skip && (List.zipWith (fun h ti => empty (ti.intersect h)) head t).any id then
      phiTupleWith empty prune skip t rest
    else (List.range t.length).all fun i =>
      phiTupleWith empty prune skip (splitCoord t head i) rest

theorem phiTupleWith_true (t : List Descr) (n : List (List Descr)) :
    phiTupleWith empty true true t n = phiTuple empty t n := by
  induction n generalizing t with
  | nil => rfl
  | cons head rest ih => simp only [phiTupleWith, phiTuple, Bool.true_and, ih]

namespace ExactOn

theorem splitCoord (h : ExactOn empty P den) {t head : List Descr} (ht : ∀ d ∈ t, P d)
    (hhead : ∀ d ∈ head, P d) (i : Nat) : (∀ d ∈ splitCoord t head i, P d) ∧
      (splitCoord t head i).map den = cutAt (t.map den) (head.map den) i := by
  induction t generalizing head i with
  | nil => cases head <;> cases i <;> exact ⟨fun d hd => (nomatch hd), rfl⟩
  | cons d t ih =>
    have htail : ∀ d ∈ t, P d := fun d hd => ht d (.tail _ hd)
    cases head with
    | nil => cases i <;> exact ⟨ht, rfl⟩
    | cons e head =>
      have hd := ht d (.head _)
      have he := hhead e (.head _)
      cases i with
      | zero =>
        obtain ⟨hP, hden⟩ := h.diff hd he
        exact ⟨List.forall_mem_cons.mpr ⟨hP, htail⟩, congrArg (· :: t.map den) hden⟩
      | succ i =>
        obtain ⟨hP, hden⟩ := h.intersect hd he
        obtain ⟨hall, hrest⟩ := ih htail (fun e he => hhead e (.tail _ he)) i
        refine ⟨List.forall_mem_cons.mpr ⟨hP, hall⟩, ?_⟩
        rw [Types.splitCoord, List.map_cons, hden, hrest]
        rfl

theorem any_empty_iff (h : ExactOn empty P den) {t : List Descr} (ht : ∀ d ∈ t, P d) :
    t.any empty = true ↔ ∃ s ∈ t.map den, s = ∅ := by
  simp only [List.any_eq_true, List.mem_map, exists_exists_and_eq_and]
  exact exists_congr fun d => and_congr_right fun hd => h.empty_iff (ht d hd)

theorem exists_disjoint (h : ExactOn empty P den) {t head : List Descr} (ht : ∀ d ∈ t, P d)
    (hhead : ∀ d ∈ head, P d)
    (hany : (List.zipWith (fun h ti => empty (ti.intersect h)) head t).any id = true) :
    ∃ p ∈ (head.map den).zip (t.map den), p.2 ∩ p.1 = ∅ := by
  rw [← List.map_uncurry_zip_eq_zipWith, List.any_map, List.any_eq_true] at hany
  obtain ⟨⟨e, d⟩, hmem, hempty⟩ := hany
  obtain ⟨hP, hden⟩ :=
    h.intersect (ht d (List.of_mem_zip hmem).2) (hhead e (List.of_mem_zip hmem).1)
  rw [List.zip_map]
  refine ⟨_, List.mem_map_of_mem hmem, ?_⟩
  rw [Prod.map_apply, ← hden]
  exact (h.empty_iff hP).mp hempty

theorem phiTupleWith_iff (h : ExactOn empty P den) (prune skip : Bool) (n : List (List Descr)) :
    ∀ t : List Descr, (∀ d ∈ t, P d) → (∀ m ∈ n, m.length = t.length ∧ ∀ d ∈ m, P d) →
      (phiTupleWith empty prune skip t n = true ↔ Covered (t.map den) (n.map (List.map den))) := by
  induction n with
  | nil =>
    intro t ht _
    rw [phiTupleWith, h.any_empty_iff ht]
    constructor
    · rintro ⟨s, hs, hempty⟩
      exact covered_of_empty hs hempty
    · intro hcovered
      by_contra hne
      push Not at hne
      exact not_covered_nil hne hcovered
  | cons head rest ih =>
    intro t ht hn
    obtain ⟨hlen, hhead⟩ := hn head (.head _)
    have hrest : ∀ m ∈ rest, m.length = t.length ∧ ∀ d ∈ m, P d := fun m hm => hn m (.tail _ hm)
    rw [phiTupleWith]
    split
    · rename_i hprune
      obtain ⟨s, hs, hempty⟩ := (h.any_empty_iff ht).mp (Bool.and_eq_true_iff.mp hprune).2
      exact iff_of_true rfl (covered_of_empty hs hempty)
    split
    · rename_i hskip
      rw [ih t ht hrest, List.map_cons, covered_cons_of_disjoint
        (h.exists_disjoint ht hhead (Bool.and_eq_true_iff.mp hskip).2)]
    · rw [List.map_cons, covered_cons (by rw [List.length_map, List.length_map, hlen]),
        List.length_map, List.all_eq_true]
      simp only [List.mem_range]
      refine forall₂_congr fun i _ => ?_
      obtain ⟨hsplit, hcut⟩ := h.splitCoord ht hhead i
      rw [ih _ hsplit (by rw [length_splitCoord]; exact hrest), hcut]

/-- Product subtraction is exact at every arity, and both shortcuts leave its answers as they
are. -/
theorem phiTuple_exact (h : ExactOn empty P den) (t : List Descr) (n : List (List Descr))
    (ht : ∀ d ∈ t, P d) (hn : ∀ m ∈ n, m.length = t.length ∧ ∀ d ∈ m, P d) :
    (phiTuple empty t n = true ↔ ∀ vs ∈ listProd (t.map den), ∃ m ∈ n, vs ∈ listProd (m.map den)) ∧
    ∀ prune skip, phiTupleWith empty prune skip t n = phiTuple empty t n := by
  have hwith := fun prune skip => h.phiTupleWith_iff prune skip n t ht hn
  refine ⟨?_, fun prune skip => ?_⟩
  · rw [← phiTupleWith_true, hwith true true, Covered]
    simp only [List.mem_map, exists_exists_and_eq_and]
  · rw [Bool.eq_iff_iff, hwith prune skip, ← phiTupleWith_true, hwith true true]

end ExactOn

/-! ## Atoms -/

/-- The descriptor of a set of atoms. -/
def atomsOnly (s : FiniteSet String) : Descr := { Descr.unbranded with atoms := s }

theorem atomsOnly_intersect (s t : FiniteSet String) :
    (atomsOnly s).intersect (atomsOnly t) = atomsOnly (s.intersect t) := rfl

theorem atomsOnly_diff (s t : FiniteSet String) :
    (atomsOnly s).diff (atomsOnly t) = atomsOnly (s.intersect t.neg) := rfl

theorem atomsOnly_isEmpty (s : FiniteSet String) :
    (atomsOnly s).isEmpty ⟨[], by simp⟩ = s.isNone := by
  show Descr.isEmptyStep _ _ (atomsOnly s) = _
  simp [Descr.isEmptyStep, atomsOnly, Descr.unbranded, Descr.none, FiniteSet.isNone,
    FiniteSet.none, FiniteSet.any, BasicBits.isEmpty, BasicBits.none]
  rfl

theorem exactOn_atoms : ExactOn (Descr.isEmpty ⟨[], by simp⟩) (fun d => ∃ s, d = atomsOnly s)
      (fun d => {v | d.atoms.contains v = true}) where
  intersect := by
    rintro _ _ ⟨s, rfl⟩ ⟨t, rfl⟩
    refine ⟨⟨_, atomsOnly_intersect s t⟩, ?_⟩
    ext v
    rw [atomsOnly_intersect]
    simp [atomsOnly, FiniteSet.contains_intersect]
  diff := by
    rintro _ _ ⟨s, rfl⟩ ⟨t, rfl⟩
    refine ⟨⟨_, atomsOnly_diff s t⟩, ?_⟩
    ext v
    rw [atomsOnly_diff]
    simp [atomsOnly, FiniteSet.contains_intersect, FiniteSet.contains_neg]
  empty_iff := by
    rintro _ ⟨s, rfl⟩
    rw [atomsOnly_isEmpty, FiniteSet.isNone_iff, Set.eq_empty_iff_forall_notMem]
    simp [atomsOnly]

theorem phiTuple_exact_atoms :
    listProd ([atomsOnly (.lit "a"), atomsOnly .any].map fun d => {v | d.atoms.contains v = true}) ⊆
      {vs | ∃ m ∈ [[atomsOnly (.lit "a"), atomsOnly (.lit "b")],
          [atomsOnly .any, atomsOnly (FiniteSet.lit "b").neg]],
        vs ∈ listProd (m.map fun d => {v | d.atoms.contains v = true})} := by
  refine (exactOn_atoms.phiTuple_exact _ _ ?_ ?_).1.mp ?_
  · exact List.forall_mem_cons.mpr ⟨⟨_, rfl⟩, List.forall_mem_singleton.mpr ⟨_, rfl⟩⟩
  · exact List.forall_mem_cons.mpr ⟨⟨rfl, List.forall_mem_cons.mpr ⟨⟨_, rfl⟩,
      List.forall_mem_singleton.mpr ⟨_, rfl⟩⟩⟩, List.forall_mem_singleton.mpr ⟨rfl,
      List.forall_mem_cons.mpr ⟨⟨_, rfl⟩, List.forall_mem_singleton.mpr ⟨_, rfl⟩⟩⟩⟩
  · decide

end Fz.Types
