import Fz.Types.Descr

/-!
# Membership under a brand slot

A value belongs to a descriptor when the brand slot admits its brand and the structural axes hold of
the rest of it.  What intersection, difference and join do to membership follows from what the
structural axes say of meets, complements and joins (`Structural`), however values are read.

Intersection is exact.  Union is exact where the brand slots agree; difference keeps at least what
it should and never adds.
-/

namespace Fz.Types

/-! ## Brand slots -/

/-- Whether a brand slot admits the brand of a value.  Only a cofinite slot admits a value that
carries none. -/
def admits (slot : FiniteSet String) : Option String → Bool
  | none => slot.cofinite
  | some b => slot.contains b

namespace Descr

theorem admits_intersect (s t : FiniteSet String) (b : Option String) :
    admits (s.intersect t) b = (admits s b && admits t b) := by
  cases b with
  | none =>
    simp only [admits, FiniteSet.intersect]
    cases s.cofinite <;> cases t.cofinite <;> rfl
  | some b => exact FiniteSet.contains_intersect s t b

theorem admits_union (s t : FiniteSet String) (b : Option String) :
    admits (s.union t) b = (admits s b || admits t b) := by
  cases b with
  | none =>
    simp only [admits, FiniteSet.union]
    cases s.cofinite <;> cases t.cofinite <;> rfl
  | some b => exact FiniteSet.contains_union s t b

theorem admits_neg (s : FiniteSet String) (b : Option String) : admits s.neg b = !admits s b := by
  cases b with
  | none => rfl
  | some b => exact FiniteSet.contains_neg s b

theorem admits_any (b : Option String) : admits .any b = true := by
  cases b with
  | none => rfl
  | some b => exact FiniteSet.contains_any b

theorem admits_of_isNone {s : FiniteSet String} (h : s.isNone = true) (b : Option String) :
    admits s b = false := by
  simp only [FiniteSet.isNone, Bool.and_eq_true, Bool.not_eq_true', decide_eq_true_eq] at h
  cases b with
  | none => exact h.1
  | some b => simp [admits, FiniteSet.contains, h]

theorem admits_of_containsAll {s t : FiniteSet String} (h : s.containsAll t = true)
    {b : Option String} (hb : admits t b = true) : admits s b = true := by
  obtain ⟨vs, cs⟩ := s
  obtain ⟨ws, ct⟩ := t
  cases cs <;> cases ct <;> cases b <;>
    simp only [FiniteSet.containsAll, admits, FiniteSet.contains, decide_eq_true_eq,
      Bool.false_eq_true, Bool.bne_false, Bool.bne_true, Bool.not_eq_true',
      decide_eq_false_iff_not] at *
  · exact h hb
  · exact fun hmem => Finset.notMem_empty _ (h ▸ Finset.mem_inter.mpr ⟨hb, hmem⟩)
  · exact fun hmem => hb (h hmem)

theorem admits_of_not_overlaps {s t : FiniteSet String} (h : s.overlaps t = false)
    {b : Option String} (hs : admits s b = true) : admits t b = false := by
  obtain ⟨vs, cs⟩ := s
  obtain ⟨ws, ct⟩ := t
  cases cs <;> cases ct <;> cases b <;>
    simp only [FiniteSet.overlaps, admits, FiniteSet.contains, decide_eq_true_eq, ne_eq,
      decide_not, Bool.not_eq_false', Bool.false_eq_true, Bool.bne_false, Bool.bne_true,
      Bool.not_eq_true', decide_eq_false_iff_not, Bool.true_eq_false] at *
  · exact fun hmem => Finset.notMem_empty _ (h ▸ Finset.mem_inter.mpr ⟨hs, hmem⟩)
  · by_contra hmem
    exact Finset.notMem_empty _ (h ▸ Finset.mem_sdiff.mpr ⟨hs, hmem⟩)
  · exact fun hmem => Finset.notMem_empty _ (h ▸ Finset.mem_sdiff.mpr ⟨hmem, hs⟩)

theorem exists_admits {slot : FiniteSet String} (h : slot.isNone = false) :
    ∃ b, admits slot b = true := by
  obtain ⟨values, cofinite⟩ := slot
  cases cofinite with
  | true => exact ⟨Option.none, rfl⟩
  | false =>
    simp only [FiniteSet.isNone, Bool.not_false, Bool.true_and, decide_eq_false_iff_not] at h
    obtain ⟨b, hb⟩ := Finset.nonempty_iff_ne_empty.mpr h
    exact ⟨some b, by simp [admits, FiniteSet.contains, hb]⟩

theorem exists_admits_not {s t : FiniteSet String} (h : ¬t.containsAll s = true) :
    ∃ brand, admits s brand = true ∧ admits t brand = false := by
  obtain ⟨vs, cs⟩ := s
  obtain ⟨ws, ct⟩ := t
  cases cs <;> cases ct <;>
    simp only [FiniteSet.containsAll, decide_eq_true_eq, Bool.false_eq_true, not_false_eq_true] at h
  · obtain ⟨b, hb, hout⟩ := Finset.not_subset.mp h
    exact ⟨some b, by simp [admits, FiniteSet.contains, hb, hout]⟩
  · obtain ⟨b, hb⟩ := Finset.nonempty_iff_ne_empty.mpr h
    rw [Finset.mem_inter] at hb
    exact ⟨some b, by simp [admits, FiniteSet.contains, hb]⟩
  · exact ⟨Option.none, rfl, rfl⟩
  · obtain ⟨b, hb, hout⟩ := Finset.not_subset.mp h
    exact ⟨some b, by simp [admits, FiniteSet.contains, hb, hout]⟩

/-- Both slots agree, or one of the descriptors is a bottom by its looks. -/
def SlotsAgree (a b : Descr) : Prop :=
  a.brands = b.brands ∨ a.looksEmpty = true ∨ b.looksEmpty = true

theorem brands_union {a b : Descr} (hea : ¬a.looksEmpty = true) (heb : ¬b.looksEmpty = true) :
    (a.union b).brands = a.brands.union b.brands := by
  rw [union, if_neg hea, if_neg heb]

/-- The brand slot admits a brand, and the structural axes hold of the rest of the value. -/
def Under (In : Descr → Prop) (brand : Option String) (d : Descr) : Prop :=
  admits d.brands brand = true ∧ In d

end Descr

/-! ## Structural axes -/

/-- What the structural axes say of one value. -/
structure Structural (In : Descr → Prop) : Prop where
  intersect : ∀ a b, In (a.intersect b) ↔ In a ∧ In b
  negStructure : ∀ a, In a.negStructure ↔ ¬In a
  withBrands : ∀ (a : Descr) slot, In { a with brands := slot } ↔ In a
  sameStructure : ∀ a b, a.sameStructureByConstruction b = true → (In a ↔ In b)
  looksEmpty : ∀ a, a.structureLooksEmpty = true → ¬In a
  union : ∀ a b, ¬a.looksEmpty = true → ¬b.looksEmpty = true → (In (a.union b) ↔ In a ∨ In b)
  any : In .any

namespace Structural

variable {In : Descr → Prop} (h : Structural In) {brand : Option String} {a b : Descr}
include h

theorem mem_intersect : (a.intersect b).Under In brand ↔ a.Under In brand ∧ b.Under In brand := by
  have hb : admits (a.intersect b).brands brand
      = (admits a.brands brand && admits b.brands brand) := Descr.admits_intersect _ _ _
  simp only [Descr.Under, hb, Bool.and_eq_true, h.intersect]
  constructor
  · rintro ⟨⟨ha, hb⟩, hsa, hsb⟩
    exact ⟨⟨ha, hsa⟩, hb, hsb⟩
  · rintro ⟨⟨ha, hsa⟩, hb, hsb⟩
    exact ⟨⟨ha, hb⟩, hsa, hsb⟩

theorem mem_diff_iff (hcov : b.brands.containsAll a.brands = true) :
    (a.diff b).Under In brand ↔ a.Under In brand ∧ ¬b.Under In brand := by
  rw [Descr.diff, if_pos hcov, Descr.Under, h.withBrands, h.intersect, h.negStructure]
  constructor
  · rintro ⟨hslot, ha, hb⟩
    exact ⟨⟨hslot, ha⟩, fun hmem => hb hmem.2⟩
  · rintro ⟨⟨hslot, ha⟩, hb⟩
    exact ⟨hslot, ha, fun hin => hb ⟨Descr.admits_of_containsAll hcov hslot, hin⟩⟩

theorem mem_diff_iff_of_disjoint (hslots : a.brands.overlaps b.brands = false) :
    (a.diff b).Under In brand ↔ a.Under In brand ∧ ¬b.Under In brand := by
  by_cases hcov : b.brands.containsAll a.brands = true
  · exact h.mem_diff_iff hcov
  rw [Descr.diff, if_neg hcov, hslots, Bool.not_false, if_pos rfl]
  constructor
  · intro ha
    refine ⟨ha, fun hb => ?_⟩
    have hout := Descr.admits_of_not_overlaps hslots ha.1
    rw [hb.1] at hout
    exact nomatch hout
  · exact And.left

theorem mem_diff_iff_of_sameStructure (hsame : a.sameStructureByConstruction b = true) :
    (a.diff b).Under In brand ↔ a.Under In brand ∧ ¬b.Under In brand := by
  by_cases hcov : b.brands.containsAll a.brands = true
  · exact h.mem_diff_iff hcov
  cases hslots : a.brands.overlaps b.brands with
  | false => exact h.mem_diff_iff_of_disjoint hslots
  | true =>
    rw [Descr.diff, if_neg hcov, hslots, Bool.not_true, if_neg Bool.false_ne_true, if_pos hsame]
    have hslot : admits (a.brands.intersect b.brands.neg) brand = true ↔
        admits a.brands brand = true ∧ ¬admits b.brands brand = true := by
      rw [Descr.admits_intersect, Descr.admits_neg, Bool.and_eq_true, Bool.not_eq_true',
        Bool.not_eq_true]
    simp only [Descr.Under, hslot, h.withBrands, ← h.sameStructure a b hsame]
    constructor
    · rintro ⟨⟨ha, hb⟩, hin⟩
      exact ⟨⟨ha, hin⟩, fun hmem => hb hmem.1⟩
    · rintro ⟨⟨ha, hin⟩, hb⟩
      exact ⟨⟨ha, fun hslot => hb ⟨hslot, hin⟩⟩, hin⟩

theorem mem_diff_of_mem (ha : a.Under In brand) (hb : ¬b.Under In brand) :
    (a.diff b).Under In brand := by
  by_cases hcov : b.brands.containsAll a.brands = true
  · exact (h.mem_diff_iff hcov).mpr ⟨ha, hb⟩
  rw [Descr.diff, if_neg hcov]
  split
  · exact ha
  split
  · rename_i hsame
    refine ⟨?_, (h.withBrands a _).mpr ha.2⟩
    have hslot : admits b.brands brand = false := by
      rw [← Bool.not_eq_true]
      exact fun hslot => hb ⟨hslot, (h.sameStructure _ _ hsame).mp ha.2⟩
    show admits (a.brands.intersect b.brands.neg) brand = true
    rw [Descr.admits_intersect, Descr.admits_neg, hslot, ha.1]
    rfl
  · exact ha

theorem mem_of_mem_diff (hmem : (a.diff b).Under In brand) : a.Under In brand := by
  by_cases hcov : b.brands.containsAll a.brands = true
  · exact ((h.mem_diff_iff hcov).mp hmem).1
  rw [Descr.diff, if_neg hcov] at hmem
  split at hmem
  · exact hmem
  split at hmem
  · refine ⟨?_, (h.withBrands a _).mp hmem.2⟩
    have hslot : admits (a.brands.intersect b.brands.neg) brand = true := hmem.1
    rw [Descr.admits_intersect, Bool.and_eq_true] at hslot
    exact hslot.1
  · exact hmem

theorem not_mem_of_looksEmpty (he : a.looksEmpty = true) : ¬a.Under In brand := by
  rintro ⟨hslot, hin⟩
  rw [Descr.looksEmpty, Bool.or_eq_true] at he
  rcases he with he | he
  · rw [Descr.admits_of_isNone he] at hslot
    exact nomatch hslot
  · exact h.looksEmpty a he hin

theorem mem_any : (Descr.any).Under In brand := ⟨Descr.admits_any _, h.any⟩

theorem mem_union_of_looksEmpty (he : a.looksEmpty = true ∨ b.looksEmpty = true) :
    (a.union b).Under In brand ↔ a.Under In brand ∨ b.Under In brand := by
  rw [Descr.union]
  split
  · rename_i hea
    rw [iff_false_intro (h.not_mem_of_looksEmpty hea), false_or]
    split
    · rename_i heb
      rw [iff_false_intro (h.not_mem_of_looksEmpty heb),
        iff_false_intro (h.not_mem_of_looksEmpty rfl)]
    · rfl
  · rename_i hea
    have heb := he.resolve_left hea
    rw [if_pos heb, iff_false_intro (h.not_mem_of_looksEmpty heb), or_false]

theorem mem_union_iff (hslots : Descr.SlotsAgree a b) :
    (a.union b).Under In brand ↔ a.Under In brand ∨ b.Under In brand := by
  by_cases he : a.looksEmpty = true ∨ b.looksEmpty = true
  · exact h.mem_union_of_looksEmpty he
  obtain ⟨hea, heb⟩ := not_or.mp he
  have heq : a.brands = b.brands := hslots.resolve_right he
  rw [Descr.Under, h.union _ _ hea heb, Descr.brands_union hea heb, Descr.admits_union, heq,
    Bool.or_self, and_or_left]
  simp only [Descr.Under, heq]

theorem mem_union_of_mem (hmem : a.Under In brand ∨ b.Under In brand) :
    (a.union b).Under In brand := by
  by_cases he : a.looksEmpty = true ∨ b.looksEmpty = true
  · exact (h.mem_union_of_looksEmpty he).mpr hmem
  obtain ⟨hea, heb⟩ := not_or.mp he
  rw [Descr.Under, h.union _ _ hea heb, Descr.brands_union hea heb, Descr.admits_union,
    Bool.or_eq_true]
  exact ⟨hmem.imp And.left And.left, hmem.imp And.right And.right⟩

end Structural

end Fz.Types
