import Mathlib.Data.Set.Basic
import Mathlib.Data.List.Forall2

/-!
# Subtraction of products

Products of finite sequences of sets, as sets of lists, and the one identity that subtracting a
product needs: a point of `∏ t` outside `∏ h` is inside `h` up to some coordinate and outside it
there.  So `∏ t ⊆ ∏ h ∪ ⋃ ns` splits into one inclusion for each coordinate (`covered_cons`).
Sequences of any length over one set need no splitting: a sequence can collect a point outside each
of finitely many sets (`exists_list_outside`).

Products that differ in one coordinate are told apart by that coordinate alone
(`mem_listProd_set_union`, `mem_listProd_set_diff`).
-/

namespace Fz.Base

variable {α : Type}

/-- The product of a sequence of sets. -/
def listProd (t : List (Set α)) : Set (List α) := {vs | List.Forall₂ (· ∈ ·) vs t}

@[simp] theorem nil_mem_listProd : ([] : List α) ∈ listProd ([] : List (Set α)) := List.Forall₂.nil

@[simp] theorem cons_mem_listProd {v : α} {vs : List α} {s : Set α} {t : List (Set α)} :
    v :: vs ∈ listProd (s :: t) ↔ v ∈ s ∧ vs ∈ listProd t := List.forall₂_cons

theorem length_of_mem_listProd {vs : List α} {t : List (Set α)} (h : vs ∈ listProd t) :
    vs.length = t.length := List.Forall₂.length_eq h

theorem listProd_zipWith_inter {t h : List (Set α)} (hlen : t.length = h.length) :
    listProd (List.zipWith (· ∩ ·) t h) = listProd t ∩ listProd h := by
  ext vs
  rw [Set.mem_inter_iff]
  induction t generalizing h vs with
  | nil =>
    obtain rfl : h = [] := List.eq_nil_of_length_eq_zero hlen.symm
    simp
  | cons s t ih =>
    cases h with
    | nil => simp at hlen
    | cons g h =>
      cases vs with
      | nil => exact ⟨fun hv => (nomatch hv), fun hv => (nomatch hv.1)⟩
      | cons v vs =>
        simp only [List.zipWith_cons_cons, cons_mem_listProd, ih (Nat.succ.inj hlen),
          Set.mem_inter_iff]
        constructor
        · rintro ⟨⟨hs, hg⟩, ht, hh⟩
          exact ⟨⟨hs, ht⟩, hg, hh⟩
        · rintro ⟨⟨hs, ht⟩, hg, hh⟩
          exact ⟨⟨hs, hg⟩, ht, hh⟩

/-- The part of `∏ t` inside `h` before coordinate `i` and outside `h` at it. -/
def cutAt : List (Set α) → List (Set α) → Nat → List (Set α)
  | s :: t, h :: _, 0 => (s \ h) :: t
  | s :: t, h :: hs, i + 1 => (s ∩ h) :: cutAt t hs i
  | t, _, _ => t

theorem exists_mem_cutAt {t h : List (Set α)} (hlen : t.length = h.length) {vs : List α}
    (hvs : vs ∈ listProd t) (hout : vs ∉ listProd h) :
    ∃ i < t.length, vs ∈ listProd (cutAt t h i) := by
  induction t generalizing h vs with
  | nil =>
    obtain rfl : h = [] := List.eq_nil_of_length_eq_zero hlen.symm
    exact absurd hvs hout
  | cons s t ih =>
    cases h with
    | nil => simp at hlen
    | cons g h =>
      cases hvs with
      | @cons v _ vs _ hv hvs =>
        by_cases hg : v ∈ g
        · have hrest : vs ∉ listProd h := fun hh => hout (cons_mem_listProd.mpr ⟨hg, hh⟩)
          obtain ⟨i, hi, hmem⟩ := ih (Nat.succ.inj hlen) hvs hrest
          exact ⟨i + 1, Nat.succ_lt_succ hi, cons_mem_listProd.mpr ⟨⟨hv, hg⟩, hmem⟩⟩
        · exact ⟨0, Nat.succ_pos _, cons_mem_listProd.mpr ⟨⟨hv, hg⟩, hvs⟩⟩

theorem mem_of_mem_cutAt {t h : List (Set α)} (hlen : t.length = h.length) {i : Nat}
    (hi : i < t.length) {vs : List α} (hvs : vs ∈ listProd (cutAt t h i)) :
    vs ∈ listProd t ∧ vs ∉ listProd h := by
  induction t generalizing h vs i with
  | nil => simp at hi
  | cons s t ih =>
    cases h with
    | nil => simp at hlen
    | cons g h =>
      cases i with
      | zero =>
        cases hvs with
        | @cons v _ vs _ hv hvs =>
          exact ⟨cons_mem_listProd.mpr ⟨hv.1, hvs⟩,
            fun hh => hv.2 (cons_mem_listProd.mp hh).1⟩
      | succ i =>
        cases hvs with
        | @cons v _ vs _ hv hvs =>
          obtain ⟨hin, hout⟩ := ih (Nat.succ.inj hlen) (Nat.lt_of_succ_lt_succ hi) hvs
          exact ⟨cons_mem_listProd.mpr ⟨hv.1, hin⟩,
            fun hh => hout (cons_mem_listProd.mp hh).2⟩

/-- `∏ t` lies in the union of the products of `ns`. -/
def Covered (t : List (Set α)) (ns : List (List (Set α))) : Prop :=
  ∀ vs ∈ listProd t, ∃ n ∈ ns, vs ∈ listProd n

theorem covered_cons {t h : List (Set α)} {ns : List (List (Set α))} (hlen : t.length = h.length) :
    Covered t (h :: ns) ↔ ∀ i < t.length, Covered (cutAt t h i) ns := by
  constructor
  · intro hc i hi vs hvs
    obtain ⟨hin, hout⟩ := mem_of_mem_cutAt hlen hi hvs
    obtain ⟨n, hn, hmem⟩ := hc vs hin
    rcases List.mem_cons.mp hn with rfl | hn
    · exact absurd hmem hout
    · exact ⟨n, hn, hmem⟩
  · intro hc vs hvs
    by_cases hh : vs ∈ listProd h
    · exact ⟨h, .head _, hh⟩
    · obtain ⟨i, hi, hmem⟩ := exists_mem_cutAt hlen hvs hh
      obtain ⟨n, hn, hmem⟩ := hc i hi vs hmem
      exact ⟨n, .tail _ hn, hmem⟩

theorem listProd_nonempty_iff {t : List (Set α)} : (listProd t).Nonempty ↔ ∀ s ∈ t, s.Nonempty := by
  induction t with
  | nil => exact ⟨fun _ s hs => (nomatch hs), fun _ => ⟨[], nil_mem_listProd⟩⟩
  | cons s t ih =>
    constructor
    · rintro ⟨vs, hvs⟩
      cases hvs with
      | @cons v _ vs _ hv hvs =>
        intro s' hs'
        rcases List.mem_cons.mp hs' with rfl | hs'
        · exact ⟨v, hv⟩
        · exact ih.mp ⟨vs, hvs⟩ s' hs'
    · intro h
      obtain ⟨v, hv⟩ := h s (.head _)
      obtain ⟨vs, hvs⟩ := ih.mpr fun s' hs' => h s' (.tail _ hs')
      exact ⟨v :: vs, cons_mem_listProd.mpr ⟨hv, hvs⟩⟩

/-- A product with an empty coordinate is covered by anything. -/
theorem covered_of_empty {t : List (Set α)} {ns : List (List (Set α))} {s : Set α} (hs : s ∈ t)
    (h : s = ∅) : Covered t ns := by
  intro vs hvs
  have := listProd_nonempty_iff.mp ⟨vs, hvs⟩ s hs
  rw [h] at this
  exact absurd this Set.not_nonempty_empty

theorem not_covered_nil {t : List (Set α)} (h : ∀ s ∈ t, s.Nonempty) : ¬Covered t [] := by
  intro hc
  obtain ⟨vs, hvs⟩ := listProd_nonempty_iff.mpr h
  obtain ⟨n, hn, -⟩ := hc vs hvs
  exact nomatch hn

/-- A product disjoint from `∏ t` on one coordinate takes nothing away from it. -/
theorem covered_cons_of_disjoint {t h : List (Set α)} {ns : List (List (Set α))}
    (hd : ∃ p ∈ h.zip t, p.2 ∩ p.1 = ∅) : Covered t (h :: ns) ↔ Covered t ns := by
  have hdisj : ∀ {t h : List (Set α)}, (∃ p ∈ h.zip t, p.2 ∩ p.1 = ∅) →
      ∀ vs, vs ∈ listProd t → vs ∈ listProd h → False := by
    intro t
    induction t with
    | nil =>
      intro h hd
      simp at hd
    | cons s t ih =>
      intro h hd vs hvs hhs
      cases h with
      | nil => simp at hd
      | cons g h =>
        cases hvs with
        | @cons v _ vs _ hv hvs =>
          obtain ⟨hg, hhs⟩ := cons_mem_listProd.mp hhs
          obtain ⟨p, hp, he⟩ := hd
          rw [List.zip_cons_cons] at hp
          rcases List.mem_cons.mp hp with rfl | hp
          · have hmem : v ∈ s ∩ g := ⟨hv, hg⟩
            rw [show s ∩ g = ∅ from he] at hmem
            exact hmem
          · exact ih ⟨p, hp, he⟩ vs hvs hhs
  constructor
  · intro hc vs hvs
    obtain ⟨n, hn, hmem⟩ := hc vs hvs
    rcases List.mem_cons.mp hn with rfl | hn
    · exact (hdisj hd vs hvs hmem).elim
    · exact ⟨n, hn, hmem⟩
  · intro hc vs hvs
    obtain ⟨n, hn, hmem⟩ := hc vs hvs
    exact ⟨n, .tail _ hn, hmem⟩

/-- A set outside each of finitely many sets has a finite sequence that is outside all of them. -/
theorem exists_list_outside {s : Set α} {ts : List (Set α)} (h : ∀ t ∈ ts, ¬s ⊆ t) :
    ∃ vs : List α, (∀ v ∈ vs, v ∈ s) ∧ ∀ t ∈ ts, ∃ v ∈ vs, v ∉ t := by
  induction ts with
  | nil => exact ⟨[], fun _ hv => (nomatch hv), fun _ ht => (nomatch ht)⟩
  | cons t ts ih =>
    obtain ⟨v, hv, hout⟩ := Set.not_subset.mp (h t (.head _))
    obtain ⟨vs, hin, houts⟩ := ih fun t ht => h t (.tail _ ht)
    refine ⟨v :: vs, List.forall_mem_cons.mpr ⟨hv, hin⟩, ?_⟩
    refine List.forall_mem_cons.mpr ⟨⟨v, .head _, hout⟩, fun t ht => ?_⟩
    obtain ⟨w, hw, hw'⟩ := houts t ht
    exact ⟨w, .tail _ hw, hw'⟩

/-! ## One coordinate of a product -/

/-- The sequences that are in a product as far as the coordinates other than `k` go. -/
def offCoord (k : Nat) (t : List (Set α)) : Set (List α) :=
  {vs | vs.length = t.length ∧
    ∀ (i : Nat) (v : α) (s : Set α), i ≠ k → vs[i]? = some v → t[i]? = some s → v ∈ s}

theorem mem_listProd_iff {vs : List α} {t : List (Set α)} : vs ∈ listProd t ↔ vs.length = t.length ∧
      ∀ (i : Nat) (v : α) (s : Set α), vs[i]? = some v → t[i]? = some s → v ∈ s := by
  induction t generalizing vs with
  | nil =>
    cases vs with
    | nil => simp
    | cons v vs => exact ⟨fun h => (nomatch h), fun h => (nomatch h.1)⟩
  | cons s t ih =>
    cases vs with
    | nil => exact ⟨fun h => (nomatch h), fun h => (nomatch h.1)⟩
    | cons v vs =>
      rw [cons_mem_listProd, ih, List.length_cons, List.length_cons, Nat.succ_inj]
      constructor
      · rintro ⟨hv, hlen, hrest⟩
        refine ⟨hlen, fun i w g hw hg => ?_⟩
        cases i with
        | zero =>
          cases hw
          cases hg
          exact hv
        | succ i => exact hrest i w g hw hg
      · rintro ⟨hlen, h⟩
        exact ⟨h 0 v s rfl rfl, hlen, fun i w g hw hg => h (i + 1) w g hw hg⟩

theorem mem_listProd_set {t : List (Set α)} {k : Nat} (hk : k < t.length) {u : Set α}
    {vs : List α} :
    vs ∈ listProd (t.set k u) ↔ (∃ v, vs[k]? = some v ∧ v ∈ u) ∧ vs ∈ offCoord k t := by
  rw [mem_listProd_iff, List.length_set]
  constructor
  · rintro ⟨hlen, hin⟩
    refine ⟨⟨vs[k], List.getElem?_eq_getElem (hlen ▸ hk), ?_⟩, hlen, fun i v s hne hv hs => ?_⟩
    · exact hin k _ u (List.getElem?_eq_getElem _) (List.getElem?_set_self hk)
    · exact hin i v s hv (by rw [List.getElem?_set_ne (Ne.symm hne), hs])
  · rintro ⟨⟨v, hv, hu⟩, hlen, hoff⟩
    refine ⟨hlen, fun i w s hw hs => ?_⟩
    by_cases hne : i = k
    · subst hne
      cases hv.symm.trans hw
      rw [List.getElem?_set_self hk] at hs
      cases hs
      exact hu
    · rw [List.getElem?_set_ne (Ne.symm hne)] at hs
      exact hoff i w s hne hw hs

/-- A product is what its coordinate `k` and the other coordinates say. -/
theorem mem_listProd_at {t : List (Set α)} {k : Nat} {s : Set α} (hs : t[k]? = some s)
    {vs : List α} : vs ∈ listProd t ↔ (∃ v, vs[k]? = some v ∧ v ∈ s) ∧ vs ∈ offCoord k t := by
  obtain ⟨hk, heq⟩ := List.getElem?_eq_some_iff.mp hs
  rw [← mem_listProd_set hk, ← heq, List.set_getElem_self]

/-- A coordinate of a product with points takes any value on its own. -/
theorem exists_mem_listProd_at {t : List (Set α)} {k : Nat} {s : Set α} (hs : t[k]? = some s)
    (hne : (listProd t).Nonempty) {v : α} (hv : v ∈ s) : ∃ vs ∈ listProd t, vs[k]? = some v := by
  obtain ⟨ws, hws⟩ := hne
  obtain ⟨-, hlen, hoff⟩ := (mem_listProd_at hs).mp hws
  have hk : k < ws.length := hlen ▸ (List.getElem?_eq_some_iff.mp hs).1
  have hself : (ws.set k v)[k]? = some v := List.getElem?_set_self hk
  refine ⟨ws.set k v, (mem_listProd_at hs).mpr ⟨⟨v, hself, hv⟩, ?_, fun i w g hi hw hg => ?_⟩,
    hself⟩
  · rw [List.length_set, hlen]
  · rw [List.getElem?_set_ne (Ne.symm hi)] at hw
    exact hoff i w g hi hw hg

/-- A product with points is inside another one only coordinate by coordinate. -/
theorem subset_of_listProd_subset {t h : List (Set α)} (hne : (listProd t).Nonempty)
    (hsub : listProd t ⊆ listProd h) : t.length = h.length ∧
      ∀ (k : Nat) (s g : Set α), t[k]? = some s → h[k]? = some g → s ⊆ g := by
  constructor
  · obtain ⟨ws, hws⟩ := hne
    exact (length_of_mem_listProd hws).symm.trans (length_of_mem_listProd (hsub hws))
  · intro k s g hs hg v hv
    obtain ⟨vs, hvs, hk⟩ := exists_mem_listProd_at hs hne hv
    exact (mem_listProd_iff.mp (hsub hvs)).2 k v g hk hg

theorem offCoord_mono {k : Nat} {t h : List (Set α)} (hlen : t.length = h.length)
    (hsub : ∀ i u w, i ≠ k → t[i]? = some u → h[i]? = some w → u ⊆ w) :
    offCoord k t ⊆ offCoord k h := by
  rintro vs ⟨hl, hoff⟩
  refine ⟨hl.trans hlen, fun i v w hne hv hw => ?_⟩
  have hi : i < t.length := hlen ▸ (List.getElem?_eq_some_iff.mp hw).1
  have hti := List.getElem?_eq_getElem hi
  exact hsub i _ w hne hti hw (hoff i v _ hne hv hti)

/-- Products that differ in at most one coordinate unite to one product. -/
theorem mem_listProd_set_union {t h : List (Set α)} {k : Nat} {s g u : Set α}
    (hlen : t.length = h.length) (hs : t[k]? = some s) (hg : h[k]? = some g)
    (hrest : ∀ i, i ≠ k → t[i]? = h[i]?) (hu : ∀ v, v ∈ u ↔ v ∈ s ∨ v ∈ g) {vs : List α} :
    vs ∈ listProd (t.set k u) ↔ vs ∈ listProd t ∨ vs ∈ listProd h := by
  have hoff : offCoord k t = offCoord k h := by
    apply Set.Subset.antisymm
    · refine offCoord_mono hlen fun i a b hne ha hb => ?_
      rw [hrest i hne, hb] at ha
      cases ha
      exact subset_rfl
    · refine offCoord_mono hlen.symm fun i a b hne ha hb => ?_
      rw [← hrest i hne, hb] at ha
      cases ha
      exact subset_rfl
  rw [mem_listProd_set (List.getElem?_eq_some_iff.mp hs).1, mem_listProd_at hs, mem_listProd_at hg,
    hoff, ← or_and_right]
  simp only [hu, and_or_left, exists_or]

/-- A product that is inside another one in all coordinates but one loses, there, what is outside
the other one. -/
theorem mem_listProd_set_diff {t h : List (Set α)} {k : Nat} {s g u : Set α}
    (hlen : t.length = h.length) (hs : t[k]? = some s) (hg : h[k]? = some g)
    (hrest : ∀ i a b, i ≠ k → t[i]? = some a → h[i]? = some b → a ⊆ b)
    (hu : ∀ v, v ∈ u ↔ v ∈ s ∧ v ∉ g) {vs : List α} :
    vs ∈ listProd (t.set k u) ↔ vs ∈ listProd t ∧ vs ∉ listProd h := by
  rw [mem_listProd_set (List.getElem?_eq_some_iff.mp hs).1, mem_listProd_at hs, mem_listProd_at hg]
  constructor
  · rintro ⟨⟨v, hv, hmem⟩, hoff⟩
    refine ⟨⟨⟨v, hv, ((hu v).mp hmem).1⟩, hoff⟩, ?_⟩
    rintro ⟨⟨w, hw, hwg⟩, -⟩
    cases hv.symm.trans hw
    exact ((hu v).mp hmem).2 hwg
  · rintro ⟨⟨⟨v, hv, hmem⟩, hoff⟩, hout⟩
    refine ⟨⟨v, hv, (hu v).mpr ⟨hmem, fun hvg => ?_⟩⟩, hoff⟩
    exact hout ⟨⟨v, hv, hvg⟩, offCoord_mono hlen hrest hoff⟩

/-- A product grows with a coordinate. -/
theorem mem_listProd_set_of_mem {t : List (Set α)} {k : Nat} {s u : Set α} (hs : t[k]? = some s)
    (hu : s ⊆ u) {vs : List α} (h : vs ∈ listProd t) : vs ∈ listProd (t.set k u) := by
  rw [mem_listProd_set (List.getElem?_eq_some_iff.mp hs).1]
  obtain ⟨⟨v, hv, hmem⟩, hoff⟩ := (mem_listProd_at hs).mp h
  exact ⟨⟨v, hv, hu hmem⟩, hoff⟩

end Fz.Base
