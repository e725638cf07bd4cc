import Mathlib.Data.List.Basic
import Mathlib.Data.List.Forall2
import Mathlib.Data.List.GetD

/-!
# Lists

A table that is only appended to is a prefix of its later states.  What was read at an
index stays there.  Lists related element by element have a partner for each element.
-/

namespace Fz.Base

variable {α β : Type*}

theorem getElem?_grow {xs ys : List α} (h : xs <+: ys) {i : Nat} {a : α}
    (ha : xs[i]? = some a) : ys[i]? = some a := by
  obtain ⟨more, rfl⟩ := h
  rw [List.getElem?_append_left (List.getElem?_eq_some_iff.mp ha).1, ha]

theorem getElem?_append_length (xs : List α) (a : α) : (xs ++ [a])[xs.length]? = some a := by
  simp

theorem getElem?_concat_cases {xs : List α} {a b : α} {i : Nat} (h : (xs ++ [a])[i]? = some b) :
    xs[i]? = some b ∨ i = xs.length ∧ b = a := by
  rcases Nat.lt_trichotomy i xs.length with hi | rfl | hi
  · rw [List.getElem?_append_left hi] at h
    exact .inl h
  · rw [getElem?_append_length] at h
    exact .inr ⟨rfl, (Option.some.inj h).symm⟩
  · have hlen : (xs ++ [a]).length ≤ i := by
      rw [List.length_append, List.length_singleton]
      omega
    rw [List.getElem?_eq_none hlen] at h
    cases h

/-- A key that is not there yet does not hide another one. -/
theorem lookup_cons_of_none [BEq α] [LawfulBEq α] {k k' : α} {v v' : β} {xs : List (α × β)}
    (hk : xs.lookup k = none) (h : xs.lookup k' = some v') :
    ((k, v) :: xs).lookup k' = some v' := by
  have hne : k' ≠ k := by
    rintro rfl
    rw [hk] at h
    cases h
  have hb : (k' == k) = false := by simpa using hne
  rw [List.lookup_cons, hb]
  exact h

theorem lookup_cons_cases [BEq α] [LawfulBEq α] {k k' : α} {v v' : β} {xs : List (α × β)}
    (h : ((k, v) :: xs).lookup k' = some v') : k' = k ∧ v' = v ∨ xs.lookup k' = some v' := by
  rw [List.lookup_cons] at h
  by_cases hk : k' = k
  · simp only [hk, BEq.rfl] at h
    cases h
    exact .inl ⟨hk, rfl⟩
  · have hb : (k' == k) = false := by simpa using hk
    rw [hb] at h
    exact .inr h

/-- With each key listed once, a key is found with exactly the values it is listed with. -/
theorem lookup_eq_some_iff_mem [BEq α] [LawfulBEq α] {k : α} {v : β} {xs : List (α × β)}
    (h : (xs.map Prod.fst).Nodup) : xs.lookup k = some v ↔ (k, v) ∈ xs := by
  induction xs with
  | nil => simp
  | cons x xs ih =>
    obtain ⟨k', v'⟩ := x
    rw [List.map_cons, List.nodup_cons] at h
    rw [List.lookup_cons, List.mem_cons, Prod.mk.injEq]
    by_cases hk : k = k'
    · subst hk
      have hnot : (k, v) ∉ xs := fun hmem => h.1 (List.mem_map.mpr ⟨_, hmem, rfl⟩)
      simp [hnot, eq_comm]
    · have hb : (k == k') = false := by simpa using hk
      simp [hb, hk, ih h.2]

theorem getD_mem {xs : List α} {k : Nat} (hk : k < xs.length) (default : α) :
    xs.getD k default ∈ xs := by
  rw [List.getD_eq_getElem _ _ hk]
  exact List.getElem_mem hk

theorem getElem?_map_getD {xs : List α} {k : Nat} (hk : k < xs.length) (f : α → β)
    (default : α) : (xs.map f)[k]? = some (f (xs.getD k default)) := by
  rw [List.getElem?_map, List.getElem?_eq_getElem hk, List.getD_eq_getElem _ _ hk]
  rfl

theorem any_congr_mem {f g : α → Bool} {l : List α} (h : ∀ x ∈ l, f x = g x) :
    l.any f = l.any g := by
  induction l with
  | nil => rfl
  | cons x l ih =>
    obtain ⟨hx, hl⟩ := List.forall_mem_cons.mp h
    rw [List.any_cons, List.any_cons, hx, ih hl]

theorem all_congr_mem {f g : α → Bool} {l : List α} (h : ∀ x ∈ l, f x = g x) :
    l.all f = l.all g := by
  induction l with
  | nil => rfl
  | cons x l ih =>
    obtain ⟨hx, hl⟩ := List.forall_mem_cons.mp h
    rw [List.all_cons, List.all_cons, hx, ih hl]

/-- Two elements of a list without repetition stand in one order only. -/
theorem not_sublist_swap {l : List α} (h : l.Nodup) {a b : α} (hab : [a, b].Sublist l) :
    ¬[b, a].Sublist l := by
  induction l with
  | nil => cases hab
  | cons c l ih =>
    obtain ⟨hc, hl⟩ := List.nodup_cons.mp h
    intro hba
    cases hab with
    | cons _ hab =>
      cases hba with
      | cons _ hba => exact ih hl hab hba
      | cons_cons _ hba => exact hc (hab.subset (.tail _ (.head _)))
    | cons_cons _ hab =>
      cases hba with
      | cons _ hba => exact hc (hba.subset (.tail _ (.head _)))
      | cons_cons _ hba => exact hc (hba.subset (.head _))

theorem exists_of_forall₂_left {R : α → β → Prop} {xs : List α} {ys : List β}
    (h : List.Forall₂ R xs ys) {x : α} (hx : x ∈ xs) : ∃ y ∈ ys, R x y := by
  induction h with
  | nil => cases hx
  | @cons a b _ _ hab _ ih =>
    cases hx with
    | head => exact ⟨b, List.mem_cons_self, hab⟩
    | tail _ hx =>
      obtain ⟨y, hy, hxy⟩ := ih hx
      exact ⟨y, List.mem_cons_of_mem b hy, hxy⟩

theorem exists_of_forall₂_right {R : α → β → Prop} {xs : List α} {ys : List β}
    (h : List.Forall₂ R xs ys) {y : β} (hy : y ∈ ys) : ∃ x ∈ xs, R x y :=
  exists_of_forall₂_left h.flip hy

theorem forall₂_comp {γ : Type*} {R : α → β → Prop} {S : β → γ → Prop} {xs : List α} {ys : List β}
    {zs : List γ} (h : List.Forall₂ R xs ys) (h' : List.Forall₂ S ys zs) :
    List.Forall₂ (fun x z => ∃ y, R x y ∧ S y z) xs zs := by
  induction h generalizing zs with
  | nil =>
    cases h'
    exact .nil
  | @cons _ y _ _ hxy _ ih =>
    cases h' with
    | cons hyz h' => exact .cons ⟨y, hxy, hyz⟩ (ih h')

theorem exists_pair_of_forall₂ {R : α → β → Prop} {l : List α} {m : List β}
    (h : List.Forall₂ R l m) {a b : α} (hab : [a, b].Sublist l) :
    ∃ x y, [x, y].Sublist m ∧ R a x ∧ R b y := by
  induction h with
  | nil => cases hab
  | @cons c d l m hcd h ih =>
    cases hab with
    | cons _ hab =>
      obtain ⟨x, y, hxy, hax, hby⟩ := ih hab
      exact ⟨x, y, hxy.cons d, hax, hby⟩
    | cons_cons _ hab =>
      obtain ⟨y, hy, hby⟩ := exists_of_forall₂_left h (hab.subset (.head _))
      exact ⟨d, y, .cons_cons d (List.singleton_sublist.mpr hy), hcd, hby⟩

theorem append_of_forall₂ {R : α → β → Prop} {xs ys : List α} {zs : List β}
    (h : List.Forall₂ R (xs ++ ys) zs) :
    ∃ us vs, zs = us ++ vs ∧ List.Forall₂ R xs us ∧ List.Forall₂ R ys vs :=
  ⟨zs.take xs.length, zs.drop xs.length, (List.take_append_drop _ zs).symm,
    List.forall₂_take_append zs xs ys h.flip |>.flip,
    List.forall₂_drop_append zs xs ys h.flip |>.flip⟩

theorem getElem?_of_forall₂ {R : α → β → Prop} {xs : List α} {ys : List β}
    (h : List.Forall₂ R xs ys) {i : Nat} {y : β} (hy : ys[i]? = some y) :
    ∃ x, xs[i]? = some x ∧ R x y := by
  induction h generalizing i with
  | nil => exact nomatch hy
  | @cons a b _ _ hab _ ih =>
    cases i with
    | zero =>
      cases hy
      exact ⟨a, rfl, hab⟩
    | succ i => exact ih hy

theorem forall₂_imp_mem {R S : α → β → Prop} {xs : List α} {ys : List β}
    (h : List.Forall₂ R xs ys) (hRS : ∀ x ∈ xs, ∀ y, R x y → S x y) : List.Forall₂ S xs ys := by
  induction h with
  | nil => exact .nil
  | @cons a b _ _ hab _ ih =>
    exact .cons (hRS a List.mem_cons_self b hab) (ih fun x hx => hRS x (List.mem_cons_of_mem a hx))

theorem map_eq_of_forall₂ {γ : Type*} {R : α → β → Prop} {f : α → γ} {g : β → γ} {xs : List α}
    {ys : List β} (h : List.Forall₂ R xs ys) (hfg : ∀ x ∈ xs, ∀ y, R x y → g y = f x) :
    ys.map g = xs.map f := by
  induction h with
  | nil => rfl
  | @cons a b xs _ hab _ ih =>
    rw [List.map_cons, List.map_cons, hfg a List.mem_cons_self b hab,
      ih fun x hx => hfg x (List.mem_cons_of_mem a hx)]

/-- What one step of a fold puts in stays in, when no step takes it out. -/
theorem foldl_of_step {P : α → Prop} {step : α → β → α} (hkeep : ∀ a b, P a → P (step a b))
    {bs : List β} {b : β} (hb : b ∈ bs) (hput : ∀ a, P (step a b)) (a : α) :
    P (bs.foldl step a) := by
  obtain ⟨before, after, rfl⟩ := List.append_of_mem hb
  rw [List.foldl_append, List.foldl_cons]
  generalize before.foldl step a = a'
  have hrest : ∀ (cs : List β) (a : α), P a → P (cs.foldl step a) := by
    intro cs
    induction cs with
    | nil => exact fun _ h => h
    | cons c cs ih => exact fun a h => ih _ (hkeep a c h)
  exact hrest after _ (hput a')

end Fz.Base
