import Fz.Base.List
import Mathlib.Data.List.Basic
import Mathlib.Data.List.Forall2
import Mathlib.Data.List.Induction
import Mathlib.Data.List.Pairwise
import Mathlib.Data.List.Sort

/-!
# Antichains by insertion

Elements arrive one after another, and a list keeps those that no other one dominates.  An element
that says the same as a listed one, or that a listed one dominates, is not listed.  One that is
listed removes those it dominates.

The list is an antichain whatever the two judgements are.  It covers everything that arrived, in a
relation that both judgements imply, if that relation is transitive through the elements removed.

Two antichains that cover each other match one to one.  If both are sorted, they match in their
order, provided that the order does not tell apart the elements that match.
-/

namespace Fz.Base

variable {α : Type*} (same dominated : α → α → Bool)

/-- Offer an element to a list. -/
def offer (rows : List α) (row : α) : List α :=
  if rows.any fun standing => same standing row then rows
  else if rows.any fun standing => dominated row standing then rows
  else rows.filter (fun standing => !dominated standing row) ++ [row]

/-- Neither of two elements dominates the other. -/
def Incomparable (a b : α) : Prop := dominated a b = false ∧ dominated b a = false

variable {same dominated} {rows : List α} {row : α}

theorem mem_of_mem_offer {x : α} (h : x ∈ offer same dominated rows row) : x ∈ rows ∨ x = row := by
  unfold offer at h
  split at h
  · exact .inl h
  · split at h
    · exact .inl h
    · rcases List.mem_append.mp h with h | h
      · exact .inl (List.mem_of_mem_filter h)
      · exact .inr (List.mem_singleton.mp h)

theorem offer_incomparable (h : rows.Pairwise (Incomparable dominated)) :
    (offer same dominated rows row).Pairwise (Incomparable dominated) := by
  unfold offer
  split
  · exact h
  · split
    · exact h
    · rename_i hnew
      refine List.pairwise_append.mpr ⟨h.filter _, List.pairwise_singleton _ _, ?_⟩
      intro a ha b hb
      rw [List.mem_singleton.mp hb]
      obtain ⟨hmem, hkept⟩ := List.mem_filter.mp ha
      refine ⟨by simpa using hkept, ?_⟩
      rw [Bool.not_eq_true] at hnew
      exact Bool.eq_false_iff.mpr fun hdom => Bool.eq_false_iff.mp hnew
        (List.any_eq_true.mpr ⟨a, hmem, hdom⟩)

/-- What was covered stays covered, and the element itself is covered. -/
theorem offer_covers {R : α → α → Prop} (hrefl : R row row)
    (hsame : ∀ s ∈ rows, same s row = true → R row s)
    (hbelow : ∀ s ∈ rows, dominated row s = true → R row s)
    (habove : ∀ s ∈ rows, dominated s row = true → R s row) {P : α → Prop}
    (htrans : ∀ r, P r → ∀ s ∈ rows, R r s → R s row → R r row)
    (hcovered : ∀ r, P r → ∃ s ∈ rows, R r s) :
    ∀ r, P r ∨ r = row → ∃ s ∈ offer same dominated rows row, R r s := by
  unfold offer
  split
  · rename_i hany
    rintro r (hr | rfl)
    · exact hcovered r hr
    · obtain ⟨s, hs, heq⟩ := List.any_eq_true.mp hany
      exact ⟨s, hs, hsame s hs heq⟩
  · split
    · rename_i hany
      rintro r (hr | rfl)
      · exact hcovered r hr
      · obtain ⟨s, hs, hdom⟩ := List.any_eq_true.mp hany
        exact ⟨s, hs, hbelow s hs hdom⟩
    · rintro r (hr | rfl)
      · obtain ⟨s, hs, hrs⟩ := hcovered r hr
        cases hdom : dominated s row with
        | true =>
          refine ⟨row, List.mem_append_right _ (List.mem_singleton_self row), ?_⟩
          exact htrans r hr s hs hrs (habove s hs hdom)
        | false =>
          refine ⟨s, List.mem_append_left _ (List.mem_filter.mpr ⟨hs, ?_⟩), hrs⟩
          rw [hdom]
          rfl
      · exact ⟨r, List.mem_append_right _ (List.mem_singleton_self r), hrefl⟩

theorem offer_congr {same' dominated' : α → α → Bool} (h : ∀ s ∈ rows,
    same s row = same' s row ∧ dominated row s = dominated' row s ∧
      dominated s row = dominated' s row) :
    offer same dominated rows row = offer same' dominated' rows row := by
  have hsame := any_congr_mem fun s hs => (h s hs).1
  have hbelow := any_congr_mem fun s hs => (h s hs).2.1
  have habove : rows.filter (fun s => !dominated s row) = rows.filter fun s => !dominated' s row :=
    List.filter_congr fun s hs => by rw [(h s hs).2.2]
  rw [offer, hsame, hbelow, habove, offer]

theorem offer_perm {rows' : List α} (h : rows.Perm rows') :
    (offer same dominated rows row).Perm (offer same dominated rows' row) := by
  have hany : ∀ p : α → Bool, rows.any p = rows'.any p := fun p => by
    rw [Bool.eq_iff_iff, List.any_eq_true, List.any_eq_true]
    exact exists_congr fun x => and_congr_left fun _ => h.mem_iff
  unfold offer
  rw [hany, hany]
  split
  · exact h
  · split
    · exact h
    · exact (h.filter _).append_right _

theorem eq_of_dominated (h : rows.Pairwise (Incomparable dominated)) {a b : α} (ha : a ∈ rows)
    (hb : b ∈ rows) (hab : dominated a b = true) : a = b := by
  by_contra hne
  have hsymm : Std.Symm (Incomparable dominated) := ⟨fun _ _ hxy => ⟨hxy.2, hxy.1⟩⟩
  have hinc := h.forall ha hb hne
  exact Bool.false_ne_true (hinc.1.symm.trans hab)

/-! ## Antichains that cover each other -/

/-- Each of two elements dominates the other. -/
def Mutual (dominated : α → α → Bool) (a b : α) : Prop :=
  dominated a b = true ∧ dominated b a = true

theorem exists_mutual {rows' : List α} (h : rows.Pairwise (Incomparable dominated))
    (htrans : ∀ a ∈ rows, ∀ b ∈ rows', ∀ c ∈ rows, dominated a b = true → dominated b c = true →
      dominated a c = true) (hcovered : ∀ a ∈ rows, ∃ b ∈ rows', dominated a b = true)
    (hcovers : ∀ b ∈ rows', ∃ a ∈ rows, dominated b a = true) {a : α} (ha : a ∈ rows) :
    ∃ b ∈ rows', Mutual dominated a b := by
  obtain ⟨b, hb, hab⟩ := hcovered a ha
  obtain ⟨c, hc, hbc⟩ := hcovers b hb
  obtain rfl := eq_of_dominated h ha hc (htrans a ha b hb c hc hab hbc)
  exact ⟨b, hb, hab, hbc⟩

section Sorted

variable {match' le : α → α → Prop} {left right : List α}

/-- Two sorted lists whose elements match one to one match in their order, if elements that match
are not told apart by the order. -/
theorem forall₂_of_sorted (htotal : ∀ a b, le a b ∨ le b a)
    (hleft : left.Pairwise le) (hright : right.Pairwise le)
    (hnodup : left.Nodup) (hnodup' : right.Nodup)
    (hto : ∀ a ∈ left, ∃ b ∈ right, match' a b) (hfrom : ∀ b ∈ right, ∃ a ∈ left, match' a b)
    (hunique : ∀ a ∈ left, ∀ b ∈ right, ∀ b' ∈ right, match' a b → match' a b' → b = b')
    (halike : ∀ a ∈ left, ∀ b ∈ left, ∀ a' ∈ right, ∀ b' ∈ right, match' a a' → match' b b' →
      a ≠ b → le a b → ¬le b' a') :
    List.Forall₂ match' left right := by
  classical
  choose! f hf hmatch using hto
  -- both lists increase strictly and have the same elements
  have hmap : (left.map f).Pairwise fun a b => ¬le b a := by
    rw [List.pairwise_map]
    refine (hleft.and hnodup).imp_of_mem fun {a b} ha hb hab => ?_
    exact halike a ha b hb (f a) (hf a ha) (f b) (hf b hb) (hmatch a ha) (hmatch b hb) hab.2 hab.1
  have hstrict : right.Pairwise fun a b => ¬le b a := by
    refine (hright.and hnodup').imp_of_mem fun {x y} hx hy hxy hyx => ?_
    obtain ⟨a, ha, hax⟩ := hfrom x hx
    obtain ⟨b, hb, hby⟩ := hfrom y hy
    have hne : a ≠ b := by
      rintro rfl
      exact hxy.2 (hunique a ha x hx y hy hax hby)
    rcases htotal a b with hab | hba
    · exact halike a ha b hb x hx y hy hax hby hne hab hyx
    · exact halike b hb a ha y hy x hx hby hax hne.symm hba hxy.1
  have hmem : ∀ x, x ∈ left.map f ↔ x ∈ right := by
    intro x
    constructor
    · intro hx
      obtain ⟨a, ha, rfl⟩ := List.mem_map.mp hx
      exact hf a ha
    · intro hx
      obtain ⟨a, ha, hax⟩ := hfrom x hx
      exact List.mem_map.mpr ⟨a, ha, hunique a ha _ (hf a ha) x hx (hmatch a ha) hax⟩
  have hirrefl : Std.Irrefl fun a b => ¬le b a := ⟨fun a => not_not.mpr ((htotal a a).elim id id)⟩
  have hantisymm : Std.Antisymm fun a b => ¬le b a :=
    ⟨fun a b hab hba => absurd (htotal a b) (not_or.mpr ⟨hba, hab⟩)⟩
  rw [← hmap.eq_of_mem_iff hstrict hmem, List.forall₂_map_right_iff, List.forall₂_same]
  exact hmatch

end Sorted

/-! ## Whole sequences -/

section Sequences

variable (same dominated)

/-- What is listed after a sequence of elements arrived. -/
def survivors (arrived : List α) : List α := arrived.foldl (offer same dominated) []

/-- At no point of a sequence are more than `n` elements listed. -/
def Within (n : Nat) (arrived : List α) : Prop :=
  ∀ before, before <+: arrived → (survivors same dominated before).length ≤ n

variable {same dominated}

theorem survivors_snoc (arrived : List α) (x : α) : survivors same dominated (arrived ++ [x]) =
      offer same dominated (survivors same dominated arrived) x := by
  rw [survivors, List.foldl_append, survivors]
  rfl

theorem length_offer_le : (offer same dominated rows row).length ≤ rows.length + 1 := by
  unfold offer
  split
  · exact Nat.le_succ _
  · split
    · exact Nat.le_succ _
    · rw [List.length_append, List.length_singleton]
      exact Nat.add_le_add_right (List.length_filter_le _ _) 1

theorem length_survivors_le (arrived : List α) :
    (survivors same dominated arrived).length ≤ arrived.length := by
  induction arrived using List.reverseRecOn with
  | nil => exact le_rfl
  | append_singleton arrived y ih =>
    rw [survivors_snoc, List.length_append, List.length_singleton]
    exact length_offer_le.trans (Nat.add_le_add_right ih 1)

theorem within_of_length {n : Nat} {arrived : List α} (h : arrived.length ≤ n) :
    Within same dominated n arrived := fun before hbefore =>
  (length_survivors_le before).trans (hbefore.length_le.trans h)

theorem mem_of_mem_survivors {arrived : List α} {x : α}
    (h : x ∈ survivors same dominated arrived) : x ∈ arrived := by
  induction arrived using List.reverseRecOn with
  | nil => exact h
  | append_singleton arrived y ih =>
    rw [survivors_snoc] at h
    rcases mem_of_mem_offer h with h | rfl
    · exact List.mem_append_left _ (ih h)
    · exact List.mem_append_right _ (List.mem_singleton_self _)

theorem survivors_incomparable (arrived : List α) :
    (survivors same dominated arrived).Pairwise (Incomparable dominated) := by
  induction arrived using List.reverseRecOn with
  | nil => exact .nil
  | append_singleton arrived y ih =>
    rw [survivors_snoc]
    exact offer_incomparable ih

/-- Dominance is a preorder on a list of elements, and `same` is its equivalence. -/
structure Ordered (same dominated : α → α → Bool) (all : List α) : Prop where
  refl : ∀ a ∈ all, dominated a a = true
  trans : ∀ a ∈ all, ∀ b ∈ all, ∀ c ∈ all, dominated a b = true → dominated b c = true →
    dominated a c = true
  same_iff : ∀ a ∈ all, ∀ b ∈ all, same a b = true ↔ Mutual dominated a b

/-- An element that only elements it dominates dominate. -/
def Widest (dominated : α → α → Bool) (all : List α) (a : α) : Prop :=
  ∀ r ∈ all, dominated a r = true → dominated r a = true

variable {all arrived : List α} (h : Ordered same dominated all)

include h

theorem Ordered.survivors_cover (hsub : ∀ r ∈ arrived, r ∈ all) :
    ∀ r ∈ arrived, ∃ s ∈ survivors same dominated arrived, dominated r s = true := by
  induction arrived using List.reverseRecOn with
  | nil => exact nofun
  | append_singleton arrived x ih =>
    obtain ⟨harrived, hx⟩ := List.forall_mem_append.mp hsub
    have hx := hx x (List.mem_singleton_self x)
    have hin : ∀ s ∈ survivors same dominated arrived, s ∈ all :=
      fun s hs => harrived s (mem_of_mem_survivors hs)
    rw [survivors_snoc]
    intro r hr
    refine offer_covers (R := fun a b => dominated a b = true) (h.refl x hx) ?_
      (fun _ _ hdom => hdom) (fun _ _ hdom => hdom) (P := fun r => r ∈ arrived) ?_
      (ih harrived) r ?_
    · exact fun s hs hsame => ((h.same_iff s (hin s hs) x hx).mp hsame).2
    · exact fun r hr s hs => h.trans r (harrived r hr) s (hin s hs) x hx
    · rcases List.mem_append.mp hr with hr | hr
      · exact .inl hr
      · exact .inr (List.mem_singleton.mp hr)

/-- What is listed after everything arrived is as wide as anything. -/
theorem Ordered.widest_of_listed {rows : List α} (hrows : rows.Pairwise (Incomparable dominated))
    (hsub : ∀ r ∈ rows, r ∈ all) (hcovers : ∀ r ∈ all, ∃ s ∈ rows, dominated r s = true) {a : α}
    (ha : a ∈ rows) : Widest dominated all a := by
  intro r hr har
  obtain ⟨s, hs, hrs⟩ := hcovers r hr
  obtain rfl := eq_of_dominated hrows ha hs
    (h.trans a (hsub a ha) r hr s (hsub s hs) har hrs)
  exact hrs

/-- What is as wide as anything stays listed. -/
theorem Ordered.sublist_offer {rows pair : List α} {x : α} (hsub : ∀ r ∈ rows, r ∈ all)
    (hx : x ∈ all) (hpair : pair.Sublist rows) (hwide : ∀ a ∈ pair, Widest dominated all a) :
    pair.Sublist (offer same dominated rows x) := by
  unfold offer
  split
  · exact hpair
  · rename_i hnew
    split
    · exact hpair
    · refine List.Sublist.trans ?_ (List.sublist_append_left _ _)
      have hkept : pair.filter (fun s => !dominated s x) = pair := by
        refine List.filter_eq_self.mpr fun a ha => ?_
        have harows := hpair.subset ha
        cases hdom : dominated a x with
        | false => rfl
        | true =>
          have hsame := (h.same_iff a (hsub a harows) x hx).mpr ⟨hdom, hwide a ha x hx hdom⟩
          exact absurd (List.any_eq_true.mpr ⟨a, harows, hsame⟩) hnew
      exact hkept ▸ hpair.filter _

/-- In an antichain at most one element is as wide as a given one. -/
theorem Ordered.eq_of_mutual {rows : List α} (hrows : rows.Pairwise (Incomparable dominated))
    (hsub : ∀ r ∈ rows, r ∈ all) {a b c : α} (ha : a ∈ all) (hb : b ∈ rows) (hc : c ∈ rows)
    (hab : Mutual dominated a b) (hac : Mutual dominated a c) : b = c :=
  eq_of_dominated hrows hb hc
    (h.trans b (hsub b hb) a ha c (hsub c hc) hab.2 hac.1)

omit h in
theorem incomparable_of_widest {a b : α} (ha : a ∈ all) (hb : b ∈ all)
    (hwa : Widest dominated all a) (hwb : Widest dominated all b) (hne : ¬Mutual dominated a b) :
    Incomparable dominated a b := by
  constructor
  · exact Bool.eq_false_iff.mpr fun hab => hne ⟨hab, hwa b hb hab⟩
  · exact Bool.eq_false_iff.mpr fun hba => hne ⟨hwb a ha hba, hba⟩

/-- An antichain arrives as it is. -/
theorem Ordered.survivors_eq (hsub : ∀ r ∈ arrived, r ∈ all)
    (hinc : arrived.Pairwise (Incomparable dominated)) :
    survivors same dominated arrived = arrived := by
  induction arrived using List.reverseRecOn with
  | nil => rfl
  | append_singleton arrived x ih =>
    obtain ⟨harrived, hx⟩ := List.forall_mem_append.mp hsub
    have hx := hx x (List.mem_singleton_self x)
    obtain ⟨hpair, _, hlast⟩ := List.pairwise_append.mp hinc
    have hnew : ∀ s ∈ arrived, Incomparable dominated s x :=
      fun s hs => hlast s hs x (List.mem_singleton_self x)
    have hsame : ∀ s ∈ arrived, same s x = false := fun s hs =>
      Bool.eq_false_iff.mpr fun heq => Bool.false_ne_true
        ((hnew s hs).1.symm.trans ((h.same_iff s (harrived s hs) x hx).mp heq).1)
    rw [survivors_snoc, ih harrived hpair, offer, if_neg, if_neg]
    · congr 1
      refine List.filter_eq_self.mpr fun s hs => ?_
      rw [(hnew s hs).1]
      rfl
    · rw [List.any_eq_true]
      rintro ⟨s, hs, hdom⟩
      exact Bool.false_ne_true ((hnew s hs).2.symm.trans hdom)
    · rw [List.any_eq_true]
      rintro ⟨s, hs, heq⟩
      exact Bool.false_ne_true ((hsame s hs).symm.trans heq)

omit h in
/-- What is dominated by a listed element changes nothing. -/
theorem survivors_append_of_covered {more : List α} (hmore : ∀ r ∈ more,
    ∃ s ∈ survivors same dominated arrived, dominated r s = true) :
    survivors same dominated (arrived ++ more) = survivors same dominated arrived := by
  induction more using List.reverseRecOn with
  | nil => rw [List.append_nil]
  | append_singleton more x ih =>
    obtain ⟨hmore, hx⟩ := List.forall_mem_append.mp hmore
    rw [← List.append_assoc, survivors_snoc, ih hmore, offer]
    have hany := List.any_eq_true.mpr (hx x (List.mem_singleton_self x))
    rw [if_pos hany]
    split <;> rfl

theorem Ordered.nodup_of_incomparable {rows : List α}
    (hrows : rows.Pairwise (Incomparable dominated)) (hsub : ∀ r ∈ rows, r ∈ all) : rows.Nodup := by
  refine hrows.imp_of_mem fun {a b} ha _ hab => ?_
  rintro rfl
  exact Bool.false_ne_true (hab.1.symm.trans (h.refl a (hsub a ha)))

/-- Antichains that cover each other have the same length. -/
theorem Ordered.length_le {rows rows' : List α} (hrows : rows.Pairwise (Incomparable dominated))
    (hsub : ∀ r ∈ rows, r ∈ all) (hsub' : ∀ r ∈ rows', r ∈ all)
    (hcovered : ∀ r ∈ all, ∃ s ∈ rows', dominated r s = true)
    (hcovers : ∀ r ∈ all, ∃ s ∈ rows, dominated r s = true) : rows.length ≤ rows'.length := by
  classical
  have hmutual : ∀ a ∈ rows, ∃ b ∈ rows', Mutual dominated a b := fun a ha =>
    exists_mutual hrows
      (fun a ha b hb c hc => h.trans a (hsub a ha) b (hsub' b hb) c (hsub c hc))
      (fun r hr => hcovered r (hsub r hr)) (fun r hr => hcovers r (hsub' r hr)) ha
  choose! f hf hmatch using hmutual
  have hnodup : (rows.map f).Nodup := by
    rw [List.nodup_map_iff_inj_on (h.nodup_of_incomparable hrows hsub)]
    intro a ha b hb heq
    have hb' := hmatch b hb
    rw [← heq] at hb'
    exact h.eq_of_mutual hrows hsub (hsub' _ (hf a ha)) ha hb ⟨(hmatch a ha).2, (hmatch a ha).1⟩
      ⟨hb'.2, hb'.1⟩
  have hsubset : rows.map f ⊆ rows' := by
    intro x hx
    obtain ⟨a, ha, rfl⟩ := List.mem_map.mp hx
    exact hf a ha
  rw [← List.length_map (f := f)]
  exact (List.subperm_of_subset hnodup hsubset).length_le

/-- An antichain that covers everything can arrive first. -/
theorem Ordered.within_append {lead rest : List α}
    (hlead : lead.Pairwise (Incomparable dominated)) (hsub : ∀ r ∈ lead, r ∈ all)
    (hcovers : ∀ r ∈ all, ∃ s ∈ lead, dominated r s = true) (hrest : ∀ r ∈ rest, r ∈ all) :
    Within same dominated lead.length (lead ++ rest) := by
  have hall := h.survivors_eq hsub hlead
  intro before hbefore
  rcases List.prefix_or_prefix_of_prefix hbefore (List.prefix_append lead rest) with
    hshort | ⟨more, rfl⟩
  · rw [h.survivors_eq (fun r hr => hsub r (hshort.subset hr)) (hlead.sublist hshort.sublist)]
    exact hshort.length_le
  · have hmore : more <+: rest := (List.prefix_append_right_inj lead).mp hbefore
    rw [survivors_append_of_covered, hall]
    rw [hall]
    exact fun r hr => hcovers r (hrest r (hmore.subset hr))

/-- If some sequence of all elements stays within a bound, so does one that starts with two given
elements, provided both are as wide as anything and not the same. -/
theorem Ordered.exists_within {n : Nat} {order : List α} (horder : order.Perm all)
    (hwithin : Within same dominated n order) {a b : α} (ha : a ∈ all) (hb : b ∈ all)
    (hwa : Widest dominated all a) (hwb : Widest dominated all b) (hne : ¬Mutual dominated a b) :
    ∃ order', order'.Perm all ∧ Within same dominated n order' ∧ [a, b] <+: order' := by
  classical
  have hinc : (survivors same dominated order).Pairwise (Incomparable dominated) :=
    survivors_incomparable order
  have hcovers := h.survivors_cover fun r hr => horder.mem_iff.mp hr
  have hsub : ∀ s ∈ survivors same dominated order, s ∈ all :=
    fun s hs => horder.mem_iff.mp (mem_of_mem_survivors hs)
  have hlength : (survivors same dominated order).length ≤ n := hwithin order List.prefix_rfl
  generalize survivors same dominated order = listed at hinc hcovers hsub hlength
  replace hcovers : ∀ r ∈ all, ∃ s ∈ listed, dominated r s = true :=
    fun r hr => hcovers r (horder.mem_iff.mpr hr)
  -- the two elements take the place of the listed elements that are as wide
  let others := listed.filter fun s => ¬Mutual dominated a s ∧ ¬Mutual dominated b s
  have hothers : ∀ s ∈ others, s ∈ listed ∧ ¬Mutual dominated a s ∧ ¬Mutual dominated b s := by
    intro s hs
    obtain ⟨hs, hdiffers⟩ := List.mem_filter.mp hs
    exact ⟨hs, of_decide_eq_true hdiffers⟩
  have hwidest : ∀ s ∈ listed, Widest dominated all s :=
    fun s hs => h.widest_of_listed hinc hsub hcovers hs
  have hlead : (a :: b :: others).Pairwise (Incomparable dominated) := by
    refine .cons ?_ (.cons ?_ (hinc.filter _))
    · rintro s (_ | ⟨_, hs⟩)
      · exact incomparable_of_widest ha hb hwa hwb hne
      · obtain ⟨hs, hdiffers, _⟩ := hothers s hs
        exact incomparable_of_widest ha (hsub s hs) hwa (hwidest s hs) hdiffers
    · intro s hs
      obtain ⟨hs, _, hdiffers⟩ := hothers s hs
      exact incomparable_of_widest hb (hsub s hs) hwb (hwidest s hs) hdiffers
  have hleadSub : ∀ s ∈ a :: b :: others, s ∈ all := by
    rintro s (_ | ⟨_, _ | ⟨_, hs⟩⟩)
    · exact ha
    · exact hb
    · exact hsub s (hothers s hs).1
  have hleadCovers : ∀ r ∈ all, ∃ s ∈ a :: b :: others, dominated r s = true := by
    intro r hr
    obtain ⟨s, hs, hrs⟩ := hcovers r hr
    by_cases hsa : Mutual dominated a s
    · exact ⟨a, .head _, h.trans r hr s (hsub s hs) a ha hrs hsa.2⟩
    · by_cases hsb : Mutual dominated b s
      · exact ⟨b, .tail _ (.head _), h.trans r hr s (hsub s hs) b hb hrs hsb.2⟩
      · refine ⟨s, .tail _ (.tail _ (List.mem_filter.mpr ⟨hs, ?_⟩)), hrs⟩
        exact decide_eq_true ⟨hsa, hsb⟩
  obtain ⟨lead, hperm, hsublist⟩ :=
    List.subperm_of_subset (h.nodup_of_incomparable hlead hleadSub) hleadSub
  obtain ⟨rest, hrest⟩ := hsublist.exists_perm_append
  have horder' : (a :: b :: others ++ rest).Perm all :=
    (hperm.symm.append_right rest).trans hrest.symm
  refine ⟨a :: b :: others ++ rest, horder', ?_, others ++ rest, rfl⟩
  have hwithin' : Within same dominated _ (a :: b :: others ++ rest) :=
    h.within_append hlead hleadSub hleadCovers
      fun r hr => horder'.mem_iff.mp (List.mem_append_right _ hr)
  exact fun before hbefore => (hwithin' before hbefore).trans
    ((h.length_le hlead hleadSub hsub hcovers hleadCovers).trans hlength)

end Sequences

end Fz.Base
