import Fz.Lib.Enum
import Mathlib.Data.List.Perm.Basic

/-!
# The merge sort

`sort_list` deals a list out to two halves in turn, sorts both and merges them, the left half first
where the sorter allows both orders.  So the result is the list in order (`sort_spec`).

Dealing is what decides the rest.  The first, third and fifth element go left, the second and fourth
go right, and everything that went left comes before its equals that went right.  Read through all
levels, elements that the sorter calls equal come out as their positions come when their binary
digits are compared from the lowest on (`dealt`).  That is the order of the list itself only where
the equal elements of the list happen to stand so.
-/

set_option linter.dupNamespace false

namespace Fz.Lib

variable {α κ : Type}

namespace Enum

/-! ## The algorithm -/

def splitSortList : List α → List α → List α → List α × List α
  | [], left, right => (left, right)
  | [single], left, right => (single :: left, right)
  | leftHead :: rightHead :: tail, left, right =>
    splitSortList tail (leftHead :: left) (rightHead :: right)

def mergeSortLists (sorter : α → α → Bool) : List α → List α → List α
  | [], right => right
  | left, [] => left
  | leftHead :: leftTail, rightHead :: rightTail =>
    if sorter leftHead rightHead then
      leftHead :: mergeSortLists sorter leftTail (rightHead :: rightTail)
    else rightHead :: mergeSortLists sorter (leftHead :: leftTail) rightTail
termination_by left right => left.length + right.length

/-- The elements at the even positions. -/
def evens : List α → List α
  | [] => []
  | [single] => [single]
  | head :: _ :: tail => head :: evens tail

/-- The elements at the odd positions. -/
def odds : List α → List α
  | [] => []
  | [_] => []
  | _ :: head :: tail => head :: odds tail

theorem splitSortList_eq (list : List α) : ∀ left right, splitSortList list left right =
      ((evens list).reverse ++ left, (odds list).reverse ++ right) := by
  induction list using evens.induct with
  | case1 => exact fun left right => rfl
  | case2 single => exact fun left right => rfl
  | case3 head second tail ih =>
    intro left right
    rw [splitSortList, ih, evens, odds, List.reverse_cons, List.reverse_cons, List.append_assoc,
      List.append_assoc]
    rfl

theorem length_evens (list : List α) : (evens list).length = (list.length + 1) / 2 := by
  induction list using evens.induct with
  | case1 => simp [evens]
  | case2 single => simp [evens]
  | case3 head second tail ih =>
    rw [evens, List.length_cons, List.length_cons, List.length_cons, ih]
    omega

theorem length_odds (list : List α) : (odds list).length = list.length / 2 := by
  induction list using evens.induct with
  | case1 => simp [odds]
  | case2 single => simp [odds]
  | case3 head second tail ih =>
    rw [odds, List.length_cons, List.length_cons, List.length_cons, ih]
    omega

def sortList (sorter : α → α → Bool) : List α → List α
  | [] => []
  | [single] => [single]
  | first :: second :: tail =>
    let halves := splitSortList (first :: second :: tail) [] []
    mergeSortLists sorter (sortList sorter (reverseList halves.1))
      (sortList sorter (reverseList halves.2))
termination_by list => list.length
decreasing_by
  all_goals
    simp only [splitSortList_eq, reverseList_eq, List.append_nil, List.reverse_reverse,
      length_evens, length_odds, List.length_cons]
    omega

def sort (list : List α) (sorter : α → α → Bool) : List α := sortList sorter list

/-- `compare` is the order of terms: negative, zero or positive. -/
def sortBy (compare : κ → κ → Int) (list : List α) (fn : α → κ) : List α :=
  sort list fun left right => compare (fn left) (fn right) ≤ 0

/-! ## The order of dealing -/

/-- A list by its positions, their binary digits compared from the lowest on. -/
def dealt : List α → List α
  | [] => []
  | [single] => [single]
  | first :: second :: tail =>
    dealt (evens (first :: second :: tail)) ++ dealt (odds (first :: second :: tail))
termination_by list => list.length
decreasing_by
  all_goals
    simp only [length_evens, length_odds, List.length_cons]
    omega

theorem sortList_cons_cons (sorter : α → α → Bool) (first second : α) (tail : List α) :
    sortList sorter (first :: second :: tail) =
      mergeSortLists sorter (sortList sorter (evens (first :: second :: tail)))
        (sortList sorter (odds (first :: second :: tail))) := by
  rw [sortList]
  simp only [splitSortList_eq, reverseList_eq, List.append_nil, List.reverse_reverse]

theorem evens_append_odds_perm (list : List α) : (evens list ++ odds list).Perm list := by
  induction list using evens.induct with
  | case1 => exact .refl _
  | case2 single => exact .refl _
  | case3 head second tail ih =>
    rw [evens, odds]
    exact ((List.perm_middle).trans (ih.cons second)).cons head

/-! ## Merging -/

/-- A sorter that is total and transitive. -/
structure Preorders (sorter : α → α → Bool) : Prop where
  total : ∀ a b, sorter a b = true ∨ sorter b a = true
  trans : ∀ a b c, sorter a b = true → sorter b c = true → sorter a c = true

/-- Each may come before the other. -/
def equal (sorter : α → α → Bool) (a b : α) : Bool := sorter a b && sorter b a

/-- Every element may come before every later one. -/
def InOrder (sorter : α → α → Bool) (list : List α) : Prop :=
  list.Pairwise fun a b => sorter a b = true

variable {sorter : α → α → Bool}

theorem mergeSortLists_perm (left right : List α) :
    (mergeSortLists sorter left right).Perm (left ++ right) := by
  induction left, right using mergeSortLists.induct sorter with
  | case1 right => rw [mergeSortLists, List.nil_append]
  | case2 left hleft => rw [mergeSortLists, List.append_nil]; exact hleft
  | case3 leftHead leftTail rightHead rightTail h ih =>
    rw [mergeSortLists, if_pos h]
    exact ih.cons leftHead
  | case4 leftHead leftTail rightHead rightTail h ih =>
    rw [mergeSortLists, if_neg h]
    exact (ih.cons rightHead).trans List.perm_middle.symm

theorem sortList_perm (list : List α) : (sortList sorter list).Perm list := by
  induction list using dealt.induct with
  | case1 => rw [sortList]
  | case2 single => rw [sortList]
  | case3 first second tail ihe iho =>
    rw [sortList_cons_cons]
    exact ((mergeSortLists_perm _ _).trans (ihe.append iho)).trans (evens_append_odds_perm _)

theorem inOrder_mergeSortLists (h : Preorders sorter) {left right : List α}
    (hleft : InOrder sorter left) (hright : InOrder sorter right) :
    InOrder sorter (mergeSortLists sorter left right) := by
  induction left, right using mergeSortLists.induct sorter with
  | case1 right => rwa [mergeSortLists]
  | case2 left hne => rwa [mergeSortLists]; exact hne
  | case3 leftHead leftTail rightHead rightTail hle ih =>
    rw [mergeSortLists, if_pos hle]
    obtain ⟨hhead, htail⟩ := List.pairwise_cons.mp hleft
    refine List.pairwise_cons.mpr ⟨fun x hx => ?_, ih htail hright⟩
    rcases List.mem_append.mp ((mergeSortLists_perm _ _).mem_iff.mp hx) with hx | hx
    · exact hhead x hx
    · rcases List.mem_cons.mp hx with rfl | hx
      · exact hle
      · exact h.trans _ _ _ hle ((List.pairwise_cons.mp hright).1 x hx)
  | case4 leftHead leftTail rightHead rightTail hle ih =>
    rw [mergeSortLists, if_neg hle]
    have hge : sorter rightHead leftHead = true := (h.total _ _).resolve_left hle
    obtain ⟨hhead, htail⟩ := List.pairwise_cons.mp hright
    refine List.pairwise_cons.mpr ⟨fun x hx => ?_, ih hleft htail⟩
    rcases List.mem_append.mp ((mergeSortLists_perm _ _).mem_iff.mp hx) with hx | hx
    · rcases List.mem_cons.mp hx with rfl | hx
      · exact hge
      · exact h.trans _ _ _ hge ((List.pairwise_cons.mp hleft).1 x hx)
    · exact hhead x hx

/-- Of the elements equal to one, those on the left come first. -/
theorem filter_mergeSortLists (h : Preorders sorter) (x : α) {left right : List α}
    (hleft : InOrder sorter left) (hright : InOrder sorter right) :
    (mergeSortLists sorter left right).filter (equal sorter x) =
      left.filter (equal sorter x) ++ right.filter (equal sorter x) := by
  induction left, right using mergeSortLists.induct sorter with
  | case1 right => rw [mergeSortLists, List.filter_nil, List.nil_append]
  | case2 left hne => rw [mergeSortLists, List.filter_nil, List.append_nil]; exact hne
  | case3 leftHead leftTail rightHead rightTail hle ih =>
    rw [mergeSortLists, if_pos hle, List.filter_cons, List.filter_cons,
      ih (List.pairwise_cons.mp hleft).2 hright]
    split
    · rfl
    · rfl
  | case4 leftHead leftTail rightHead rightTail hle ih =>
    rw [mergeSortLists, if_neg hle, List.filter_cons, ih hleft (List.pairwise_cons.mp hright).2]
    split
    · rename_i hx
      -- nothing on the left is equal to `x`: it would be allowed before the head of the right
      have hnone : (leftHead :: leftTail).filter (equal sorter x) = [] := by
        refine List.filter_eq_nil_iff.mpr fun y hy hxy => hle ?_
        rw [equal, Bool.and_eq_true] at hx hxy
        have hyx : sorter y rightHead = true := h.trans _ _ _ hxy.2 hx.1
        rcases List.mem_cons.mp hy with rfl | hy
        · exact hyx
        · exact h.trans _ _ _ ((List.pairwise_cons.mp hleft).1 y hy) hyx
      rw [hnone, List.nil_append, List.nil_append, List.filter_cons, if_pos hx]
    · rename_i hx
      rw [List.filter_cons (x := rightHead), if_neg hx]

theorem inOrder_sortList (h : Preorders sorter) (list : List α) :
    InOrder sorter (sortList sorter list) := by
  induction list using dealt.induct with
  | case1 => rw [sortList]; exact .nil
  | case2 single => rw [sortList]; exact List.pairwise_singleton _ _
  | case3 first second tail ihe iho =>
    rw [sortList_cons_cons]
    exact inOrder_mergeSortLists h ihe iho

/-- The elements equal to one come out in the order in which they are dealt. -/
theorem filter_sortList (h : Preorders sorter) (x : α) (list : List α) :
    (sortList sorter list).filter (equal sorter x) = (dealt list).filter (equal sorter x) := by
  induction list using dealt.induct with
  | case1 => rw [sortList, dealt]
  | case2 single => rw [sortList, dealt]
  | case3 first second tail ihe iho =>
    rw [sortList_cons_cons, dealt, List.filter_append,
      filter_mergeSortLists h x (inOrder_sortList h _) (inOrder_sortList h _), ihe, iho]

/-! ## The sort -/

/-- Elements that are equal stand in both lists in the same order. -/
def KeepsOrder (sorter : α → α → Bool) (list list' : List α) : Prop :=
  ∀ x, list'.filter (equal sorter x) = list.filter (equal sorter x)

/-- The list in order, with equal elements in the order of the list. -/
structure StablySorted (sorter : α → α → Bool) (list sorted : List α) : Prop where
  perm : sorted.Perm list
  inOrder : InOrder sorter sorted
  keepsOrder : KeepsOrder sorter list sorted

theorem keepsOrder_sort (h : Preorders sorter) (list : List α) :
    KeepsOrder sorter list (sort list sorter) ↔ KeepsOrder sorter list (dealt list) :=
  forall_congr' fun x => by rw [sort, filter_sortList h x]

theorem stablySorted_iff (h : Preorders sorter) (list : List α) :
    StablySorted sorter list (sort list sorter) ↔ KeepsOrder sorter list (dealt list) :=
  ⟨fun hs => (keepsOrder_sort h list).mp hs.keepsOrder,
    fun hk => ⟨sortList_perm list, inOrder_sortList h list, (keepsOrder_sort h list).mpr hk⟩⟩

/-- The sorter of `sort_by`. -/
def byKey (compare : κ → κ → Int) (fn : α → κ) (left right : α) : Bool :=
  compare (fn left) (fn right) ≤ 0

theorem Preorders.byKey {compare : κ → κ → Int}
    (h : Preorders fun left right : κ => decide (compare left right ≤ 0)) (fn : α → κ) :
    Preorders (byKey compare fn) where
  total a b := h.total (fn a) (fn b)
  trans a b c := h.trans (fn a) (fn b) (fn c)

/-- For every total preorder the result is the list in order.  Equal elements keep their order if
and only if dealing keeps it, and so do the elements with equal keys in `sort_by`. -/
theorem sorts_stably_iff (h : Preorders sorter) {compare : κ → κ → Int}
    (hcompare : Preorders fun left right : κ => decide (compare left right ≤ 0)) (list : List α)
    (fn : α → κ) : ((sort list sorter).Perm list ∧ InOrder sorter (sort list sorter)) ∧
      (StablySorted sorter list (sort list sorter) ↔ KeepsOrder sorter list (dealt list)) ∧
      (StablySorted (byKey compare fn) list (sortBy compare list fn) ↔
        KeepsOrder (byKey compare fn) list (dealt list)) :=
  ⟨⟨sortList_perm list, inOrder_sortList h list⟩, stablySorted_iff h list,
    stablySorted_iff (hcompare.byKey fn) list⟩

theorem preorders_le {f : α → Int} : Preorders fun a b => decide (f a ≤ f b) where
  total a b := by simpa using Int.le_total (f a) (f b)
  trans a b c := by simpa using Int.le_trans

/-- Pairs sorted by their first component. -/
theorem sorts_stably_pairs :
    StablySorted (fun a b : Int × Nat => decide (a.1 ≤ b.1)) [(2, 0), (1, 0), (2, 1), (1, 1)]
      (sort [(2, 0), (1, 0), (2, 1), (1, 1)] fun a b => decide (a.1 ≤ b.1)) := by
  have hcompare : Preorders fun left right : Int => decide (left - right ≤ 0) :=
    ⟨fun a b => by simp only [decide_eq_true_eq]; omega,
      fun a b c => by simp only [decide_eq_true_eq]; omega⟩
  refine (sorts_stably_iff preorders_le hcompare _ Prod.fst).2.1.mpr fun x => ?_
  by_cases hone : x.1 = 1
  · simp [dealt, evens, odds, equal, hone]
  · have hne : ¬(x.1 ≤ 1 ∧ 1 ≤ x.1) := by omega
    simp [dealt, evens, odds, equal, List.filter_cons, hne]

/-- Three equal elements come out as first, third, second. -/
theorem not_sorts_stably :
    ¬StablySorted (fun _ _ : Nat => true) [0, 1, 2] (sort [0, 1, 2] fun _ _ => true) := by
  intro h
  have hall := h.keepsOrder 0
  simp [sort, sortList, mergeSortLists, splitSortList, reverseList, reverseOnto, equal] at hall

end Enum

end Fz.Lib
