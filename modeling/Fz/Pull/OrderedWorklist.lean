import Fz.Base.Comparison
import Fz.Base.HeapOrder
import Mathlib.Data.List.Perm.Basic
import Mathlib.Order.Compare

/-!
# The ordered worklist

A min-heap in one vector.  The comparison is the caller's and comes with every call; an item is
never dropped for being equal to another.  `push` lets the new item rise, `pop` puts the last item
at the root and lets it sink.
-/

namespace Fz.Pull

open Fz.Base

structure OrderedWorklist (T : Type) where
  values : Array T

namespace OrderedWorklist

variable {T : Type} (compare : T → T → Ordering)

/-! ## Push and pop -/

def fromSorted (values : List T) : OrderedWorklist T := ⟨values.toArray⟩

/-- The loop of `push`. -/
def rise (values : Array T) (child : Nat) (hchild : child < values.size) : Array T :=
  if hpos : 0 < child then
    let parent := (child - 1) / 2
    have hparent : parent < values.size := by omega
    if compare values[child] values[parent] ≠ .lt then values
    else rise (values.swap child parent) parent (by rwa [Array.size_swap])
  else values
termination_by child

def push (w : OrderedWorklist T) (value : T) : OrderedWorklist T :=
  ⟨rise compare (w.values.push value) w.values.size (by simp)⟩

/-- The child of a parent that may have to rise: the right one when it is less. -/
def lesserChild (values : Array T) (left : Nat) (hleft : left < values.size) : Fin values.size :=
  let right := left + 1
  if hright : right < values.size then
    if compare values[right] values[left] = .lt then ⟨right, hright⟩ else ⟨left, hleft⟩
  else ⟨left, hleft⟩

theorem lesserChild_cases (values : Array T) (left : Nat) (hleft : left < values.size) :
    (lesserChild compare values left hleft).val = left ∨
      (lesserChild compare values left hleft).val = left + 1 := by
  simp only [lesserChild]
  split
  · split
    · exact .inr rfl
    · exact .inl rfl
  · exact .inl rfl

/-- The loop of `pop`. -/
def sink (values : Array T) (parent : Nat) : Array T :=
  let left := parent * 2 + 1
  if hleft : left < values.size then
    let child := lesserChild compare values left hleft
    if compare values[child] values[parent] ≠ .lt then values
    else sink (values.swap child parent) child
  else values
termination_by values.size - parent
decreasing_by
  have hcases := lesserChild_cases compare values (parent * 2 + 1) hleft
  rw [Array.size_swap]
  omega

/-- `swap_remove`: the last value stands where the removed one was. -/
def swapRemove (values : Array T) (index : Nat) (h : index < values.size) : T × Array T :=
  (values[index], (values.swap index (values.size - 1)).pop)

def pop (w : OrderedWorklist T) : Option (T × OrderedWorklist T) :=
  if h : 0 < w.values.size then
    let (value, values) := swapRemove w.values 0 h
    some (value, ⟨sink compare values 0⟩)
  else none

def intoValues (w : OrderedWorklist T) : Array T := w.values

/-! ## The values are kept -/

theorem rise_perm (values : Array T) (child : Nat) (hchild : child < values.size) :
    (rise compare values child hchild).Perm values := by
  fun_induction rise compare values child hchild with
  | case1 => exact .refl _
  | case2 values child hchild hpos parent hparent hgo ih =>
    exact ih.trans (Array.swap_perm hchild hparent)
  | case3 => exact .refl _

theorem sink_perm (values : Array T) (parent : Nat) : (sink compare values parent).Perm values := by
  fun_induction sink compare values parent with
  | case1 => exact .refl _
  | case2 values parent left hleft child hgo ih => exact ih.trans (Array.swap_perm _ _)
  | case3 => exact .refl _

theorem push_perm (w : OrderedWorklist T) (value : T) :
    (w.push compare value).values.toList.Perm (value :: w.values.toList) := by
  refine (rise_perm compare _ _ _).toList.trans ?_
  rw [Array.toList_push]
  exact List.perm_append_singleton value w.values.toList

theorem swapRemove_perm (values : Array T) (h : 0 < values.size) :
    ((swapRemove values 0 h).1 :: (swapRemove values 0 h).2.toList).Perm values.toList := by
  have hlast : values.size - 1 < values.size := by omega
  have hne : (values.swap 0 (values.size - 1)).toList ≠ [] := by
    rw [ne_eq, Array.toList_eq_nil_iff, ← Array.size_eq_zero_iff, Array.size_swap]
    omega
  have hvalue : (values.swap 0 (values.size - 1)).toList.getLast hne = values[0] := by
    rw [List.getLast_eq_getElem, Array.getElem_toList]
    simp
  have hswap := List.dropLast_append_getLast hne
  rw [hvalue] at hswap
  refine List.Perm.trans (List.perm_append_singleton _ _).symm ?_
  rw [swapRemove, Array.toList_pop, hswap]
  exact (Array.swap_perm h hlast).toList

theorem pop_perm {w rest : OrderedWorklist T} {value : T} (h : w.pop compare = some (value, rest)) :
    (value :: rest.values.toList).Perm w.values.toList := by
  rw [pop] at h
  split at h
  · rename_i hpos
    cases h
    exact ((sink_perm compare _ _).toList.cons _).trans (swapRemove_perm w.values hpos)
  · cases h

theorem pop_eq_none {w : OrderedWorklist T} : w.pop compare = none ↔ w.values.toList = [] := by
  rw [pop, Array.toList_eq_nil_iff, ← Array.size_eq_zero_iff]
  split
  · rename_i hpos
    simp only [reduceCtorEq, false_iff]
    omega
  · rename_i hpos
    simp only [true_iff]
    omega

/-! ## The heap order is kept -/

/-- `a` does not come after `b`. -/
def NotAfter (a b : T) : Prop := (compare a b).isLE

instance (a b : T) : Decidable (NotAfter compare a b) :=
  inferInstanceAs (Decidable ((compare a b).isLE = true))

/-- The invariant: no item comes before the one at its parent. -/
def IsMinHeap (w : OrderedWorklist T) : Prop := HeapOrdered (NotAfter compare) w.values

theorem notAfter_of_lt {a b : T} (h : compare a b = .lt) : NotAfter compare a b := by
  rw [NotAfter, h]
  rfl

theorem swapRemove_ordered {values : Array T} (h : HeapOrdered (NotAfter compare) values)
    (hpos : 0 < values.size) : DownOrdered (NotAfter compare) (swapRemove values 0 hpos).2 0 where
  rest i a b hi hne ha hb := by
    have hparent := heapParent_lt hi
    have hsize : i < values.size - 1 := by
      obtain ⟨hlt, -⟩ := Array.getElem?_eq_some_iff.mp hb
      simpa [swapRemove] using hlt
    simp only [swapRemove, Array.getElem?_pop, Array.size_swap, getElem?_swap_eq] at ha hb
    rw [if_pos (by omega), if_neg (by omega), if_neg hne] at ha
    rw [if_pos hsize, if_neg (by omega), if_neg (by omega)] at hb
    exact h i a b hi ha hb
  skip _ _ _ h := absurd h (by omega)

section Order

variable {compare} [Std.TransCmp compare]

theorem notAfter_refl (a : T) : NotAfter compare a a := by
  rw [NotAfter, show compare a a = .eq from Std.ReflCmp.compare_self]
  rfl

theorem notAfter_trans (a b c : T) (hab : NotAfter compare a b) (hbc : NotAfter compare b c) :
    NotAfter compare a c := Std.TransCmp.isLE_trans hab hbc

theorem notAfter_of_ne_lt {a b : T} (h : compare a b ≠ .lt) : NotAfter compare b a := by
  rw [NotAfter, show compare b a = (compare a b).swap from Std.OrientedCmp.eq_swap]
  cases hab : compare a b with
  | lt => exact absurd hab h
  | eq => rfl
  | gt => rfl

theorem rise_ordered {values : Array T} {child : Nat} (hchild : child < values.size)
    (h : UpOrdered (NotAfter compare) values child) :
    HeapOrdered (NotAfter compare) (rise compare values child hchild) := by
  fun_induction rise compare values child hchild with
  | case1 values child hchild hpos parent hparent hstop =>
    refine h.stop fun _ a b ha hb => ?_
    obtain ⟨_, rfl⟩ := Array.getElem?_eq_some_iff.mp ha
    obtain ⟨_, rfl⟩ := Array.getElem?_eq_some_iff.mp hb
    exact notAfter_of_ne_lt hstop
  | case2 values child hchild hpos parent hparent hgo ih =>
    rw [ne_eq, not_not] at hgo
    exact ih (h.swap notAfter_trans hpos hchild hparent (notAfter_of_lt compare hgo))
  | case3 values child hchild hpos => exact h.stop fun h => absurd h hpos

theorem lesserChild_least (values : Array T) (left : Nat) (hleft : left < values.size) (i : Nat)
    (b : T) (hi : i = left ∨ i = left + 1) (hb : values[i]? = some b) :
    NotAfter compare values[lesserChild compare values left hleft] b := by
  obtain ⟨hlt, rfl⟩ := Array.getElem?_eq_some_iff.mp hb
  simp only [lesserChild]
  split
  · split
    · rename_i hless
      rcases hi with rfl | rfl
      · exact notAfter_of_lt compare hless
      · exact notAfter_refl _
    · rename_i hless
      rcases hi with rfl | rfl
      · exact notAfter_refl _
      · exact notAfter_of_ne_lt hless
  · rcases hi with rfl | rfl
    · exact notAfter_refl _
    · rename_i hright
      exact absurd hlt hright

theorem sink_ordered {values : Array T} {parent : Nat}
    (h : DownOrdered (NotAfter compare) values parent) :
    HeapOrdered (NotAfter compare) (sink compare values parent) := by
  fun_induction sink compare values parent with
  | case1 values parent left hleft child hstop =>
    refine h.stop fun i a b hi hparent ha hb => ?_
    obtain ⟨_, rfl⟩ := Array.getElem?_eq_some_iff.mp ha
    rw [heapParent_eq_iff hi] at hparent
    exact notAfter_trans _ _ _ (notAfter_of_ne_lt hstop)
      (lesserChild_least values left hleft i b hparent hb)
  | case2 values parent left hleft child hgo ih =>
    have hcases := lesserChild_cases compare values left hleft
    have hpos : 0 < child.val := by omega
    have hparent : heapParent child.val = parent := (heapParent_eq_iff hpos).mpr hcases
    rw [ne_eq, not_not] at hgo
    refine ih (h.swap hpos hparent child.isLt (by omega) (notAfter_of_lt compare hgo)
      fun i b hi heq hb => ?_)
    exact lesserChild_least values left hleft i b ((heapParent_eq_iff hi).mp heq) hb
  | case3 values parent left hleft =>
    refine h.stop fun i a b hi hparent _ hb => ?_
    obtain ⟨hlt, -⟩ := Array.getElem?_eq_some_iff.mp hb
    rw [heapParent_eq_iff hi] at hparent
    omega

theorem IsMinHeap.push {w : OrderedWorklist T} (h : w.IsMinHeap compare) (value : T) :
    (w.push compare value).IsMinHeap compare :=
  rise_ordered _ (HeapOrdered.push h value)

theorem IsMinHeap.pop {w rest : OrderedWorklist T} {value : T} (h : w.IsMinHeap compare)
    (hpop : w.pop compare = some (value, rest)) :
    rest.IsMinHeap compare ∧ ∀ other ∈ rest.values.toList, NotAfter compare value other := by
  have hperm := pop_perm compare hpop
  rw [OrderedWorklist.pop] at hpop
  split at hpop
  · rename_i hpos
    cases hpop
    refine ⟨sink_ordered (swapRemove_ordered compare h hpos), fun other hother => ?_⟩
    have hmem := hperm.subset (List.mem_cons_of_mem _ hother)
    obtain ⟨i, hi, rfl⟩ := List.mem_iff_getElem.mp hmem
    exact HeapOrdered.root notAfter_refl notAfter_trans h (Array.getElem?_eq_getElem hpos)
      (i := i) (by simp)
  · cases hpop

end Order

/-! ## Runs -/

inductive Call (T : Type) where
  | push (value : T)
  | pop

/-- The worklist after some calls, and the items popped on the way. -/
def run (w : OrderedWorklist T) : List (Call T) → OrderedWorklist T × List T
  | [] => (w, [])
  | .push value :: calls => (w.push compare value).run calls
  | .pop :: calls =>
    match w.pop compare with
    | none => w.run calls
    | some (value, rest) => ((rest.run calls).1, value :: (rest.run calls).2)

def Call.pushed : List (Call T) → List T
  | [] => []
  | .push value :: calls => value :: pushed calls
  | .pop :: calls => pushed calls

theorem run_perm (calls : List (Call T)) (w : OrderedWorklist T) :
    ((w.run compare calls).2 ++ (w.run compare calls).1.values.toList).Perm
      (w.values.toList ++ Call.pushed calls) := by
  induction calls generalizing w with
  | nil => simp [run, Call.pushed]
  | cons call calls ih =>
    cases call with
    | push value =>
      rw [run, Call.pushed]
      refine (ih _).trans (List.Perm.trans ?_ List.perm_middle.symm)
      exact (push_perm compare w value).append_right _
    | pop =>
      rw [Call.pushed]
      cases hpop : w.pop compare with
      | none =>
        simp only [run, hpop]
        exact ih w
      | some popped =>
        simp only [run, hpop, List.cons_append]
        exact ((ih popped.2).cons popped.1).trans ((pop_perm compare hpop).append_right _)

theorem run_isMinHeap [Std.TransCmp compare] (calls : List (Call T)) {w : OrderedWorklist T}
    (h : w.IsMinHeap compare) : (w.run compare calls).1.IsMinHeap compare := by
  induction calls generalizing w with
  | nil => exact h
  | cons call calls ih =>
    cases call with
    | push value => exact ih (h.push value)
    | pop =>
      cases hpop : w.pop compare with
      | none =>
        simp only [run, hpop]
        exact ih h
      | some popped =>
        simp only [run, hpop]
        exact ih (h.pop hpop).1

/-- Whatever is pushed and popped, the vector stays a heap, what is popped next comes after nothing
that stays, nothing is popped only when nothing is there, and no item is lost or made up. -/
theorem run_correct [Std.TransCmp compare] (sorted : List T)
    (hsorted : sorted.Pairwise (NotAfter compare)) (calls : List (Call T)) :
    ((fromSorted sorted).run compare calls).1.IsMinHeap compare ∧
    (∀ value rest, ((fromSorted sorted).run compare calls).1.pop compare = some (value, rest) →
      ∀ other ∈ rest.values.toList, NotAfter compare value other) ∧
    (((fromSorted sorted).run compare calls).1.pop compare = none ↔
      ((fromSorted sorted).run compare calls).1.values.toList = []) ∧
    (((fromSorted sorted).run compare calls).2 ++
      ((fromSorted sorted).run compare calls).1.values.toList).Perm
        (sorted ++ Call.pushed calls) := by
  have hheap : ((fromSorted sorted).run compare calls).1.IsMinHeap compare :=
    run_isMinHeap compare calls (heapOrdered_of_pairwise hsorted)
  exact ⟨hheap, fun value rest hpop => (hheap.pop hpop).2, pop_eq_none compare,
    run_perm compare calls (fromSorted sorted)⟩

/-- Items of one priority are all kept. -/
theorem run_correct_ties :
    let compare := fun a b : Nat × Nat => Ord.compare a.1 b.1
    let w := (fromSorted [(1, 0), (1, 1), (3, 2)]).run compare
      [.push (1, 3), .pop, .push (0, 4), .push (3, 5), .pop]
    (w.2 ++ w.1.values.toList).Perm
      ([(1, 0), (1, 1), (3, 2)] ++ [(1, 3), (0, 4), (3, 5)]) :=
  have : Std.TransCmp fun a b : Nat × Nat => Ord.compare a.1 b.1 :=
    transCmp_on inferInstance Prod.fst
  (run_correct (fun a b : Nat × Nat => Ord.compare a.1 b.1) [(1, 0), (1, 1), (3, 2)]
    (by decide) [.push (1, 3), .pop, .push (0, 4), .push (3, 5), .pop]).2.2.2

theorem IsMinHeap.drain [Std.TransCmp compare] {n : Nat} {w : OrderedWorklist T}
    (h : w.IsMinHeap compare) (hn : w.values.toList.length = n) :
    (w.run compare (.replicate n .pop)).2.Pairwise (NotAfter compare) ∧
      (w.run compare (.replicate n .pop)).2.Perm w.values.toList ∧
      (w.run compare (.replicate n .pop)).1.values.toList = [] := by
  induction n generalizing w with
  | zero =>
    have hempty := List.length_eq_zero_iff.mp hn
    exact ⟨.nil, .of_eq hempty.symm, hempty⟩
  | succ n ih =>
    rw [List.replicate_succ]
    cases hpop : w.pop compare with
    | none => simp [(pop_eq_none compare).mp hpop] at hn
    | some popped =>
      obtain ⟨value, rest⟩ := popped
      obtain ⟨hrest, hleast⟩ := h.pop hpop
      have hperm := pop_perm compare hpop
      obtain ⟨hsorted, hsame, hempty⟩ := ih hrest (by simpa [hn] using hperm.length_eq)
      simp only [run, hpop]
      exact ⟨.cons (fun other hother => hleast other (hsame.subset hother)) hsorted,
        (hsame.cons value).trans hperm, hempty⟩

/-- After any calls, popping as often as there are items gives them all, in order. -/
theorem run_drains [Std.TransCmp compare] (sorted : List T)
    (hsorted : sorted.Pairwise (NotAfter compare)) (calls : List (Call T)) :
    let w := ((fromSorted sorted).run compare calls).1
    let drained := w.run compare (.replicate w.values.size .pop)
    drained.2.Pairwise (NotAfter compare) ∧ drained.2.Perm w.values.toList ∧
      drained.1.values.toList = [] :=
  IsMinHeap.drain compare (run_isMinHeap compare calls (heapOrdered_of_pairwise hsorted)) rfl

theorem run_drains_ties :
    let compare := fun a b : Nat × Nat => Ord.compare a.1 b.1
    let w := ((fromSorted [(1, 0), (1, 1)]).run compare [.push (0, 4), .pop, .push (1, 3)]).1
    (w.run compare (.replicate w.values.size .pop)).2.Perm w.values.toList :=
  have : Std.TransCmp fun a b : Nat × Nat => Ord.compare a.1 b.1 :=
    transCmp_on inferInstance Prod.fst
  (run_drains (fun a b : Nat × Nat => Ord.compare a.1 b.1) [(1, 0), (1, 1)]
    (by decide) [.push (0, 4), .pop, .push (1, 3)]).2.1

end OrderedWorklist

end Fz.Pull
