import Fz.Lib.Integer
import Mathlib.Data.List.Basic
import Mathlib.Algebra.Order.Group.Int
import Mathlib.Tactic.Ring
import Mathlib.Tactic.Linarith

/-!
# Ranges

A range holds `first`, `first + step` and so on, up to `last`.  Folding over it goes on from an
element to the next until it is past `last`; the count and the membership test are arithmetic on
the bounds.

All of it is checked, and it computes numbers that the range does not hold.  The walk forms the
first number past `last`, and the count and the membership test form the difference of the bounds.
So a range whose elements and whose count all fit can still abort (`meansItsElements_iff`).
-/

set_option linter.dupNamespace false

namespace Fz.Lib

namespace Range

/-! ## The functions -/

/-- What a reducer, or the caller, asks for. -/
inductive Command (β : Type) where
  | cont (acc : β)
  | halt (acc : β)
  | suspend (acc : β)
  | other

/-- How a fold ends.  A suspended one goes on from `next`, which is computed when it does. -/
inductive Outcome (β : Type) where
  | done (acc : β)
  | halted (acc : β)
  | suspended (acc : β) (next : Run I64)

section Functions

variable {β : Type} (first last step : I64)

def isDone (current : I64) : Bool :=
  if step.val > 0 then current.val > last.val else current.val < last.val

def contains (value : I64) : Bool :=
  if step.val > 0 then value.val ≥ first.val && value.val ≤ last.val
  else value.val ≤ first.val && value.val ≥ last.val

/-- The walk, at most `fuel` steps of it. -/
def reduceCont (reducer : I64 → β → Command β) : Nat → I64 → β → Run (Outcome β)
  | 0, _, _ => .error .tooDeep
  | fuel + 1, current, acc =>
    if isDone last step current then .ok (.done acc)
    else
      match reducer current acc with
      | .cont acc => do
        let next ← current.add step
        reduceCont reducer fuel next acc
      | .halt acc => .ok (.halted acc)
      | .suspend acc => .ok (.suspended acc (current.add step))
      | .other => .error (.panic "Enumerable.ReduceProtocolError")

/-- The atom `:first` starts the same walk, by another clause. -/
def reduceStart (reducer : I64 → β → Command β) (fuel : Nat) (current : I64) (acc : β) :
    Run (Outcome β) := reduceCont last step reducer fuel current acc

def reduce [DecidableEq β] (atomFirst : β) (command : Command β)
    (reducer : I64 → β → Command β) (fuel : Nat) : Run (Outcome β) :=
  match command with
  | .cont acc =>
    if acc = atomFirst then reduceStart last step reducer fuel first acc
    else reduceCont last step reducer fuel first acc
  | .halt acc => .ok (.halted acc)
  | .suspend acc => .ok (.suspended acc (.ok first))
  | .other => .error (.panic "Enumerable.ReduceProtocolError")

/-- The reducer gives the next accumulator on the left, or the last on the right. -/
def reduceWhileCont (reducer : I64 → β → β ⊕ β) : Nat → I64 → β → Run β
  | 0, _, _ => .error .tooDeep
  | fuel + 1, current, acc =>
    if isDone last step current then .ok acc
    else
      match reducer current acc with
      | .inl acc => do
        let next ← current.add step
        reduceWhileCont reducer fuel next acc
      | .inr acc => .ok acc

def reduceWhile (acc : β) (reducer : I64 → β → β ⊕ β) (fuel : Nat) : Run β :=
  reduceWhileCont last step reducer fuel first acc

def count : Run I64 :=
  if isDone last step first then .ok .zero
  else do
    let difference ← last.sub first
    let steps ← difference.div step
    steps.add .one

/-- Membership; `none` is a value that is no integer. -/
def member : Option I64 → Run Bool
  | some value =>
    if isDone last step first then .ok false
    else if contains first last step value then do
      let difference ← value.sub first
      let rest ← difference.rem step
      .ok (rest.val = 0)
    else .ok false
  | none => .ok false

end Functions

/-! ## The elements -/

/-- How many numbers a range holds. -/
def size (first last step : Int) : Nat :=
  if step > 0 then (if first ≤ last then ((last - first) / step).toNat + 1 else 0)
  else if last ≤ first then ((first - last) / -step).toNat + 1 else 0

/-- The numbers of a range, in order. -/
def elements (first last step : Int) : List Int :=
  (List.range (size first last step)).map fun k : Nat => first + k * step

variable {first last step : Int}

theorem isDone_iff {last step current : I64} : isDone last step current = true ↔
    size current.val last.val step.val = 0 := by
  rw [isDone, size]
  split <;> split <;> simp_all

/-- The number after the first is the first of the rest. -/
theorem size_step (hstep : step ≠ 0) (h : size first last step ≠ 0) :
    size first last step = size (first + step) last step + 1 := by
  rw [size] at h ⊢
  rw [size]
  split at h
  · rename_i hpos
    rw [if_pos hpos, if_pos hpos]
    split at h
    · rename_i hle
      rw [if_pos hle]
      have hdiv : (last - (first + step)) / step = (last - first) / step - 1 := by
        rw [show last - (first + step) = last - first + (-1) * step by ring,
          Int.add_mul_ediv_right _ _ hstep]
        ring
      have hq := Int.ediv_nonneg (show 0 ≤ last - first by omega) (le_of_lt hpos)
      split
      · rename_i hnext
        have hq' := Int.ediv_nonneg (show 0 ≤ last - (first + step) by omega) (le_of_lt hpos)
        omega
      · rename_i hnext
        have hzero : (last - first) / step = 0 :=
          Int.ediv_eq_zero_of_lt (by omega) (by omega)
        omega
    · exact absurd rfl h
  · rename_i hneg
    rw [if_neg hneg, if_neg hneg]
    split at h
    · rename_i hle
      rw [if_pos hle]
      have hstep' : -step ≠ 0 := by omega
      have hdiv : (first + step - last) / -step = (first - last) / -step - 1 := by
        rw [show first + step - last = first - last + (-1) * -step by ring,
          Int.add_mul_ediv_right _ _ hstep']
        ring
      have hq := Int.ediv_nonneg (show 0 ≤ first - last by omega) (show 0 ≤ -step by omega)
      split
      · rename_i hnext
        have hq' := Int.ediv_nonneg (show 0 ≤ first + step - last by omega)
          (show 0 ≤ -step by omega)
        omega
      · rename_i hnext
        have hzero : (first - last) / -step = 0 :=
          Int.ediv_eq_zero_of_lt (by omega) (by omega)
        omega
    · exact absurd rfl h

theorem elements_step (hstep : step ≠ 0) (h : size first last step ≠ 0) :
    elements first last step = first :: elements (first + step) last step := by
  rw [elements, size_step hstep h, List.range_succ_eq_map, List.map_cons, List.map_map]
  refine congrArg₂ _ (by simp) (List.map_congr_left fun k _ => ?_)
  simp only [Function.comp_apply, Nat.succ_eq_add_one, Nat.cast_add, Nat.cast_one]
  ring

/-- A number is in the range when it is between the bounds and a whole number of steps from the
first. -/
theorem mem_elements_iff (hstep : step ≠ 0) {v : Int} : v ∈ elements first last step ↔
    (if step > 0 then first ≤ v ∧ v ≤ last else v ≤ first ∧ last ≤ v) ∧
      (v - first).tmod step = 0 := by
  rw [← Int.dvd_iff_tmod_eq_zero, elements, List.mem_map]
  constructor
  · rintro ⟨k, hk, rfl⟩
    rw [List.mem_range, size] at hk
    refine ⟨?_, ⟨k, by ring⟩⟩
    split at hk
    · rename_i hpos
      rw [if_pos hpos]
      split at hk
      · rename_i hle
        have hq := Int.ediv_nonneg (show 0 ≤ last - first by omega) (le_of_lt hpos)
        have hk' : (k : Int) ≤ (last - first) / step := by omega
        have hmul := (Int.le_ediv_iff_mul_le hpos).mp hk'
        have hnonneg : 0 ≤ (k : Int) * step := Int.mul_nonneg (by omega) (le_of_lt hpos)
        omega
      · omega
    · rename_i hneg
      rw [if_neg hneg]
      have hneg' : 0 < -step := by omega
      split at hk
      · rename_i hle
        have hq := Int.ediv_nonneg (show 0 ≤ first - last by omega) (le_of_lt hneg')
        have hk' : (k : Int) ≤ (first - last) / -step := by omega
        have hmul := (Int.le_ediv_iff_mul_le hneg').mp hk'
        have hnonneg : 0 ≤ (k : Int) * -step := Int.mul_nonneg (by omega) (le_of_lt hneg')
        rw [Int.mul_neg] at hmul hnonneg
        omega
      · omega
  · rintro ⟨hbetween, c, hc⟩
    have hv : v = first + c * step := by rw [Int.mul_comm, ← hc]; omega
    refine ⟨c.toNat, ?_, ?_⟩
    · rw [List.mem_range, size]
      split at hbetween
      · rename_i hpos
        rw [if_pos hpos, if_pos (by omega)]
        have hle : c ≤ (last - first) / step :=
          (Int.le_ediv_iff_mul_le hpos).mpr (by omega)
        omega
      · rename_i hneg
        rw [if_neg hneg, if_pos (by omega)]
        have hle : c ≤ (first - last) / -step :=
          (Int.le_ediv_iff_mul_le (by omega)).mpr (by rw [Int.mul_neg]; omega)
        omega
    · have hc0 : 0 ≤ c := by
        by_contra hlt
        split at hbetween
        · rename_i hpos
          have := Int.mul_neg_of_neg_of_pos (show c < 0 by omega) hpos
          omega
        · rename_i hneg
          have := Int.mul_pos_of_neg_of_neg (show c < 0 by omega) (show step < 0 by omega)
          omega
      rw [Int.toNat_of_nonneg hc0, hv]

/-! ## What a range means -/

section Meaning

variable {β : Type} {first last step current : I64}

theorem fits_of_mem {v : Int} (hv : v ∈ elements first.val last.val step.val) : Fits v := by
  by_cases hstep : step.val = 0
  · obtain ⟨k, -, rfl⟩ := List.mem_map.mp hv
    rw [hstep, Int.mul_zero, Int.add_zero]
    exact first.fits
  · have hbetween := ((mem_elements_iff hstep).mp hv).1
    obtain ⟨hfirst, hfirst'⟩ := first.fits
    obtain ⟨hlast, hlast'⟩ := last.fits
    split at hbetween
    · exact ⟨by omega, by omega⟩
    · exact ⟨by omega, by omega⟩

/-- The elements as integers of the language. -/
def items (first last step : I64) : List I64 :=
  (elements first.val last.val step.val).pmap I64.mk fun _ hv => fits_of_mem hv

theorem items_val : (items first last step).map I64.val = elements first.val last.val step.val := by
  rw [items, List.map_pmap]
  simp

theorem mem_items {v : I64} :
    v ∈ items first last step ↔ v.val ∈ elements first.val last.val step.val := by
  rw [← items_val]
  exact ⟨List.mem_map_of_mem, fun h => by
    obtain ⟨w, hw, heq⟩ := List.mem_map.mp h
    rwa [← I64.ext heq]⟩

theorem length_items : (items first last step).length = size first.val last.val step.val := by
  rw [← List.length_map I64.val, items_val, elements, List.length_map, List.length_range]

theorem items_step (hstep : step.val ≠ 0) (h : size current.val last.val step.val ≠ 0)
    (next : I64) (hnext : current.val + step.val = next.val) :
    items current last step = current :: items next last step := by
  have hinj : Function.Injective I64.val := fun a b => I64.ext
  apply List.map_injective_iff.mpr hinj
  rw [items_val, List.map_cons, items_val, elements_step hstep h, hnext]

/-- The number after the last element fits, where there is a last element. -/
def EndFits (first last step : I64) : Prop :=
  Fits (first.val + size first.val last.val step.val * step.val)

/-- The next number fits if there is another element, or if it is the end. -/
theorem fits_next (hstep : step.val ≠ 0) (h : size current.val last.val step.val ≠ 0)
    (hend : EndFits current last step) : Fits (current.val + step.val) := by
  have hsize := size_step hstep h
  by_cases hlast : size (current.val + step.val) last.val step.val = 0
  · rw [EndFits, hsize, hlast] at hend
    simpa using hend
  · have hmem : current.val + step.val ∈ elements current.val last.val step.val := by
      rw [elements_step hstep h, elements_step hstep hlast]
      exact .tail _ (.head _)
    exact fits_of_mem hmem

theorem endFits_next (hstep : step.val ≠ 0) (h : size current.val last.val step.val ≠ 0)
    {next : I64} (hnext : current.val + step.val = next.val) :
    EndFits next last step ↔ EndFits current last step := by
  rw [EndFits, EndFits, size_step hstep h, hnext, ← hnext]
  have heq : current.val + step.val + size (current.val + step.val) last.val step.val * step.val =
      current.val + (size (current.val + step.val) last.val step.val + 1 : Nat) * step.val := by
    push_cast
    ring
  rw [heq]

theorem isDone_eq (n : Nat) (h : size current.val last.val step.val = n) :
    isDone last step current = decide (n = 0) := by
  rw [Bool.eq_iff_iff, isDone_iff, h, decide_eq_true_eq]

/-- A walk that always goes on visits the elements. -/
theorem reduceCont_ok (hstep : step.val ≠ 0) (f : I64 → β → β) (n : Nat) :
    ∀ (current : I64) (acc : β), size current.val last.val step.val = n →
      (n ≠ 0 → EndFits current last step) → ∀ fuel > n,
        reduceCont last step (fun x acc => .cont (f x acc)) fuel current acc =
          .ok (.done ((items current last step).foldl (fun acc x => f x acc) acc)) := by
  induction n with
  | zero =>
    intro current acc hsize _ fuel hfuel
    obtain ⟨fuel, rfl⟩ := Nat.exists_eq_add_of_lt hfuel
    have hnil : items current last step = [] :=
      List.eq_nil_of_length_eq_zero (length_items.trans hsize)
    rw [Nat.zero_add, reduceCont, isDone_eq 0 hsize, hnil]
    rfl
  | succ n ih =>
    intro current acc hsize hend fuel hfuel
    obtain ⟨fuel, rfl⟩ := Nat.exists_eq_add_of_lt hfuel
    have hne : size current.val last.val step.val ≠ 0 := by omega
    have hend := hend (Nat.succ_ne_zero n)
    have hfits := fits_next hstep hne hend
    have hnext : current.add step = .ok ⟨_, hfits⟩ := I64.checked_of_fits hfits
    have hrest := ih ⟨_, hfits⟩ (f current acc)
      (by have := size_step hstep hne; simp only; omega)
      (fun _ => (endFits_next hstep hne rfl).mpr hend) (n + 1 + fuel) (by omega)
    rw [reduceCont, isDone_eq (n + 1) hsize, items_step hstep hne ⟨_, hfits⟩ rfl, List.foldl_cons,
      ← hrest, if_neg (by simp), hnext]
    rfl

/-- Otherwise it aborts behind the last element. -/
theorem reduceCont_error (hstep : step.val ≠ 0) (f : I64 → β → β) (n : Nat) :
    ∀ (current : I64) (acc : β), size current.val last.val step.val = n + 1 →
      ¬EndFits current last step → ∀ fuel > n,
        reduceCont last step (fun x acc => .cont (f x acc)) fuel current acc =
          .error .arithmetic := by
  induction n with
  | zero =>
    intro current acc hsize hend fuel hfuel
    obtain ⟨fuel, rfl⟩ := Nat.exists_eq_add_of_lt hfuel
    rw [EndFits, hsize, Nat.zero_add, Nat.cast_one, Int.one_mul] at hend
    have hnext : current.add step = .error .arithmetic := I64.checked_of_not_fits hend
    rw [reduceCont, isDone_eq 1 hsize, if_neg (by simp), hnext]
    rfl
  | succ n ih =>
    intro current acc hsize hend fuel hfuel
    obtain ⟨fuel, rfl⟩ := Nat.exists_eq_add_of_lt hfuel
    have hne : size current.val last.val step.val ≠ 0 := by omega
    have hnext := size_step hstep hne
    have hmem : current.val + step.val ∈ elements current.val last.val step.val := by
      rw [elements_step hstep hne, elements_step hstep (by omega)]
      exact .tail _ (.head _)
    have hfits := fits_of_mem hmem
    have hadd : current.add step = .ok ⟨_, hfits⟩ := I64.checked_of_fits hfits
    have hrest := ih ⟨_, hfits⟩ (f current acc) (by simp only; omega)
      (fun h => hend ((endFits_next hstep hne rfl).mp h)) (n + 1 + fuel) (by omega)
    rw [reduceCont, isDone_eq (n + 2) hsize, if_neg (by simp), hadd]
    exact hrest

/-- The accumulator of an outcome. -/
def Outcome.acc : Outcome β → β
  | .done acc => acc
  | .halted acc => acc
  | .suspended acc _ => acc

theorem reduceWhileCont_eq (f : I64 → β → β) (fuel : Nat) : ∀ (current : I64) (acc : β),
    reduceWhileCont last step (fun x acc => .inl (f x acc)) fuel current acc =
      (reduceCont last step (fun x acc => .cont (f x acc)) fuel current acc).map Outcome.acc := by
  induction fuel with
  | zero => exact fun current acc => rfl
  | succ fuel ih =>
    intro current acc
    rw [reduceWhileCont, reduceCont]
    split
    · rfl
    · cases current.add step with
      | error abort => rfl
      | ok next => exact ih next (f current acc)

theorem count_empty (h : size first.val last.val step.val = 0) :
    count first last step = .ok .zero := by
  rw [count, isDone_eq 0 h]
  rfl

theorem count_eq (h : size first.val last.val step.val ≠ 0) :
    count first last step = (do
      let difference ← last.sub first
      let steps ← difference.div step
      steps.add .one) := by
  rw [count, isDone_eq _ rfl, if_neg (by simpa using h)]

/-- The difference of the bounds of a range that is not empty counts its steps. -/
theorem tdiv_eq_size (h : size first.val last.val step.val ≠ 0) :
    (last.val - first.val).tdiv step.val + 1 = size first.val last.val step.val := by
  rw [size] at h ⊢
  split
  · rename_i hpos
    rw [if_pos hpos] at h
    split
    · rename_i hle
      have hq := Int.ediv_nonneg (show 0 ≤ last.val - first.val by omega) (le_of_lt hpos)
      rw [Int.tdiv_eq_ediv_of_nonneg (by omega)]
      omega
    · rename_i hlt
      exact absurd (if_neg hlt) h
  · rename_i hneg
    rw [if_neg hneg] at h
    split
    · rename_i hle
      have hq := Int.ediv_nonneg (show 0 ≤ first.val - last.val by omega)
        (show 0 ≤ -step.val by omega)
      rw [← Int.neg_tdiv_neg, Int.neg_sub, Int.tdiv_eq_ediv_of_nonneg (by omega)]
      omega
    · rename_i hlt
      exact absurd (if_neg hlt) h

theorem member_empty (h : size first.val last.val step.val = 0) (v : I64) :
    member first last step (some v) = .ok false := by
  rw [member, isDone_eq 0 h]
  rfl

theorem contains_iff {v : I64} : contains first last step v = true ↔
    if step.val > 0 then first.val ≤ v.val ∧ v.val ≤ last.val
    else v.val ≤ first.val ∧ last.val ≤ v.val := by
  rw [contains]
  split
  · simp
  · simp

/-- Where the difference of the bounds fits, membership is decided by the remainder. -/
theorem member_eq (hstep : step.val ≠ 0) (h : size first.val last.val step.val ≠ 0)
    (hfits : Fits (last.val - first.val)) (v : I64) :
    member first last step (some v) = .ok (decide (v ∈ items first last step)) := by
  have hmem : v ∈ items first last step ↔
      contains first last step v = true ∧ (v.val - first.val).tmod step.val = 0 := by
    rw [mem_items, mem_elements_iff hstep, contains_iff]
  rw [member, isDone_eq _ rfl, if_neg (by simpa using h)]
  by_cases hin : contains first last step v = true
  · have hbetween := contains_iff.mp hin
    have hsub : Fits (v.val - first.val) := by
      obtain ⟨hlow, hhigh⟩ := hfits
      split at hbetween
      · exact ⟨by omega, by omega⟩
      · exact ⟨by omega, by omega⟩
    obtain ⟨rest, hrest, hval⟩ := I64.rem_ok ⟨_, hsub⟩ hstep
    rw [if_pos hin, I64.sub, I64.checked_of_fits hsub]
    show (do let rest ← I64.rem ⟨_, hsub⟩ step; .ok (decide (rest.val = 0))) = _
    rw [hrest]
    refine congrArg Except.ok (decide_eq_decide.mpr ?_)
    rw [hmem, hval]
    exact (and_iff_right hin).symm
  · rw [if_neg hin, decide_eq_false fun hv => hin (hmem.mp hv).1]

/-- Where it does not, the test for the last bound aborts. -/
theorem member_last (h : size first.val last.val step.val ≠ 0)
    (hfits : ¬Fits (last.val - first.val)) :
    member first last step (some last) = .error .arithmetic := by
  have hin : contains first last step last = true := by
    rw [contains_iff]
    rw [size] at h
    split
    · rename_i hpos
      rw [if_pos hpos] at h
      exact ⟨by_contra fun hle => h (if_neg hle), le_refl _⟩
    · rename_i hneg
      rw [if_neg hneg] at h
      exact ⟨by_contra fun hle => h (if_neg hle), le_refl _⟩
  rw [member, isDone_eq _ rfl, if_neg (by simpa using h), if_pos hin, I64.sub,
    I64.checked_of_not_fits hfits]
  rfl

variable (first last step) in
/-- The folds visit the elements in order and end, the count is their number, and the membership
test tells them from all other values. -/
structure MeansItsElements : Prop where
  folds : ∀ {β : Type} [DecidableEq β] (atomFirst : β) (f : I64 → β → β) (acc : β),
    ∃ depth, ∀ fuel ≥ depth,
      reduce first last step atomFirst (.cont acc) (fun x acc => .cont (f x acc)) fuel =
        .ok (.done ((items first last step).foldl (fun acc x => f x acc) acc))
  foldsWhile : ∀ {β : Type} (f : I64 → β → β) (acc : β), ∃ depth, ∀ fuel ≥ depth,
    reduceWhile first last step acc (fun x acc => .inl (f x acc)) fuel =
      .ok ((items first last step).foldl (fun acc x => f x acc) acc)
  counted : ∃ n, count first last step = .ok n ∧ n.val = (items first last step).length
  tested : ∀ v, member first last step (some v) = .ok (decide (v ∈ items first last step))
  others : member first last step none = .ok false

/-- A range whose elements can be counted means its elements if and only if it is empty, or the
number after its last element and the difference of its bounds fit. -/
theorem meansItsElements_iff (hstep : step.val ≠ 0)
    (hcount : size first.val last.val step.val < 2 ^ 63) :
    MeansItsElements first last step ↔ size first.val last.val step.val = 0 ∨
      EndFits first last step ∧ Fits (last.val - first.val) := by
  constructor
  · intro h
    by_cases hempty : size first.val last.val step.val = 0
    · exact .inl hempty
    refine .inr ⟨by_contra fun hend => ?_, by_contra fun hfits => ?_⟩
    · obtain ⟨depth, hok⟩ := h.foldsWhile (fun _ acc => acc) ()
      obtain ⟨n, hn⟩ := Nat.exists_eq_succ_of_ne_zero hempty
      have hrun := hok (max depth (n + 1)) (le_max_left _ _)
      rw [Range.reduceWhile, reduceWhileCont_eq,
        reduceCont_error hstep _ n first () hn hend _ (by omega)] at hrun
      exact nomatch hrun
    · have hrun := h.tested last
      rw [member_last hempty hfits] at hrun
      exact nomatch hrun
  · intro h
    have hend : size first.val last.val step.val ≠ 0 → EndFits first last step :=
      fun hne => (h.resolve_left hne).1
    refine ⟨fun atomFirst f acc => ⟨size first.val last.val step.val + 1, fun fuel hfuel => ?_⟩,
      fun f acc => ⟨size first.val last.val step.val + 1, fun fuel hfuel => ?_⟩, ?_,
      fun v => ?_, rfl⟩
    · rw [Range.reduce]
      simp only [reduceStart, ite_self]
      exact reduceCont_ok hstep f _ first acc rfl hend fuel hfuel
    · rw [Range.reduceWhile, reduceWhileCont_eq,
        reduceCont_ok hstep f _ first acc rfl hend fuel hfuel]
      rfl
    · rw [length_items]
      by_cases hempty : size first.val last.val step.val = 0
      · exact ⟨.zero, count_empty hempty, by rw [hempty]; rfl⟩
      obtain ⟨-, hfits⟩ := h.resolve_left hempty
      have hdiv := tdiv_eq_size hempty
      have hsteps : Fits ((last.val - first.val).tdiv step.val) := ⟨by omega, by omega⟩
      have hsize : Fits ((last.val - first.val).tdiv step.val + 1) := ⟨by omega, by omega⟩
      refine ⟨⟨_, hsize⟩, ?_, hdiv⟩
      rw [count_eq hempty, I64.sub, I64.checked_of_fits hfits]
      show (do let steps ← I64.div ⟨_, hfits⟩ step; steps.add .one) = _
      rw [I64.div, if_neg hstep, I64.checked_of_fits hsteps]
      exact I64.checked_of_fits hsize
    · by_cases hempty : size first.val last.val step.val = 0
      · have hnil : items first last step = [] :=
          List.eq_nil_of_length_eq_zero (length_items.trans hempty)
        rw [member_empty hempty, hnil]
        rfl
      · exact member_eq hstep hempty (h.resolve_left hempty).2 v

/-- From one to ten in steps of three. -/
theorem meansItsElements_three : MeansItsElements ⟨1, by decide⟩ ⟨10, by decide⟩ ⟨3, by decide⟩ :=
  (meansItsElements_iff (by decide) (by decide)).mpr (.inr ⟨by rw [EndFits]; decide, by decide⟩)

/-- The range of the greatest integer alone. -/
theorem not_meansItsElements_greatest :
    ¬MeansItsElements ⟨2 ^ 63 - 1, by decide⟩ ⟨2 ^ 63 - 1, by decide⟩ .one := by
  intro h
  obtain ⟨depth, hok⟩ := h.foldsWhile (fun _ acc => acc) ()
  have hrun := hok (depth + 1) (Nat.le_succ _)
  cases hrun

end Meaning

end Range

end Fz.Lib
