import Fz.Lib.Range

/-!
# Slices of ranges

A slice is asked for by a start, an amount and a stride, and should hold every `stride`-th element
from index `start` on.  The walk starts at the right element, but goes on by `step + stride - 1`
where the distance of those elements is `step * stride`, and it takes the direction of that sum for
the direction of the range.  The two agree when one of the factors is one; otherwise only slices
of at most one element can come out right (`slicesByIndex_iff`).
-/

set_option linter.dupNamespace false

namespace Fz.Lib

namespace Range

/-! ## The functions -/

def reverse : List I64 → List I64 → List I64
  | [], acc => acc
  | head :: tail, acc => reverse tail (head :: acc)

/-- The walk of a slice, at most `fuel` steps of it. -/
def sliceFrom (last step : I64) : Nat → I64 → I64 → List I64 → Run (List I64)
  | 0, _, _, _ => .error .tooDeep
  | fuel + 1, current, amount, acc =>
    if amount.val = 0 then .ok (reverse acc [])
    else if isDone last step current then .ok (reverse acc [])
    else do
      let next ← current.add step
      let amount ← amount.sub .one
      sliceFrom last step fuel next amount (current :: acc)

def slice (first last step start amount stride : I64) (fuel : Nat) : Run (List I64) := do
  let sum ← step.add stride
  let distance ← sum.sub .one
  let offset ← start.mul step
  let current ← first.add offset
  sliceFrom last distance fuel current amount []

theorem reverse_eq (items acc : List I64) : reverse items acc = items.reverse ++ acc := by
  induction items generalizing acc with
  | nil => rfl
  | cons item items ih => rw [reverse, ih, List.reverse_cons, List.append_assoc]; rfl

/-! ## Walks -/

/-- Is a number behind the last one, in the direction of `step`? -/
def Past (last step current : Int) : Prop := if step > 0 then current > last else current < last

instance (last step current : Int) : Decidable (Past last step current) := by
  unfold Past
  infer_instance

theorem past_of_pos {step : Int} (h : 0 < step) (last current : Int) :
    Past last step current ↔ last < current := by
  rw [Past, if_pos h]

theorem past_of_not_pos {step : Int} (h : ¬0 < step) (last current : Int) :
    Past last step current ↔ current < last := by
  rw [Past, if_neg h]

theorem isDone_eq_past (last step current : I64) :
    isDone last step current = decide (Past last.val step.val current.val) := by
  rw [isDone, Bool.eq_iff_iff, decide_eq_true_eq]
  unfold Past
  split <;> simp

/-- At most `amount` numbers from `current` on, in steps of `distance`, until one is past `last` in
the direction of `step`. -/
def walk (last step distance : Int) : Nat → Int → List Int
  | 0, _ => []
  | amount + 1, current =>
    if Past last step current then []
    else current :: walk last step distance amount (current + distance)

/-- The elements of the range at the indices `start`, `start + stride` and so on. -/
def selected (first last step : Int) (start amount stride : Nat) : List Int :=
  (List.range amount).filterMap fun j => (elements first last step)[start + j * stride]?

variable {first last step : Int}

/-- An index is in the range when its number is not past the end. -/
theorem lt_size_iff (hstep : step ≠ 0) (i : Nat) :
    i < size first last step ↔ ¬Past last step (first + i * step) := by
  rw [size, Past]
  split
  · rename_i hpos
    rw [Int.not_lt]
    split
    · rename_i hle
      have hq := Int.ediv_nonneg (show 0 ≤ last - first by omega) (le_of_lt hpos)
      have hmul := Int.le_ediv_iff_mul_le (a := i) (b := last - first) hpos
      omega
    · rename_i hlt
      have hnonneg : 0 ≤ (i : Int) * step := Int.mul_nonneg (by omega) (le_of_lt hpos)
      omega
  · rename_i hneg
    have hneg' : 0 < -step := by omega
    rw [Int.not_lt]
    split
    · rename_i hle
      have hq := Int.ediv_nonneg (show 0 ≤ first - last by omega) (le_of_lt hneg')
      have hmul := Int.le_ediv_iff_mul_le (a := i) (b := first - last) hneg'
      rw [Int.mul_neg] at hmul
      omega
    · rename_i hlt
      have hnonneg : 0 ≤ (i : Int) * -step := Int.mul_nonneg (by omega) (le_of_lt hneg')
      rw [Int.mul_neg] at hnonneg
      omega

theorem getElem?_elements (hstep : step ≠ 0) (i : Nat) : (elements first last step)[i]? =
      if Past last step (first + i * step) then none else some (first + i * step) := by
  rw [elements, List.getElem?_map]
  split
  · rename_i hpast
    rw [List.getElem?_eq_none (by
      rw [List.length_range]
      exact Nat.le_of_not_lt fun hlt => (lt_size_iff hstep i).mp hlt hpast)]
    rfl
  · rename_i hpast
    rw [List.getElem?_range ((lt_size_iff hstep i).mpr hpast)]
    rfl

theorem selected_eq_nil {start : Nat} (h : size first last step ≤ start) (amount stride : Nat) :
    selected first last step start amount stride = [] := by
  refine List.filterMap_eq_nil_iff.mpr fun j _ => List.getElem?_eq_none ?_
  rw [elements, List.length_map, List.length_range]
  omega

/-- The selected elements are a walk in steps of `stride * step`. -/
theorem selected_eq_walk (hstep : step ≠ 0) (stride amount : Nat) : ∀ start : Nat,
    selected first last step start amount stride =
      walk last step (stride * step) amount (first + start * step) := by
  induction amount with
  | zero => exact fun start => rfl
  | succ amount ih =>
    intro start
    rw [walk]
    split
    · rename_i hpast
      exact selected_eq_nil
        (Nat.le_of_not_lt fun hlt => (lt_size_iff hstep start).mp hlt hpast) _ _
    · rename_i hpast
      have hnext : first + start * step + stride * step =
          first + ((start + stride : Nat) : Int) * step := by
        push_cast
        ring
      rw [hnext, ← ih (start + stride), selected, List.range_succ_eq_map, List.filterMap_cons,
        Nat.zero_mul, Nat.add_zero, getElem?_elements hstep, if_neg hpast, List.filterMap_map]
      refine congrArg _ (List.filterMap_congr fun j _ => ?_)
      simp only [Function.comp_apply, Nat.succ_eq_add_one]
      congr 1
      ring

/-! ## What a slice holds -/

theorem walk_congr {dir dir' : Int} (hdir : ∀ c, Past last dir c ↔ Past last dir' c)
    (distance : Int) (amount : Nat) : ∀ current : Int,
    walk last dir distance amount current = walk last dir' distance amount current := by
  induction amount with
  | zero => exact fun current => rfl
  | succ amount ih => simp only [walk, hdir, ih, implies_true]

/-- Two walks in one direction, the first going on by less, agree beyond the first number only if
the first has no second. -/
theorem walk_eq_iff {dir dir' distance distance' current : Int} {amount : Nat}
    (hdir : ∀ c, Past last dir c ↔ Past last dir' c) (hne : distance ≠ distance')
    (hfirst : Past last dir current → Past last dir (current + distance))
    (hsecond : Past last dir (current + distance) → Past last dir (current + distance')) :
    walk last dir distance (amount + 1) current = walk last dir' distance' (amount + 1) current ↔
      amount = 0 ∨ Past last dir (current + distance) := by
  rw [walk, walk]
  simp only [← hdir]
  split
  · rename_i hpast
    exact iff_of_true rfl (.inr (hfirst hpast))
  · rw [List.cons.injEq, and_iff_right rfl]
    cases amount with
    | zero => exact iff_of_true rfl (.inl rfl)
    | succ amount =>
      rw [walk, walk]
      simp only [← hdir]
      by_cases hpast : Past last dir (current + distance)
      · rw [if_pos hpast, if_pos (hsecond hpast)]
        exact iff_of_true rfl (.inr hpast)
      · rw [if_neg hpast]
        refine iff_of_false (fun heq => ?_) (by simp [hpast])
        split at heq
        · exact nomatch heq
        · exact hne (by have := (List.cons.inj heq).1; omega)

/-- When the walk of a slice selects the elements it should. -/
def SliceExact (first last step : Int) (start amount stride : Nat) : Prop :=
  step = 1 ∨ stride = 1 ∨ amount = 0 ∨
    if step < 0 ∧ 0 < step + stride - 1 then first + start * step = last
    else amount = 1 ∨ Past last step (first + start * step + (step + stride - 1))

variable (first last) in
theorem walk_eq_selected_iff (hstep : step ≠ 0) (start amount : Nat) {stride : Nat}
    (hstride : 0 < stride) :
    walk last (step + stride - 1) (step + stride - 1) amount (first + start * step) =
      selected first last step start amount stride ↔
        SliceExact first last step start amount stride := by
  rw [selected_eq_walk hstep, SliceExact]
  generalize first + start * step = current
  by_cases hone : step = 1
  · subst hone
    refine iff_of_true ?_ (.inl rfl)
    rw [show (1 : Int) + stride - 1 = stride * 1 by ring]
    refine walk_congr (fun c => ?_) _ _ _
    rw [past_of_pos (by omega), past_of_pos (by omega)]
  by_cases hstride1 : stride = 1
  · subst hstride1
    refine iff_of_true ?_ (.inr (.inl rfl))
    simp
  cases amount with
  | zero => exact iff_of_true rfl (.inr (.inr (.inl rfl)))
  | succ amount =>
    have hprod : (stride : Int) * step - (step + stride - 1) = (step - 1) * (stride - 1) := by ring
    have hstride' : (0 : Int) < stride - 1 := by omega
    simp only [hone, hstride1, false_or, Nat.add_eq_zero_iff, Nat.one_ne_zero, and_false,
      Nat.add_eq_right]
    by_cases hpos : 0 < step
    -- The sum falls short of the product, and both lead up.
    · have hless : step + stride - 1 < stride * step := by
        have := Int.mul_pos (show 0 < step - 1 by omega) hstride'
        omega
      have hdir : ∀ c, Past last (step + stride - 1) c ↔ Past last step c := by
        intro c
        rw [past_of_pos (by omega), past_of_pos hpos]
      rw [if_neg (by omega), walk_eq_iff hdir (ne_of_lt hless), hdir]
      · rw [hdir, hdir, past_of_pos hpos, past_of_pos hpos]
        omega
      · rw [hdir, hdir, past_of_pos hpos, past_of_pos hpos]
        omega
    · have hmore : stride * step < step + stride - 1 := by
        have := Int.mul_neg_of_neg_of_pos (show step - 1 < 0 by omega) hstride'
        omega
      by_cases hup : 0 < step + stride - 1
      -- The sum leads up where the range goes down.
      · rw [if_pos ⟨by omega, hup⟩, walk, walk]
        simp only [past_of_pos hup, past_of_not_pos hpos]
        rcases lt_trichotomy current last with hlt | heq | hgt
        · rw [if_neg (by omega), if_pos hlt]
          exact iff_of_false (by simp) (by omega)
        · subst heq
          rw [if_neg (by omega), if_neg (by omega)]
          refine iff_of_true ?_ rfl
          cases amount with
          | zero => rfl
          | succ amount =>
            have hdown := Int.mul_neg_of_pos_of_neg (show (0 : Int) < stride by omega)
              (show step < 0 by omega)
            rw [walk, walk, if_pos ((past_of_pos hup _ _).mpr (by omega)),
              if_pos ((past_of_not_pos hpos _ _).mpr (by omega))]
        · rw [if_pos hgt, if_neg (by omega)]
          exact iff_of_false (by simp) (by omega)
      -- The sum falls short of the product, and both lead down.
      · have hdir : ∀ c, Past last (step + stride - 1) c ↔ Past last step c := by
          intro c
          rw [past_of_not_pos (by omega), past_of_not_pos hpos]
        rw [if_neg (by omega), walk_eq_iff hdir (ne_of_gt hmore), hdir]
        · rw [hdir, hdir, past_of_not_pos hpos, past_of_not_pos hpos]
          omega
        · rw [hdir, hdir, past_of_not_pos hpos, past_of_not_pos hpos]
          omega

section Slices

variable {first last step start amount stride : I64}

/-- A walk whose next numbers fit ends with its numbers. -/
theorem sliceFrom_ok (last distance : I64) (hbeyond : Fits (last.val + distance.val)) (n : Nat) :
    ∀ (current amount : I64) (acc : List I64), amount.val = n → ∀ fuel > n,
      ∃ items, sliceFrom last distance fuel current amount acc = .ok (acc.reverse ++ items) ∧
        items.map I64.val = walk last.val distance.val distance.val n current.val := by
  induction n with
  | zero =>
    intro current amount acc hamount fuel hfuel
    obtain ⟨fuel, rfl⟩ := Nat.exists_eq_add_of_lt hfuel
    refine ⟨[], ?_, rfl⟩
    rw [Nat.zero_add, sliceFrom, if_pos (by simpa using hamount), reverse_eq]
  | succ n ih =>
    intro current amount acc hamount fuel hfuel
    obtain ⟨fuel, rfl⟩ := Nat.exists_eq_add_of_lt hfuel
    have hne : amount.val ≠ 0 := by omega
    rw [sliceFrom, if_neg hne, isDone_eq_past, walk]
    by_cases hpast : Past last.val distance.val current.val
    · refine ⟨[], ?_, by rw [if_pos hpast]; rfl⟩
      rw [if_pos (decide_eq_true hpast), reverse_eq]
    · obtain ⟨hlow, hhigh⟩ := current.fits
      obtain ⟨hlow', hhigh'⟩ := hbeyond
      have hnext : Fits (current.val + distance.val) := by
        by_cases hpos : 0 < distance.val
        · rw [past_of_pos hpos] at hpast
          exact ⟨by omega, by omega⟩
        · rw [past_of_not_pos hpos] at hpast
          exact ⟨by omega, by omega⟩
      obtain ⟨hamountLow, hamountHigh⟩ := amount.fits
      have hrest : Fits (amount.val - I64.one.val) := by
        show Fits (amount.val - 1)
        exact ⟨by omega, by omega⟩
      obtain ⟨items, hrun, hitems⟩ := ih ⟨_, hnext⟩ ⟨_, hrest⟩ (current :: acc)
        (by show amount.val - 1 = n; omega) (n + 1 + fuel) (by omega)
      refine ⟨current :: items, ?_, by rw [if_neg hpast, List.map_cons, hitems]⟩
      rw [if_neg (by simpa using hpast), I64.add, I64.checked_of_fits hnext, I64.sub,
        I64.checked_of_fits hrest]
      refine hrun.trans ?_
      rw [List.reverse_cons, List.append_assoc, List.singleton_append]

variable (first last step start amount stride) in
/-- No number that a slice computes leaves the 64 bits. -/
structure AwayFromLimits : Prop where
  sum : Fits (step.val + stride.val)
  offset : Fits (start.val * step.val)
  current : Fits (first.val + start.val * step.val)
  beyond : Fits (last.val + (step.val + stride.val - 1))

variable (first last step start amount stride) in
/-- A slice ends with the elements at its indices. -/
def SlicesByIndex : Prop :=
  ∃ depth, ∀ fuel ≥ depth, ∃ items,
    slice first last step start amount stride fuel = .ok items ∧
      items.map I64.val = selected first.val last.val step.val start.val.toNat amount.val.toNat
        stride.val.toNat

/-- A slice is a walk by the sum of step and stride. -/
theorem slice_ok (hamount : 0 ≤ amount.val) (hstride : 1 ≤ stride.val)
    (haway : AwayFromLimits first last step start stride) : ∀ fuel > amount.val.toNat, ∃ items,
      slice first last step start amount stride fuel = .ok items ∧
        items.map I64.val = walk last.val (step.val + stride.val - 1)
          (step.val + stride.val - 1) amount.val.toNat (first.val + start.val * step.val) := by
  intro fuel hfuel
  have hdistance : Fits (step.val + stride.val - I64.one.val) := by
    obtain ⟨hlow, hhigh⟩ := haway.sum
    obtain ⟨hstep, -⟩ := step.fits
    show Fits (step.val + stride.val - 1)
    exact ⟨by omega, by omega⟩
  obtain ⟨items, hrun, hitems⟩ := sliceFrom_ok last ⟨_, hdistance⟩
    haway.beyond amount.val.toNat ⟨_, haway.current⟩ amount [] (by omega) fuel hfuel
  refine ⟨items, ?_, hitems⟩
  rw [slice, I64.add, I64.checked_of_fits haway.sum]
  show (do
    let distance ← I64.checked (step.val + stride.val - I64.one.val)
    let offset ← start.mul step
    let current ← first.add offset
    sliceFrom last distance fuel current amount []) = _
  rw [I64.checked_of_fits hdistance, I64.mul, I64.checked_of_fits haway.offset]
  show (do
    let current ← I64.checked (first.val + start.val * step.val)
    sliceFrom last ⟨_, hdistance⟩ fuel current amount []) = _
  rw [I64.checked_of_fits haway.current]
  exact hrun

/-- A slice holds the elements at its indices if and only if the step, the stride or the amount
leave no choice of the distance, or the walk ends behind the one element it should have. -/
theorem slicesByIndex_iff (hstep : step.val ≠ 0) (hstart : 0 ≤ start.val)
    (hamount : 0 ≤ amount.val) (hstride : 1 ≤ stride.val)
    (haway : AwayFromLimits first last step start stride) :
    SlicesByIndex first last step start amount stride ↔
      SliceExact first.val last.val step.val start.val.toNat amount.val.toNat stride.val.toNat := by
  have hwalk := walk_eq_selected_iff first.val last.val hstep start.val.toNat amount.val.toNat
    (show 0 < stride.val.toNat by omega)
  rw [Int.toNat_of_nonneg hstart, Int.toNat_of_nonneg (show 0 ≤ stride.val by omega)] at hwalk
  rw [← hwalk]
  have hrun := slice_ok hamount hstride haway
  constructor
  · rintro ⟨depth, h⟩
    obtain ⟨items, hok, hitems⟩ := h (max depth (amount.val.toNat + 1)) (le_max_left _ _)
    obtain ⟨items', hok', hitems'⟩ := hrun (max depth (amount.val.toNat + 1))
      (lt_of_lt_of_le (Nat.lt_succ_self _) (le_max_right _ _))
    rw [hok] at hok'
    cases hok'
    rw [← hitems', hitems]
  · intro heq
    refine ⟨amount.val.toNat + 1, fun fuel hfuel => ?_⟩
    obtain ⟨items, hok, hitems⟩ := hrun fuel hfuel
    exact ⟨items, hok, hitems.trans heq⟩

/-- Every second number from one to ten. -/
theorem slicesByIndex_second :
    SlicesByIndex ⟨1, by decide⟩ ⟨10, by decide⟩ .one .zero ⟨3, by decide⟩ ⟨2, by decide⟩ :=
  (slicesByIndex_iff (by decide) (by decide) (by decide) (by decide)
    ⟨by decide, by decide, by decide, by decide⟩).mpr (.inl rfl)

/-- Every second number of `1..10//2` is one, five and nine; the slice holds one, four and
seven. -/
theorem not_slicesByIndex_steps :
    ¬SlicesByIndex ⟨1, by decide⟩ ⟨10, by decide⟩ ⟨2, by decide⟩ .zero ⟨3, by decide⟩
      ⟨2, by decide⟩ := by
  rintro ⟨depth, h⟩
  obtain ⟨items, hrun, hitems⟩ := h (depth + 4) (Nat.le_add_right _ _)
  have hslice : slice ⟨1, by decide⟩ ⟨10, by decide⟩ ⟨2, by decide⟩ .zero ⟨3, by decide⟩
      ⟨2, by decide⟩ (depth + 4) = .ok [⟨1, by decide⟩, ⟨4, by decide⟩, ⟨7, by decide⟩] := rfl
  rw [hslice] at hrun
  cases hrun
  revert hitems
  decide

end Slices

end Range

end Fz.Lib
