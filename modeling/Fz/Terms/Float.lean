import Mathlib.Order.Compare
import Mathlib.Data.Nat.Log
import Mathlib.Tactic.Ring
import Mathlib.Tactic.Linarith

/-!
# Finite floats and their order against integers

A 64-bit float is kept as the three fields of its bit pattern.  Its exact value is a dyadic
rational; every such value is an integer number of units of `2 ^ -1074`, so that comparisons of
floats with floats and with integers are comparisons of integers.

The conversions follow the machine's: `ofI64` rounds to nearest, ties to even, `toI64` truncates
toward zero and saturates.  `compareIntFloat` uses both, and the point of this module is that it
nevertheless answers by exact value: where the truncated float equals the integer, the integer is
itself a float, and the rounding conversion is exact on it (`compareIntFloat_eq`).
-/

namespace Fz.Terms

open Std

/-- What the comparison code asserts about its arguments, and the way a bounded run of the model
ends when its bound is too small. -/
inductive Panic where
  | absentCarrier
  | unpublishedMap
  | nonfiniteFloat
  | unregisteredAtom
  | unregisteredClosure
  | internalClosure
  | internalSchema
  | malformedObject
  | outOfFuel
  deriving DecidableEq, Repr

/-- Strict order keeps numeric kinds apart, widening order compares numbers by value. -/
inductive NumericMode where
  | strict
  | widening
  deriving DecidableEq, Repr

/-! ## The float format -/

/-- A 64-bit float as the fields of its bit pattern. -/
structure F64 where
  negative : Bool
  exponent : Nat
  fraction : Nat
  exponent_lt : exponent < 2 ^ 11
  fraction_lt : fraction < 2 ^ 52
  deriving DecidableEq

namespace F64

/-- The least precision of the format: its values are multiples of `2 ^ -1074`. -/
def unitBits : Nat := 1074

/-- The number of units of least precision in one. -/
def unitsPerOne : Nat := 2 ^ unitBits

def isFinite (x : F64) : Bool := x.exponent != 2047

def isNan (x : F64) : Bool := x.exponent == 2047 && x.fraction != 0

/-- The bit pattern without its sign bit. -/
def magnitude (x : F64) : Nat := x.exponent * 2 ^ 52 + x.fraction

/-- The absolute value in units of `2 ^ -1074`; subnormals have no implicit leading bit. -/
def units (x : F64) : Nat :=
  (if x.exponent = 0 then x.fraction else 2 ^ 52 + x.fraction) * 2 ^ (x.exponent - 1)

/-- The exact value in units of `2 ^ -1074`. -/
def value (x : F64) : Int := if x.negative then -(x.units : Int) else x.units

/-- The bit pattern as `total_cmp` reads it: the bits of a negative float are flipped below the
sign, so that a larger magnitude comes first. -/
def totalKey (x : F64) : Int := if x.negative then -(x.magnitude : Int) - 1 else x.magnitude

def totalCmp (x y : F64) : Ordering := compare x.totalKey y.totalKey

def partialCmp (x y : F64) : Option Ordering :=
  if x.isNan || y.isNan then none else some (compare x.value y.value)

def ge (x y : F64) : Bool := (x.partialCmp y).any Ordering.isGE

def lt (x y : F64) : Bool := (x.partialCmp y).any Ordering.isLT

def neg (x : F64) : F64 := { x with negative := !x.negative }

/-- A float from its sign and the remaining 63 bits. -/
def ofMagnitude (negative : Bool) (magnitude : Nat) : F64 where
  negative
  exponent := magnitude / 2 ^ 52 % 2 ^ 11
  fraction := magnitude % 2 ^ 52
  exponent_lt := Nat.mod_lt _ (by decide)
  fraction_lt := Nat.mod_lt _ (by decide)

/-- The bit pattern of a natural number rounded to nearest, ties to even.  A significand that
rounds up to `2 ^ 53` carries into the exponent field. -/
def roundMagnitude (m : Nat) : Nat :=
  if m = 0 then 0
  else
    let k := m.log2
    if k ≤ 52 then (1022 + k) * 2 ^ 52 + m * 2 ^ (52 - k)
    else
      let q := m / 2 ^ (k - 52)
      let r := m % 2 ^ (k - 52)
      let half := 2 ^ (k - 53)
      (1022 + k) * 2 ^ 52 + if half < r ∨ r = half ∧ q % 2 = 1 then q + 1 else q

/-- `integer as f64`. -/
def ofI64 (n : Int64) : F64 := ofMagnitude (decide (n.toInt < 0)) (roundMagnitude n.toInt.natAbs)

/-- `float as i64`: truncated toward zero, saturated at the ends of the range. -/
def toI64 (x : F64) : Int64 :=
  if x.isNan then 0
  else Int64.ofInt (max (-2 ^ 63) (min (2 ^ 63 - 1) (x.value.tdiv unitsPerOne)))

end F64

/-- The order of two finite floats. -/
def floatCmp (a b : F64) (mode : NumericMode) : Except Panic Ordering :=
  if !(a.isFinite && b.isFinite) then .error .nonfiniteFloat
  else match mode with
    | .strict => .ok (a.totalCmp b)
    | .widening => match a.partialCmp b with
      | some o => .ok o
      | none => .error .nonfiniteFloat

/-- Exact comparison of an integer with a float, without rounding the integer. -/
def compareIntFloat (integer : Int64) (float : F64) : Except Panic Ordering :=
  if !float.isFinite then .error .nonfiniteFloat
  else if float.ge (F64.ofI64 Int64.minValue).neg then .ok .lt
  else if float.lt (F64.ofI64 Int64.minValue) then .ok .gt
  else do
    let o := compare integer.toInt float.toI64.toInt
    if o ≠ .eq then return o
    floatCmp (F64.ofI64 integer) float .widening

/-! ## Magnitudes and values -/

theorem compare_congr {a b c d : Int} (hlt : a < b ↔ c < d) (hgt : b < a ↔ d < c) :
    compare a b = compare c d := by
  simp only [Int.compare_eq_ite_lt, hlt, hgt]

namespace F64

theorem units_lt (x : F64) : x.units < 2 ^ 52 * 2 ^ x.exponent := by
  have hf := x.fraction_lt
  simp only [units]
  by_cases h : x.exponent = 0
  · simp only [h, ↓reduceIte]
    omega
  · obtain ⟨e, he⟩ := Nat.exists_eq_succ_of_ne_zero h
    simp only [he, Nat.succ_ne_zero, ↓reduceIte, Nat.succ_sub_one, Nat.pow_succ]
    calc (2 ^ 52 + x.fraction) * 2 ^ e
        < 2 ^ 53 * 2 ^ e := Nat.mul_lt_mul_of_pos_right (by omega) (by positivity)
      _ = 2 ^ 52 * (2 ^ e * 2) := by ring

theorem le_units (x : F64) (h : x.exponent ≠ 0) : 2 ^ 52 * 2 ^ (x.exponent - 1) ≤ x.units := by
  simp only [units, h, ↓reduceIte]
  exact Nat.mul_le_mul_right _ (by omega)

theorem units_lt_units {x y : F64} (h : x.magnitude < y.magnitude) : x.units < y.units := by
  have hfx := x.fraction_lt
  have hfy := y.fraction_lt
  simp only [magnitude] at h
  by_cases he : x.exponent = y.exponent
  · have hf : x.fraction < y.fraction := by omega
    simp only [units, he]
    apply Nat.mul_lt_mul_of_pos_right _ (by positivity)
    split <;> omega
  · have hlt : x.exponent < y.exponent := by omega
    calc x.units
        < 2 ^ 52 * 2 ^ x.exponent := x.units_lt
      _ ≤ 2 ^ 52 * 2 ^ (y.exponent - 1) :=
          Nat.mul_le_mul_left _ (Nat.pow_le_pow_right (by decide) (by omega))
      _ ≤ y.units := y.le_units (by omega)

theorem units_eq_units {x y : F64} (h : x.magnitude = y.magnitude) : x.units = y.units := by
  have hfx := x.fraction_lt
  have hfy := y.fraction_lt
  simp only [magnitude] at h
  have he : x.exponent = y.exponent := by omega
  have hf : x.fraction = y.fraction := by omega
  simp only [units, he, hf]

theorem compare_magnitude (x y : F64) :
    compare x.magnitude y.magnitude = compare x.units y.units := by
  rcases Nat.lt_trichotomy x.magnitude y.magnitude with h | h | h
  · rw [Nat.compare_eq_lt.mpr h, Nat.compare_eq_lt.mpr (units_lt_units h)]
  · rw [Nat.compare_eq_eq.mpr h, Nat.compare_eq_eq.mpr (units_eq_units h)]
  · rw [Nat.compare_eq_gt.mpr h, Nat.compare_eq_gt.mpr (units_lt_units h)]

theorem eq_of_magnitude {x y : F64} (hs : x.negative = y.negative)
    (hm : x.magnitude = y.magnitude) : x = y := by
  have hfx := x.fraction_lt
  have hfy := y.fraction_lt
  simp only [magnitude] at hm
  obtain ⟨sx, ex, fx, _, _⟩ := x
  obtain ⟨sy, ey, fy, _, _⟩ := y
  simp only at hs hm hfx hfy
  obtain rfl : ex = ey := by omega
  obtain rfl : fx = fy := by omega
  obtain rfl := hs
  rfl

theorem isNan_of_isFinite {x : F64} (h : x.isFinite) : x.isNan = false := by
  simp only [isFinite, bne_iff_ne, ne_eq] at h
  simp [isNan, h]

/-- The place of a float among all numbers: by exact value, and among the numbers of one value the
integer (three times the value) first, then the negative zero, then every other float. -/
def orderKey (x : F64) : Int := 3 * x.value + if x.negative && x.units == 0 then 1 else 2

theorem magnitude_pos_iff (x : F64) : 0 < x.magnitude ↔ 0 < x.units := by
  have h := compare_magnitude (ofMagnitude false 0) x
  have hm : (ofMagnitude false 0).magnitude = 0 := by decide
  have hu : (ofMagnitude false 0).units = 0 := by decide
  rw [hm, hu] at h
  rw [← Nat.compare_eq_lt, ← Nat.compare_eq_lt, h]

theorem totalKey_lt_iff (x y : F64) : x.totalKey < y.totalKey ↔ x.orderKey < y.orderKey := by
  have hlt : x.magnitude < y.magnitude ↔ x.units < y.units := by
    rw [← Nat.compare_eq_lt, compare_magnitude, Nat.compare_eq_lt]
  have hgt : y.magnitude < x.magnitude ↔ y.units < x.units := by
    rw [← Nat.compare_eq_lt, compare_magnitude, Nat.compare_eq_lt]
  have hx := magnitude_pos_iff x
  have hy := magnitude_pos_iff y
  simp only [totalKey, orderKey, value]
  cases x.negative <;> cases y.negative <;>
    simp only [Bool.false_and, Bool.true_and, Bool.false_eq_true, ↓reduceIte, beq_iff_eq]
  · omega
  · split <;> omega
  · split <;> omega
  · split <;> split <;> omega

theorem totalCmp_eq (x y : F64) : x.totalCmp y = compare x.orderKey y.orderKey :=
  compare_congr (totalKey_lt_iff x y) (totalKey_lt_iff y x)

theorem orderKey_bounds (x : F64) : 3 * x.value < x.orderKey ∧ x.orderKey < 3 * x.value + 3 := by
  simp only [orderKey]
  split <;> omega

theorem orderKey_injective {x y : F64} (h : x.orderKey = y.orderKey) : x = y := by
  have hc : x.totalKey = y.totalKey := by
    rw [← Int.compare_eq_eq, ← totalCmp, totalCmp_eq, h, Int.compare_eq_eq]
  simp only [totalKey] at hc
  cases hx : x.negative <;> cases hy : y.negative <;>
    simp only [hx, hy, Bool.false_eq_true, ↓reduceIte] at hc
  · exact eq_of_magnitude (hx.trans hy.symm) (by omega)
  · omega
  · omega
  · exact eq_of_magnitude (hx.trans hy.symm) (by omega)

/-! ## Conversions -/

theorem unitsPerOne_pos : 0 < unitsPerOne := by
  simp only [unitsPerOne, Nat.pow_pos, Nat.zero_lt_two]

/-- The significand a natural number has when it is exactly a float. -/
theorem roundMagnitude_eq {m : Nat} (hm : m ≠ 0) (hexact : 52 < m.log2 → 2 ^ (m.log2 - 52) ∣ m) :
    ∃ q, roundMagnitude m = (1022 + m.log2) * 2 ^ 52 + q ∧ 2 ^ 52 ≤ q ∧ q < 2 ^ 53 ∧
      q * 2 ^ (1022 + m.log2) = m * unitsPerOne := by
  have hlo := Nat.log2_self_le hm
  have hhi := @Nat.lt_log2_self m
  generalize hk : m.log2 = k at *
  simp only [roundMagnitude, hm, hk, ↓reduceIte]
  by_cases hle : k ≤ 52
  · obtain ⟨d, hd⟩ := Nat.exists_eq_add_of_le hle
    simp only [hle, ↓reduceIte]
    refine ⟨m * 2 ^ (52 - k), rfl, ?_, ?_, ?_⟩
    · calc 2 ^ 52 = 2 ^ k * 2 ^ (52 - k) := by rw [← Nat.pow_add]; congr 1; omega
        _ ≤ m * 2 ^ (52 - k) := Nat.mul_le_mul_right _ hlo
    · calc m * 2 ^ (52 - k) < 2 ^ (k + 1) * 2 ^ (52 - k) :=
          Nat.mul_lt_mul_of_pos_right hhi (by positivity)
        _ = 2 ^ 53 := by rw [← Nat.pow_add]; congr 1; omega
    · have hsum : 52 - k + (1022 + k) = unitBits := by
        simp only [unitBits]
        omega
      rw [Nat.mul_assoc, ← Nat.pow_add, hsum, unitsPerOne]
  · obtain ⟨q, hq⟩ := hexact (by omega)
    have hpos : 0 < 2 ^ (k - 52) := by positivity
    have hdiv : m / 2 ^ (k - 52) = q := by rw [hq, Nat.mul_div_cancel_left _ hpos]
    have hmod : m % 2 ^ (k - 52) = 0 := by rw [hq, Nat.mul_mod_right]
    have hhalf : 0 < 2 ^ (k - 53) := by positivity
    simp only [hle, ↓reduceIte, hdiv, hmod]
    rw [if_neg (by omega)]
    refine ⟨q, rfl, ?_, ?_, ?_⟩
    · have : 2 ^ (k - 52) * 2 ^ 52 ≤ 2 ^ (k - 52) * q := by
        rw [← hq, ← Nat.pow_add]
        convert hlo using 2
        omega
      exact Nat.le_of_mul_le_mul_left this hpos
    · have : 2 ^ (k - 52) * q < 2 ^ (k - 52) * 2 ^ 53 := by
        rw [← hq, ← Nat.pow_add]
        convert hhi using 2
        omega
      exact Nat.lt_of_mul_lt_mul_left this
    · have hexp : 1022 + k = (k - 52) + unitBits := by
        simp only [unitBits]
        omega
      rw [hexp, Nat.pow_add, ← unitsPerOne, ← Nat.mul_assoc, Nat.mul_comm q, ← hq]

theorem ofI64_exact (n : Int64)
    (hexact : 52 < n.toInt.natAbs.log2 → 2 ^ (n.toInt.natAbs.log2 - 52) ∣ n.toInt.natAbs) :
    (ofI64 n).isFinite ∧ (ofI64 n).value = n.toInt * unitsPerOne := by
  by_cases hn : n.toInt = 0
  · have hz : (ofMagnitude false 0).isFinite ∧ (ofMagnitude false 0).value = 0 := by decide
    simp only [ofI64, hn, Int.natAbs_zero, roundMagnitude, ↓reduceIte, Int.lt_irrefl, decide_false,
      hz, Int.zero_mul, and_self]
  · have hm : n.toInt.natAbs ≠ 0 := by omega
    obtain ⟨q, hq, hlo, hhi, hval⟩ := roundMagnitude_eq hm hexact
    have hk : n.toInt.natAbs.log2 < 64 := by
      rw [Nat.log2_lt hm]
      have := n.le_toInt
      have := n.toInt_lt
      omega
    have hexp : (ofI64 n).exponent = 1023 + n.toInt.natAbs.log2 := by
      simp only [ofI64, ofMagnitude, hq]
      omega
    have hfrac : (ofI64 n).fraction = q - 2 ^ 52 := by
      simp only [ofI64, ofMagnitude, hq]
      omega
    have hunits : (ofI64 n).units = n.toInt.natAbs * unitsPerOne := by
      have hsig : 2 ^ 52 + (q - 2 ^ 52) = q := by omega
      have hpred : 1023 + n.toInt.natAbs.log2 - 1 = 1022 + n.toInt.natAbs.log2 := by omega
      simp only [units, hexp, hfrac]
      rw [if_neg (by omega), hsig, hpred, hval]
    constructor
    · simp only [isFinite, hexp, bne_iff_ne]
      omega
    · simp only [value, hunits]
      simp only [ofI64, ofMagnitude, decide_eq_true_eq]
      split
      · rw [Int.natCast_mul, ← Int.neg_mul, Int.ofNat_natAbs_of_nonpos (by omega), Int.neg_neg]
      · rw [Int.natCast_mul, Int.natAbs_of_nonneg (by omega)]

theorem ofI64_minValue : (ofI64 Int64.minValue).isFinite ∧
    (ofI64 Int64.minValue).value = -2 ^ 63 * unitsPerOne :=
  ofI64_exact Int64.minValue (fun _ => by decide)

theorem neg_value (x : F64) : x.neg.value = -x.value := by
  have hu : x.neg.units = x.units := rfl
  have hn : x.neg.negative = !x.negative := rfl
  simp only [value, hu, hn]
  cases h : x.negative with
  | false => simp
  | true => simp

theorem log2_significand {q : Nat} (hlo : 2 ^ 52 ≤ q) (hhi : q < 2 ^ 53) (k : Nat) :
    (q * 2 ^ k).log2 = 52 + k := by
  have hk : 0 < 2 ^ k := Nat.two_pow_pos k
  have hne : q * 2 ^ k ≠ 0 := Nat.mul_ne_zero (by omega) (by omega)
  rw [Nat.log2_eq_iff hne]
  constructor
  · rw [Nat.pow_add]
    exact Nat.mul_le_mul_right _ hlo
  · rw [Nat.add_right_comm, Nat.pow_add]
    exact Nat.mul_lt_mul_of_pos_right hhi hk

theorem significand_dvd_trunc {x : F64} (h : 52 < (x.units / unitsPerOne).log2) :
    2 ^ ((x.units / unitsPerOne).log2 - 52) ∣ x.units / unitsPerOne := by
  have hU := unitsPerOne_pos
  have hne : x.units / unitsPerOne ≠ 0 := by
    intro h0
    simp [h0] at h
  have hbig : 2 ^ 53 * unitsPerOne ≤ x.units := by
    have hle := (Nat.le_log2 hne).mp h
    exact (Nat.le_div_iff_mul_le hU).mp hle
  -- the exponent field exceeds `1075`: otherwise the float is below `2 ^ 53`
  have hexp : unitBits + 1 < x.exponent := by
    by_contra hcon
    have hle : 2 ^ 52 * 2 ^ x.exponent ≤ 2 ^ 52 * 2 ^ (unitBits + 1) :=
      Nat.mul_le_mul_left _ (Nat.pow_le_pow_right (by decide) (by omega))
    have hlt := Nat.lt_of_lt_of_le x.units_lt hle
    have : 2 ^ 52 * 2 ^ (unitBits + 1) = 2 ^ 53 * unitsPerOne := by
      rw [unitsPerOne, Nat.pow_succ]
      ring
    omega
  obtain ⟨d, hd⟩ := Nat.exists_eq_add_of_lt hexp
  have hsplit : x.exponent - 1 = (d + 1) + unitBits := by omega
  have hunits : x.units = (2 ^ 52 + x.fraction) * 2 ^ (d + 1) * unitsPerOne := by
    have h0 : x.exponent ≠ 0 := by omega
    simp only [units, h0, ↓reduceIte]
    rw [hsplit, Nat.pow_add, ← unitsPerOne, Nat.mul_assoc]
  have hdiv : x.units / unitsPerOne = (2 ^ 52 + x.fraction) * 2 ^ (d + 1) := by
    rw [hunits, Nat.mul_div_cancel _ hU]
  have hf := x.fraction_lt
  have hlog : (x.units / unitsPerOne).log2 = 52 + (d + 1) := by
    rw [hdiv]
    exact log2_significand (by omega) (by omega) (d + 1)
  rw [hlog, hdiv, Nat.add_sub_cancel_left]
  exact Nat.dvd_mul_left ..

theorem natAbs_value (x : F64) : x.value.natAbs = x.units := by
  simp only [value]
  split <;> simp

theorem natAbs_tdiv_value (x : F64) :
    (x.value.tdiv unitsPerOne).natAbs = x.units / unitsPerOne := by
  rw [Int.natAbs_tdiv, natAbs_value, Int.natAbs_natCast]
  rfl

theorem ge_eq {x y : F64} (hx : x.isFinite) (hy : y.isFinite) :
    x.ge y = decide (y.value ≤ x.value) := by
  simp only [ge, partialCmp, isNan_of_isFinite hx, isNan_of_isFinite hy, Bool.or_self,
    Bool.false_eq_true, ↓reduceIte, Option.any_some]
  rw [Bool.eq_iff_iff, decide_eq_true_eq]
  exact Int.isGE_compare

theorem lt_eq {x y : F64} (hx : x.isFinite) (hy : y.isFinite) :
    x.lt y = decide (x.value < y.value) := by
  simp only [lt, partialCmp, isNan_of_isFinite hx, isNan_of_isFinite hy, Bool.or_self,
    Bool.false_eq_true, ↓reduceIte, Option.any_some]
  rw [Bool.eq_iff_iff, decide_eq_true_eq, Ordering.isLT_iff_eq_lt]
  exact Int.compare_eq_lt

theorem toI64_eq {x : F64} (hx : x.isFinite) (hlo : -2 ^ 63 ≤ x.value.tdiv unitsPerOne)
    (hhi : x.value.tdiv unitsPerOne < 2 ^ 63) : x.toI64.toInt = x.value.tdiv unitsPerOne := by
  simp only [toI64, isNan_of_isFinite hx, Bool.false_eq_true, ↓reduceIte]
  rw [Int.min_eq_right (by omega), Int.max_eq_right (by omega)]
  exact Int64.toInt_ofInt_of_le (by omega) (by omega)

end F64

/-! ## The mixed comparison -/

theorem mul_lt_of_lt_tdiv {v n u : Int} (hu : 0 < u) (h : n < v.tdiv u) : n * u < v := by
  have hneg : (-v).tdiv u < -n := by
    rw [Int.neg_tdiv]
    omega
  have := Int.lt_mul_of_tdiv_lt hu hneg
  rw [Int.neg_mul] at this
  omega

theorem tdiv_lt_of_lt_mul {v n u : Int} (hn : 0 < n) (hu : 0 < u) (h : v < n * u) :
    v.tdiv u < n := by
  by_contra hcon
  have hle : n * u ≤ v.tdiv u * u := Int.mul_le_mul_of_nonneg_right (by omega) (by omega)
  have hlow : 1 * u ≤ n * u := Int.mul_le_mul_of_nonneg_right (by omega) (by omega)
  have hmul := Int.tdiv_mul_le v (by omega : u ≠ 0)
  split at hmul <;> omega

/-- The mixed comparison orders by exact value, although it converts in both directions. -/
theorem compareIntFloat_eq (n : Int64) {x : F64} (hx : x.isFinite) :
    compareIntFloat n x = .ok (compare (n.toInt * F64.unitsPerOne) x.value) := by
  obtain ⟨hminf, hmin⟩ := F64.ofI64_minValue
  have hnegf : (F64.ofI64 Int64.minValue).neg.isFinite := hminf
  have hnlo := n.le_toInt
  have hnhi := n.toInt_lt
  have hU : (0 : Int) < F64.unitsPerOne := by exact_mod_cast F64.unitsPerOne_pos
  simp only [compareIntFloat, hx, F64.ge_eq hx hnegf, F64.lt_eq hx hminf, F64.neg_value, hmin,
    Bool.not_true, Bool.false_eq_true, ↓reduceIte, decide_eq_true_eq]
  by_cases hge : -(-2 ^ 63 * (F64.unitsPerOne : Int)) ≤ x.value
  · rw [if_pos hge]
    have hlt : n.toInt * F64.unitsPerOne < 2 ^ 63 * F64.unitsPerOne :=
      Int.mul_lt_mul_of_pos_right hnhi hU
    rw [Int.compare_eq_lt.mpr (by omega)]
  rw [if_neg hge]
  by_cases hlt : x.value < -2 ^ 63 * (F64.unitsPerOne : Int)
  · rw [if_pos hlt]
    have hle : -2 ^ 63 * (F64.unitsPerOne : Int) ≤ n.toInt * F64.unitsPerOne :=
      Int.mul_le_mul_of_nonneg_right hnlo (by omega)
    rw [Int.compare_eq_gt.mpr (by omega)]
  rw [if_neg hlt]
  -- the float is inside the integer range, so its truncation is what `toI64` returns
  have htrunc : x.toI64.toInt = x.value.tdiv F64.unitsPerOne := by
    apply F64.toI64_eq hx
    · by_contra hcon
      have := Int.lt_mul_of_tdiv_lt hU (Int.not_le.mp hcon)
      omega
    · exact tdiv_lt_of_lt_mul (by decide) hU (by omega)
  rw [htrunc]
  rcases Int.lt_trichotomy n.toInt (x.value.tdiv F64.unitsPerOne) with h | h | h
  · rw [Int.compare_eq_lt.mpr h, Int.compare_eq_lt.mpr (mul_lt_of_lt_tdiv hU h)]
    rfl
  · -- the integer is the truncated float, hence a float itself and converted exactly
    have hexact := F64.ofI64_exact n (fun hbig => by
      rw [h, F64.natAbs_tdiv_value] at hbig ⊢
      exact F64.significand_dvd_trunc hbig)
    rw [Int.compare_eq_eq.mpr h]
    simp only [ne_eq, not_true_eq_false, ↓reduceIte, floatCmp, hexact.1, hx, Bool.and_self,
      Bool.not_true, Bool.false_eq_true, F64.partialCmp, F64.isNan_of_isFinite hexact.1,
      F64.isNan_of_isFinite hx, Bool.or_self, hexact.2]
  · rw [Int.compare_eq_gt.mpr h, Int.compare_eq_gt.mpr (Int.lt_mul_of_tdiv_lt hU h)]
    rfl

end Fz.Terms
