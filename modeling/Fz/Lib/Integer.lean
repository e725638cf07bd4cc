import Mathlib.Data.Int.Basic
import Mathlib.Order.Basic
import Mathlib.Algebra.Group.Int.Defs

/-!
# Checked integers

The integers of the language have 64 bits.  Arithmetic that leaves the range aborts the process;
so does a division by zero.  The remainder of the least integer by `-1` is zero, although its
quotient does not fit.
-/

set_option linter.dupNamespace false

namespace Fz.Lib

/-- A number of 64 bits. -/
abbrev Fits (n : Int) : Prop := -2 ^ 63 ≤ n ∧ n < 2 ^ 63

structure I64 where
  val : Int
  fits : Fits val
  deriving DecidableEq

/-- Why a process stops, or why a run of the model does. -/
inductive Abort where
  | arithmetic
  | panic (reason : String)
  /-- The depth the run was given is used up. -/
  | tooDeep
  deriving DecidableEq

abbrev Run := Except Abort

namespace I64

theorem ext {a b : I64} (h : a.val = b.val) : a = b := by
  cases a
  cases b
  cases h
  rfl

/-- The result of an operation, unless it overflows. -/
def checked (n : Int) : Run I64 := if h : Fits n then .ok ⟨n, h⟩ else .error .arithmetic

def add (a b : I64) : Run I64 := checked (a.val + b.val)

def sub (a b : I64) : Run I64 := checked (a.val - b.val)

def mul (a b : I64) : Run I64 := checked (a.val * b.val)

def neg (a : I64) : Run I64 := checked (-a.val)

def div (a b : I64) : Run I64 :=
  if b.val = 0 then .error .arithmetic else checked (a.val.tdiv b.val)

def rem (a b : I64) : Run I64 :=
  if b.val = 0 then .error .arithmetic else checked (a.val.tmod b.val)

def zero : I64 := ⟨0, by decide⟩

def one : I64 := ⟨1, by decide⟩

theorem checked_of_fits {n : Int} (h : Fits n) : checked n = .ok ⟨n, h⟩ := dif_pos h

theorem checked_of_not_fits {n : Int} (h : ¬Fits n) : checked n = .error .arithmetic := dif_neg h

/-- Only a division by zero has no remainder. -/
theorem rem_ok (a : I64) {b : I64} (hb : b.val ≠ 0) :
    ∃ rest, a.rem b = .ok rest ∧ rest.val = a.val.tmod b.val := by
  have hfits : Fits (a.val.tmod b.val) := by
    obtain ⟨hlow, hhigh⟩ := a.fits
    have habs : (a.val.tmod b.val).natAbs ≤ a.val.natAbs := by
      rw [Int.natAbs_tmod]
      exact Nat.mod_le _ _
    rcases Int.le_total 0 a.val with hpos | hneg
    · have := Int.tmod_nonneg b.val hpos
      exact ⟨by omega, by omega⟩
    · have := Int.tmod_nonneg b.val (show 0 ≤ -a.val by omega)
      rw [Int.neg_tmod] at this
      exact ⟨by omega, by omega⟩
  refine ⟨⟨_, hfits⟩, ?_, rfl⟩
  rw [rem, if_neg hb, checked_of_fits hfits]

end I64

end Fz.Lib
