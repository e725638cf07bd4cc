import Fz.Base.Rose
import Fz.Terms.Float

/-!
# Source identities

What a closure or a struct is, independently of the numbers the runtime gives it: the denotation
of a source function and the identity of a schema.  Functions are named in a module or generated
inside an owner; the order compares owners before the occurrence of a lambda in them, and arities
last.  The order is total, and equal only on equal denotations, so that closure comparison can
rest on it.
-/

namespace Fz.Terms

open Std Fz.Base

/-! ## Modules -/

/-- A parsed module name: a non-empty path of non-empty segments. -/
structure ModuleName where
  segments : List String
  segments_ne : segments ≠ []
  segment_ne : ∀ s ∈ segments, s ≠ ""
  deriving DecidableEq

instance : Ord ModuleName := ⟨fun a b => compare a.segments b.segments⟩

instance : TransOrd ModuleName := inferInstanceAs (TransCmp (compareOn ModuleName.segments))

instance : LawfulEqOrd ModuleName where
  compare_self := ReflOrd.compare_self (α := List String)
  eq_of_compare {a b} h := by
    obtain ⟨xs, _, _⟩ := a
    obtain ⟨ys, _, _⟩ := b
    obtain rfl : xs = ys := LawfulEqOrd.eq_of_compare (α := List String) h
    rfl

/-- A module's source denotation: an ordinary module, or the implementation of a protocol. -/
inductive ModuleDenotation where
  | named (name : ModuleName)
  | protocolImpl (protocol target : ModuleName)
  deriving DecidableEq

/-- The derived order: variant first, then the fields. -/
def ModuleDenotation.cmp : ModuleDenotation → ModuleDenotation → Ordering
  | .named a, .named b => compare a b
  | .named _, .protocolImpl _ _ => .lt
  | .protocolImpl _ _, .named _ => .gt
  | .protocolImpl p t, .protocolImpl p' t' => (compare p p').then (compare t t')

instance : Ord ModuleDenotation where
  compare := ModuleDenotation.cmp

instance : LawfulEqOrd ModuleDenotation where
  compare_self {a} := by
    cases a with
    | named a => exact ReflOrd.compare_self (α := ModuleName)
    | protocolImpl p t =>
      exact Ordering.then_eq_eq.mpr ⟨ReflOrd.compare_self, ReflOrd.compare_self⟩
  eq_of_compare {a b} h := by
    cases a with
    | named a =>
      cases b with
      | named b => rw [LawfulEqOrd.eq_of_compare (a := a) h]
      | protocolImpl p t => exact nomatch h
    | protocolImpl p t =>
      cases b with
      | named b => exact nomatch h
      | protocolImpl p' t' =>
        obtain ⟨hp, ht⟩ := Ordering.then_eq_eq.mp h
        rw [LawfulEqOrd.eq_of_compare hp, LawfulEqOrd.eq_of_compare ht]

instance : OrientedOrd ModuleDenotation where
  eq_swap {a b} := by
    cases a <;> cases b
    · exact OrientedOrd.eq_swap (α := ModuleName)
    · rfl
    · rfl
    · show Ordering.then _ _ = (Ordering.then _ _).swap
      rw [Ordering.swap_then, ← OrientedOrd.eq_swap, ← OrientedOrd.eq_swap]

instance : TransOrd ModuleDenotation := by
  refine transCmp_of_lt_trans fun a b c hab hbc => ?_
  cases a with
  | named a =>
    cases b with
    | named b =>
      cases c with
      | named c =>
        have hab' : compare a b = .lt := hab
        have hbc' : compare b c = .lt := hbc
        have hac := TransCmp.lt_trans hab' hbc'
        exact hac
      | protocolImpl p t => rfl
    | protocolImpl p t =>
      cases c with
      | named c => exact nomatch hbc
      | protocolImpl p' t' => rfl
  | protocolImpl p t =>
    cases b with
    | named b => exact nomatch hab
    | protocolImpl p' t' =>
      cases c with
      | named c => exact nomatch hbc
      | protocolImpl p'' t'' =>
        exact then_lt_trans TransCmp.lt_trans TransCmp.lt_trans hab hbc

/-! ## Functions -/

/-- The source denotation of a function: named in a module, or the `occurrence`-th lambda of its
owner. -/
inductive FunctionDenotation where
  | named (module : Option ModuleDenotation) (name : String) (arity : Nat)
  | generated (owner : FunctionDenotation) (occurrence : Nat) (arity : Nat)
  deriving DecidableEq

def FunctionDenotation.semanticCmp : FunctionDenotation → FunctionDenotation → Ordering
  | .named lm ln la, .named rm rn ra =>
    ((compare lm rm).then (compare ln rn)).then (compare la ra)
  | .named .., .generated .. => .lt
  | .generated .., .named .. => .gt
  | .generated lo lp la, .generated ro rp ra =>
    ((lo.semanticCmp ro).then (compare lp rp)).then (compare la ra)

instance : Ord FunctionDenotation where
  compare := FunctionDenotation.semanticCmp

namespace FunctionDenotation

theorem semanticCmp_self (a : FunctionDenotation) : a.semanticCmp a = .eq := by
  induction a with
  | named m n k => simp [semanticCmp]
  | generated o p k ih => simp [semanticCmp, ih]

theorem eq_of_semanticCmp {a b : FunctionDenotation} (h : a.semanticCmp b = .eq) : a = b := by
  induction a generalizing b with
  | named m n k =>
    cases b with
    | named m' n' k' =>
      simp only [semanticCmp, Ordering.then_eq_eq, LawfulEqOrd.compare_eq_iff_eq] at h
      rw [h.1.1, h.1.2, h.2]
    | generated o p k' => exact nomatch h
  | generated o p k ih =>
    cases b with
    | named m n k' => exact nomatch h
    | generated o' p' k' =>
      simp only [semanticCmp, Ordering.then_eq_eq, LawfulEqOrd.compare_eq_iff_eq] at h
      rw [ih h.1.1, h.1.2, h.2]

instance : LawfulEqCmp semanticCmp where
  compare_self := semanticCmp_self _
  eq_of_compare := eq_of_semanticCmp

instance : LawfulEqOrd FunctionDenotation := inferInstanceAs (LawfulEqCmp semanticCmp)

instance : OrientedOrd FunctionDenotation where
  eq_swap {a b} := by
    show a.semanticCmp b = (b.semanticCmp a).swap
    induction a generalizing b with
    | named m n k =>
      cases b with
      | named m' n' k' =>
        simp only [semanticCmp, Ordering.swap_then]
        rw [← OrientedOrd.eq_swap, ← OrientedOrd.eq_swap, ← OrientedOrd.eq_swap]
      | generated o p k' => rfl
    | generated o p k ih =>
      cases b with
      | named m n k' => rfl
      | generated o' p' k' =>
        simp only [semanticCmp, Ordering.swap_then]
        rw [ih, ← OrientedOrd.eq_swap, ← OrientedOrd.eq_swap]

theorem semanticCmp_lt_trans (a b c : FunctionDenotation) (hab : a.semanticCmp b = .lt)
    (hbc : b.semanticCmp c = .lt) : a.semanticCmp c = .lt := by
  induction a generalizing b c with
  | named m n k =>
    cases b with
    | named m' n' k' =>
      cases c with
      | named m'' n'' k'' =>
        simp only [semanticCmp, Ordering.then_assoc] at hab hbc ⊢
        exact then_lt_trans TransCmp.lt_trans
          (then_lt_trans TransCmp.lt_trans TransCmp.lt_trans) hab hbc
      | generated o p k'' => rfl
    | generated o p k' =>
      cases c with
      | named m'' n'' k'' => exact nomatch hbc
      | generated o' p' k'' => rfl
  | generated o p k ih =>
    cases b with
    | named m n k' => exact nomatch hab
    | generated o' p' k' =>
      cases c with
      | named m'' n'' k'' => exact nomatch hbc
      | generated o'' p'' k'' =>
        simp only [semanticCmp, Ordering.then_assoc] at hab hbc ⊢
        exact then_lt_trans (ih o' o'')
          (then_lt_trans TransCmp.lt_trans TransCmp.lt_trans) hab hbc

instance : TransOrd FunctionDenotation := transCmp_of_lt_trans semanticCmp_lt_trans

end FunctionDenotation

end Fz.Terms
