import Mathlib.Logic.Basic

/-!
# Two runs in lockstep

Two stateful computations that can fail, run from two states.  `Lock I x y Q s t` says that they
end alike: both in a value, with the values and the states they leave related by `Q`, or both in
the same error.  Either way the states are related by `I`.  A state outlives an error.

A sequence is taken apart with `Lock.bind`, whose second half starts from any two states the first
may have left.
-/

namespace Fz.Base

variable {ε σ α α' β β' : Type}

/-- Two ends that are alike. -/
inductive Ends (I : σ → σ → Prop) (Q : α → σ → β → σ → Prop) :
    Except ε α × σ → Except ε β × σ → Prop where
  | ok {a s b t} : I s t → Q a s b t → Ends I Q (.ok a, s) (.ok b, t)
  | error {e s t} : I s t → Ends I Q (.error e, s) (.error e, t)

def Lock (I : σ → σ → Prop) (x : ExceptT ε (StateM σ) α) (y : ExceptT ε (StateM σ) β)
    (Q : α → σ → β → σ → Prop) (s t : σ) : Prop :=
  Ends I Q (x s) (y t)

variable {I : σ → σ → Prop} {x : ExceptT ε (StateM σ) α} {y : ExceptT ε (StateM σ) β}
  {Q Q' : α → σ → β → σ → Prop} {s t : σ}

theorem Ends.rel {r : Except ε α × σ} {r' : Except ε β × σ} (h : Ends I Q r r') : I r.2 r'.2 := by
  cases h with
  | ok hI _ => exact hI
  | error hI => exact hI

/-- Ends with equal values are equal but for their states. -/
theorem Ends.result_eq {r r' : Except ε α × σ} (h : Ends I (fun a _ b _ => a = b) r r') :
    r.1 = r'.1 := by
  cases h with
  | ok _ hab => exact congrArg Except.ok hab
  | error _ => rfl

theorem Lock.mono (h : Lock I x y Q s t)
    (himp : ∀ a s' b t', I s' t' → Q a s' b t' → Q' a s' b t') : Lock I x y Q' s t := by
  unfold Lock at h ⊢
  generalize x s = r at h ⊢
  generalize y t = r' at h ⊢
  cases h with
  | ok hI hQ => exact .ok hI (himp _ _ _ _ hI hQ)
  | error hI => exact .error hI

theorem Lock.bind {f : α → ExceptT ε (StateM σ) α'} {g : β → ExceptT ε (StateM σ) β'}
    {R : α' → σ → β' → σ → Prop} (h : Lock I x y Q s t)
    (hnext : ∀ a s' b t', I s' t' → Q a s' b t' → Lock I (f a) (g b) R s' t') :
    Lock I (x >>= f) (y >>= g) R s t := by
  unfold Lock at h
  have hx : (x >>= f) s = match x s with
      | (.ok a, s') => f a s'
      | (.error e, s') => (.error e, s') := by
    simp only [Bind.bind, ExceptT.bind, ExceptT.mk, StateT.bind]
    rcases x s with ⟨r, s'⟩
    cases r <;> rfl
  have hy : (y >>= g) t = match y t with
      | (.ok b, t') => g b t'
      | (.error e, t') => (.error e, t') := by
    simp only [Bind.bind, ExceptT.bind, ExceptT.mk, StateT.bind]
    rcases y t with ⟨r, t'⟩
    cases r <;> rfl
  unfold Lock
  rw [hx, hy]
  generalize x s = r at h ⊢
  generalize y t = r' at h ⊢
  cases h with
  | ok hI hQ => exact hnext _ _ _ _ hI hQ
  | error hI => exact .error hI

theorem Lock.get_bind {f : σ → ExceptT ε (StateM σ) α} {g : σ → ExceptT ε (StateM σ) β}
    (h : Lock I (f s) (g t) Q s t) : Lock I (get >>= f) (get >>= g) Q s t := h

theorem Lock.modify {f g : σ → σ} {Q : Unit → σ → Unit → σ → Prop} (hI : I (f s) (g t))
    (hQ : Q () (f s) () (g t)) : Lock (ε := ε) I (modify f) (modify g) Q s t := .ok hI hQ

end Fz.Base
