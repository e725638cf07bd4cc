import Mathlib.Data.List.Basic

/-!
# Successful runs of fallible computations

Inversion of a run that returned a value, for `Except ε` and for `StateT σ (Except ε)`.
A sequence returned a value exactly when each of its parts did, so a proof about a run
peels it one step at a time and never looks at the failing branches.
-/

namespace Fz.Base

universe u v

variable {ε : Type u} {σ α β : Type v}

theorem Except.bind_eq_ok {x : Except ε α} {f : α → Except ε β} {b : β} :
    (x >>= f) = .ok b ↔ ∃ a, x = .ok a ∧ f a = .ok b := by
  cases x with
  | error e => simp [bind, Except.bind]
  | ok a => simp [bind, Except.bind]

theorem Except.map_eq_ok {x : Except ε α} {f : α → β} {b : β} :
    f <$> x = .ok b ↔ ∃ a, x = .ok a ∧ f a = b := by
  cases x with
  | error e => simp [Functor.map, Except.map]
  | ok a => simp [Functor.map, Except.map]

theorem Except.mapM_eq_ok {f : α → Except ε β} {xs : List α} {ys : List β} :
    xs.mapM f = .ok ys ↔ List.Forall₂ (fun x y => f x = .ok y) xs ys := by
  induction xs generalizing ys with
  | nil =>
    rw [List.mapM_nil]
    constructor
    · rintro ⟨⟩
      exact .nil
    · rintro ⟨⟩
      rfl
  | cons x xs ih =>
    rw [List.mapM_cons, Except.bind_eq_ok]
    constructor
    · rintro ⟨y, hy, h⟩
      obtain ⟨ys', hys, h⟩ := Except.bind_eq_ok.mp h
      cases h
      exact .cons hy (ih.mp hys)
    · rintro (_ | ⟨hy, hys⟩)
      exact ⟨_, hy, Except.bind_eq_ok.mpr ⟨_, ih.mpr hys, rfl⟩⟩

/-- What every successful step of a fold keeps, the fold keeps. -/
theorem Except.foldlM_inv {f : β → α → Except ε β} {P : β → Prop}
    (hstep : ∀ b x b', P b → f b x = .ok b' → P b') :
    ∀ {xs : List α} {b b' : β}, P b → xs.foldlM f b = .ok b' → P b'
  | [], b, b', h, hr => by
      rw [List.foldlM_nil] at hr
      cases hr
      exact h
  | x :: xs, b, b', h, hr => by
      rw [List.foldlM_cons, Except.bind_eq_ok] at hr
      obtain ⟨b₁, h₁, hr⟩ := hr
      exact Except.foldlM_inv hstep (hstep b x b₁ h h₁) hr

theorem StateT.bind_eq_ok {x : StateT σ (Except ε) α} {f : α → StateT σ (Except ε) β}
    {s : σ} {r : β × σ} : (x >>= f) s = .ok r ↔ ∃ a s', x s = .ok (a, s') ∧ f a s' = .ok r := by
  show (x s >>= fun p => f p.1 p.2) = .ok r ↔ _
  rw [Except.bind_eq_ok]
  constructor
  · rintro ⟨⟨a, s'⟩, hx, hf⟩
    exact ⟨a, s', hx, hf⟩
  · rintro ⟨a, s', hx, hf⟩
    exact ⟨(a, s'), hx, hf⟩

theorem StateT.bind_run_ok {x : StateT σ (Except ε) α} {a : α} {s s' : σ} (h : x s = .ok (a, s'))
    (f : α → StateT σ (Except ε) β) : (x >>= f) s = f a s' := by
  show (x s >>= fun r => f r.1 r.2) = _
  rw [h]
  rfl

theorem StateT.liftM_bind_run_ok {x : Except ε α} {a : α} (h : x = .ok a)
    (f : α → StateT σ (Except ε) β) (s : σ) :
    ((liftM x : StateT σ (Except ε) α) >>= f) s = f a s := by
  subst h
  rfl

theorem StateT.get_bind_run {f : σ → StateT σ (Except ε) β} {s : σ} : (get >>= f) s = f s s := rfl

@[simp] theorem StateT.pure_eq_ok {a : α} {s : σ} {r : α × σ} :
    (pure a : StateT σ (Except ε) α) s = .ok r ↔ r = (a, s) := by
  show Except.ok (a, s) = .ok r ↔ _
  rw [Except.ok.injEq, eq_comm]

@[simp] theorem StateT.modify_eq_ok {f : σ → σ} {s : σ} {r : PUnit × σ} :
    (modify f : StateT σ (Except ε) PUnit) s = .ok r ↔ r = (⟨⟩, f s) := by
  show Except.ok (PUnit.unit, f s) = .ok r ↔ _
  rw [Except.ok.injEq, eq_comm]

/-- Induction along a successful monadic fold: a relation between the accumulator and
the state that each successful step keeps is kept by the fold. -/
theorem StateT.foldlM_rel {f : β → α → StateT σ (Except ε) β} {P : List α → β → σ → Prop}
    (hstep : ∀ x xs b s b' s', P (x :: xs) b s → f b x s = .ok (b', s') → P xs b' s') :
    ∀ {xs : List α} {b : β} {s : σ} {b' : β} {s' : σ},
      P xs b s → xs.foldlM f b s = .ok (b', s') → P [] b' s'
  | [], b, s, b', s', h, hr => by
      rw [List.foldlM_nil, StateT.pure_eq_ok] at hr
      obtain ⟨rfl, rfl⟩ := Prod.mk.inj hr
      exact h
  | x :: xs, b, s, b', s', h, hr => by
      rw [List.foldlM_cons, StateT.bind_eq_ok] at hr
      obtain ⟨b₁, s₁, h₁, hr⟩ := hr
      exact StateT.foldlM_rel hstep (hstep x xs b s b₁ s₁ h h₁) hr

end Fz.Base
