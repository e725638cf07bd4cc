import Mathlib.Data.List.Basic

/-!
# Runs of a partial step function

A system is a step function that takes an action and answers the next state with the
events of the step, or nothing when the action is not enabled.  `Run step ok s₀` are its
runs from `s₀` in which every step meets the side condition `ok` on the state before it.

`Run.inv` and `Run.inv_trace` prove a property of every state of a run from what one
step keeps, without and with the events so far.  `Run.simulate` carries a run over to a
second step function.
-/

namespace Fz.Base

variable {σ τ α ε β : Type*}

/-- The runs from `s₀`, with the actions taken and the events seen, oldest first. -/
inductive Run (step : σ → α → Option (σ × List ε)) (ok : σ → α → Prop) (s₀ : σ) :
    List α → List ε → σ → Prop where
  | start : Run step ok s₀ [] [] s₀
  | snoc {as es s a s' es'} :
      Run step ok s₀ as es s → ok s a → step s a = some (s', es') →
      Run step ok s₀ (as ++ [a]) (es ++ es') s'

/-- No side condition. -/
def anyStep (_ : σ) (_ : α) : Prop := True

namespace Run

variable {step : σ → α → Option (σ × List ε)} {ok ok' : σ → α → Prop} {s₀ s : σ}
  {as : List α} {es : List ε}

theorem mono (hok : ∀ s a, ok s a → ok' s a) (h : Run step ok s₀ as es s) :
    Run step ok' s₀ as es s := by
  induction h with
  | start => exact .start
  | snoc _ ha hs ih => exact .snoc ih (hok _ _ ha) hs

/-- What holds at the start and is kept by every allowed step holds along every run. -/
theorem inv {I : σ → Prop} (h₀ : I s₀)
    (hstep : ∀ s a s' es, I s → ok s a → step s a = some (s', es) → I s')
    (h : Run step ok s₀ as es s) : I s := by
  induction h with
  | start => exact h₀
  | snoc _ ha hs ih => exact hstep _ _ _ _ ih ha hs

/-- The same for a relation between the events so far and the state. -/
theorem inv_trace {I : List ε → σ → Prop} (h₀ : I [] s₀)
    (hstep : ∀ tr s a s' es, I tr s → ok s a → step s a = some (s', es) → I (tr ++ es) s')
    (h : Run step ok s₀ as es s) : I es s := by
  induction h with
  | start => exact h₀
  | snoc _ ha hs ih => exact hstep _ _ _ _ _ ih ha hs

/-- A run followed by a run is a run. -/
theorem append {s₁ s₂ : σ} {as' : List α} {es' : List ε} (h : Run step ok s₀ as es s₁)
    (h' : Run step ok s₁ as' es' s₂) : Run step ok s₀ (as ++ as') (es ++ es') s₂ := by
  induction h' with
  | start => simpa using h
  | snoc _ ha hs ih =>
    rw [← List.append_assoc, ← List.append_assoc]
    exact .snoc ih ha hs

/-- A step-by-step simulation carries a run over, actions kept, with the same visible
events. -/
theorem simulate {step' : τ → α → Option (τ × List ε)} {ok' : τ → α → Prop} {R : σ → τ → Prop}
    {t₀ : τ} {visible : ε → Option β} (h₀ : R s₀ t₀)
    (hstep : ∀ s t a s' es, R s t → ok s a → step s a = some (s', es) →
      ∃ t' fs, ok' t a ∧ step' t a = some (t', fs) ∧ R s' t' ∧
        es.filterMap visible = fs.filterMap visible) (h : Run step ok s₀ as es s) :
    ∃ t fs, Run step' ok' t₀ as fs t ∧ R s t ∧ es.filterMap visible = fs.filterMap visible := by
  induction h with
  | start => exact ⟨t₀, [], .start, h₀, rfl⟩
  | snoc _ ha hs ih =>
    obtain ⟨t, fs, hrun, hR, hvis⟩ := ih
    obtain ⟨t', fs', hok', hs', hR', hvis'⟩ := hstep _ t _ _ _ hR ha hs
    refine ⟨t', fs ++ fs', .snoc hrun hok' hs', hR', ?_⟩
    rw [List.filterMap_append, List.filterMap_append, hvis, hvis']

end Run

/-- Take a list of actions in order, collecting the events.  `none` when one of them is
not enabled. -/
def runActs (step : σ → α → Option (σ × List ε)) : σ → List α → Option (σ × List ε)
  | s, [] => some (s, [])
  | s, a :: as =>
    match step s a with
    | none => none
    | some (s₁, es) =>
      match runActs step s₁ as with
      | none => none
      | some (s₂, es') => some (s₂, es ++ es')

/-- Each action is allowed in the state it is taken in. -/
def Allowed (step : σ → α → Option (σ × List ε)) (ok : σ → α → Prop) : σ → List α → Prop
  | _, [] => True
  | s, a :: as => ok s a ∧ ∀ s' es, step s a = some (s', es) → Allowed step ok s' as

theorem Allowed.of_forall {step : σ → α → Option (σ × List ε)} {ok : σ → α → Prop}
    {as : List α} (hok : ∀ a ∈ as, ∀ s, ok s a) (s : σ) : Allowed step ok s as := by
  induction as generalizing s with
  | nil => trivial
  | cons a as ih =>
    obtain ⟨ha, has⟩ := List.forall_mem_cons.mp hok
    exact ⟨ha s, fun s' _ _ => ih has s'⟩

/-- Actions that are allowed and enabled in order make a run. -/
theorem Run.of_runActs {step : σ → α → Option (σ × List ε)} {ok : σ → α → Prop} {s s' : σ}
    {as : List α} {es : List ε} (hok : Allowed step ok s as)
    (h : runActs step s as = some (s', es)) : Run step ok s as es s' := by
  induction as generalizing s es with
  | nil =>
    cases h
    exact .start
  | cons a as ih =>
    unfold runActs at h
    split at h
    · cases h
    · next s₁ es₁ h₁ =>
      split at h
      · cases h
      · next s₂ es₂ h₂ =>
        cases h
        exact (Run.snoc .start hok.1 h₁).append (ih (hok.2 s₁ es₁ h₁) h₂)

/-- Take a list of actions in order, checking each in the state it is taken in. -/
def runChecked (step : σ → α → Option (σ × List ε)) (check : σ → α → Bool) :
    σ → List α → Option (σ × List ε)
  | s, [] => some (s, [])
  | s, a :: as =>
    if check s a then
      match step s a with
      | none => none
      | some (s₁, es) => (runChecked step check s₁ as).map fun r => (r.1, es ++ r.2)
    else none

/-- Actions that pass their checks make a run. -/
theorem Run.of_runChecked {step : σ → α → Option (σ × List ε)} {ok : σ → α → Prop}
    {check : σ → α → Bool} (hok : ∀ s a, check s a = true → ok s a) {s s' : σ} {as : List α}
    {es : List ε} (h : runChecked step check s as = some (s', es)) : Run step ok s as es s' := by
  induction as generalizing s es with
  | nil =>
    cases h
    exact .start
  | cons a as ih =>
    unfold runChecked at h
    split at h
    · next ha =>
      split at h
      · cases h
      · next s₁ es₁ h₁ =>
        obtain ⟨⟨s₂, es₂⟩, h₂, hr⟩ := Option.map_eq_some_iff.mp h
        cases hr
        exact (Run.snoc .start (hok s a ha) h₁).append (ih h₂)
    · cases h

end Fz.Base
