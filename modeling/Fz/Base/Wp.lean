import Mathlib.Data.List.Forall2

/-!
# Weakest preconditions of stateful computations that can fail

`wp m Q E s` says how a run of `m` from `s` ends: in a value and a state that meet `Q`, or in an
error that meets `E`.  A sequence is taken apart with `wp_bind`, and a function that goes through
a list with `wp_mapM`, whose invariant holds between any two elements.
-/

namespace Fz.Base

variable {ε σ α β : Type}

def wp (m : StateT σ (Except ε) α) (Q : α → σ → Prop) (E : ε → Prop) (s : σ) : Prop :=
  match m s with
  | .ok (a, s') => Q a s'
  | .error e => E e

variable {Q Q' : α → σ → Prop} {R : β → σ → Prop} {E E' : ε → Prop} {s : σ}

theorem wp_of_ok {m : StateT σ (Except ε) α} {a : α} {s' : σ} (h : m s = .ok (a, s'))
    (hQ : Q a s') : wp m Q E s := by
  rw [wp, h]
  exact hQ

theorem wp.ok {m : StateT σ (Except ε) α} (h : wp m Q E s) {a : α} {s' : σ}
    (hm : m s = .ok (a, s')) : Q a s' := by
  rw [wp, hm] at h
  exact h

theorem wp.error {m : StateT σ (Except ε) α} (h : wp m Q E s) {e : ε}
    (hm : m s = .error e) : E e := by
  rw [wp, hm] at h
  exact h

theorem wp.of_toOption {m : StateT σ (Except ε) α} (h : wp m Q E s) {a : α} {s' : σ}
    (hm : (m s).toOption = some (a, s')) : Q a s' := by
  refine h.ok ?_
  cases hrun : m s with
  | error e =>
    rw [hrun] at hm
    exact nomatch hm
  | ok r =>
    rw [hrun] at hm
    exact congrArg _ (Option.some.inj hm)

/-- A run that cannot fail has a result. -/
theorem wp.exists_ok {m : StateT σ (Except ε) α} (h : wp m Q (fun _ => False) s) :
    ∃ a s', m s = .ok (a, s') ∧ Q a s' := by
  cases hm : m s with
  | ok r => exact ⟨r.1, r.2, rfl, h.ok hm⟩
  | error e => exact (h.error hm).elim

theorem wp.mono {m : StateT σ (Except ε) α} (h : wp m Q E s) (hQ : ∀ a s', Q a s' → Q' a s')
    (hE : ∀ e, E e → E' e) : wp m Q' E' s := by
  unfold wp at h ⊢
  split
  · next a s' hm =>
    rw [hm] at h
    exact hQ a s' h
  · next e hm =>
    rw [hm] at h
    exact hE e h

theorem wp.imp {m : StateT σ (Except ε) α} (h : wp m Q E s) (hQ : ∀ a s', Q a s' → Q' a s') :
    wp m Q' E s := h.mono hQ fun _ he => he

theorem wp.and {m : StateT σ (Except ε) α} (h : wp m Q E s) (h' : wp m Q' E' s) :
    wp m (fun a s' => Q a s' ∧ Q' a s') E s := by
  unfold wp at h h' ⊢
  split
  · next a s' hm =>
    rw [hm] at h h'
    exact ⟨h, h'⟩
  · next e hm =>
    rw [hm] at h
    exact h

@[simp] theorem wp_pure (a : α) : wp (pure a : StateT σ (Except ε) α) Q E s ↔ Q a s := Iff.rfl

theorem wp_liftM_ok {x : Except ε α} {a : α} (hx : x = .ok a) :
    wp (liftM x : StateT σ (Except ε) α) Q E s ↔ Q a s := by
  subst hx
  exact Iff.rfl

@[simp] theorem wp_get {Q : σ → σ → Prop} :
    wp (get : StateT σ (Except ε) σ) Q E s ↔ Q s s := Iff.rfl

@[simp] theorem wp_modify {Q : PUnit → σ → Prop} (f : σ → σ) :
    wp (modify f : StateT σ (Except ε) PUnit) Q E s ↔ Q ⟨⟩ (f s) := Iff.rfl

@[simp] theorem wp_set {Q : PUnit → σ → Prop} (s' : σ) :
    wp (set s' : StateT σ (Except ε) PUnit) Q E s ↔ Q ⟨⟩ s' := Iff.rfl

@[simp] theorem wp_bind (m : StateT σ (Except ε) α) (f : α → StateT σ (Except ε) β) :
    wp (m >>= f) R E s ↔ wp m (fun a s' => wp (f a) R E s') E s := by
  show (match (m s >>= fun p => f p.1 p.2 : Except ε (β × σ)) with
    | .ok (a, s') => R a s'
    | .error e => E e) ↔ _
  unfold wp
  cases m s with
  | ok r => exact Iff.rfl
  | error e => exact Iff.rfl

/-- A function that goes through a list.  `R` relates the states before and after a step, and what
a step establishes about its element survives the later ones. -/
theorem wp_mapM {f : α → StateT σ (Except ε) β} {R : σ → σ → Prop} {Q : α → β → σ → Prop}
    (hrefl : ∀ s, R s s) (htrans : ∀ {a b c}, R a b → R b c → R a c)
    (hkeep : ∀ {x y a b}, R a b → Q x y a → Q x y b) : ∀ (xs : List α) (s : σ),
      (∀ x ∈ xs, ∀ s', R s s' → wp (f x) (fun y s'' => R s' s'' ∧ Q x y s'') E s') →
      wp (xs.mapM f) (fun ys s' => R s s' ∧ List.Forall₂ (fun x y => Q x y s') xs ys) E s := by
  intro xs
  induction xs with
  | nil => exact fun s _ => ⟨hrefl s, .nil⟩
  | cons x xs ih =>
    intro s hstep
    rw [List.mapM_cons, wp_bind]
    refine (hstep x (.head _) s (hrefl s)).imp ?_
    rintro y s₁ ⟨hr₁, hq⟩
    rw [wp_bind]
    refine (ih s₁ fun x' hx' s' hs' => hstep x' (.tail _ hx') s' (htrans hr₁ hs')).imp ?_
    rintro ys s₂ ⟨hr₂, hys⟩
    exact ⟨htrans hr₁ hr₂, .cons (hkeep hr₂ hq) hys⟩

end Fz.Base
