import Fz.Base.Wp
import Mathlib.Data.List.Infix

/-!
# Decoders

A decoder takes a value off the front of its input, or fails.  `Decodes` says that it recognises one
code: it takes exactly that code off every input that starts with it, and fails on every proper
start of the code.  Codes compose as the decoders do, one after another.
-/

namespace Fz.Base

variable {ε τ α β : Type}

/-- A decoder of an input of symbols. -/
abbrev Decoder (ε τ α : Type) := StateT (List τ) (Except ε) α

/-- A decoder recognises a code as a value, and what it says when the code breaks off. -/
structure Decodes (E : ε → Prop) (p : Decoder ε τ α) (code : List τ) (a : α) : Prop where
  append : ∀ rest, p (code ++ rest) = .ok (a, rest)
  short : ∀ start, start <+: code → start ≠ code → ∃ e, E e ∧ p start = .error e

/-- A number of values one after another. -/
def decodeMany (p : Decoder ε τ α) : Nat → Decoder ε τ (List α)
  | 0 => pure []
  | n + 1 => do
    let a ← p
    let rest ← decodeMany p n
    pure (a :: rest)

namespace Decodes

variable {E : ε → Prop} {p : Decoder ε τ α} {code : List τ} {a : α}

theorem pure (a : α) : Decodes E (pure a : Decoder ε τ α) [] a where
  append _ := rfl
  short _ hstart hne := absurd (List.prefix_nil.mp hstart) hne

/-- The codes stand one after the other. -/
theorem bind {f : α → Decoder ε τ β} {code' : List τ} {b : β} (hp : Decodes E p code a)
    (hf : Decodes E (f a) code' b) : Decodes E (p >>= f) (code ++ code') b where
  append rest := by
    rw [List.append_assoc]
    show (p (code ++ (code' ++ rest)) >>= fun r => f r.1 r.2) = _
    rw [hp.append]
    exact hf.append rest
  short start hstart hne := by
    have hrun : ∀ s, (p >>= f) s = (p s >>= fun r => f r.1 r.2) := fun _ => rfl
    rcases List.prefix_or_prefix_of_prefix hstart (List.prefix_append code code') with
      hshort | ⟨start', rfl⟩
    · rcases eq_or_ne start code with rfl | hcode
      -- the first code is whole, and the second one has not begun
      · have hempty : ([] : List τ) ≠ code' := by
          rintro rfl
          exact hne (List.append_nil start).symm
        obtain ⟨e, he, hfail⟩ := hf.short [] List.nil_prefix hempty
        have hfirst := hp.append []
        rw [List.append_nil] at hfirst
        refine ⟨e, he, ?_⟩
        rw [hrun, hfirst]
        exact hfail
      · obtain ⟨e, he, hfail⟩ := hp.short start hshort hcode
        refine ⟨e, he, ?_⟩
        rw [hrun, hfail]
        rfl
    · have hstart' : start' <+: code' := (List.prefix_append_right_inj code).mp hstart
      obtain ⟨e, he, hfail⟩ := hf.short start' hstart' fun heq => hne (heq ▸ rfl)
      refine ⟨e, he, ?_⟩
      rw [hrun, hp.append]
      exact hfail

/-- A decoder that only computes after another one. -/
theorem bind_pure {f : α → Decoder ε τ β} {b : β} (hp : Decodes E p code a)
    (hf : f a = Pure.pure b) : Decodes E (p >>= f) code b := by
  have h := hp.bind (f := f) (hf ▸ Decodes.pure b)
  rwa [List.append_nil] at h

theorem many {codes : List (List τ)} {as : List α}
    (h : List.Forall₂ (fun code a => Decodes E p code a) codes as) :
    Decodes E (decodeMany p as.length) codes.flatten as := by
  induction h with
  | nil => exact .pure []
  | cons hcode _ ih =>
    rw [List.flatten_cons]
    exact hcode.bind (ih.bind_pure rfl)

end Decodes

/-- What every run of a decoder establishes, a number of runs does. -/
theorem wp_decodeMany {p : Decoder ε τ α} {I : List τ → Prop} {Q : α → Prop} {E : ε → Prop}
    (hp : ∀ s, I s → wp p (fun a s' => Q a ∧ I s') E s) (n : Nat) (s : List τ) (hs : I s) :
    wp (decodeMany p n) (fun as s' => as.length = n ∧ (∀ a ∈ as, Q a) ∧ I s') E s := by
  induction n generalizing s with
  | zero => exact ⟨rfl, nofun, hs⟩
  | succ n ih =>
    rw [decodeMany, wp_bind]
    refine (hp s hs).imp ?_
    rintro a s₁ ⟨ha, hs₁⟩
    rw [wp_bind]
    refine (ih s₁ hs₁).imp ?_
    rintro as s₂ ⟨rfl, has, hs₂⟩
    exact ⟨rfl, List.forall_mem_cons.mpr ⟨ha, has⟩, hs₂⟩

end Fz.Base
