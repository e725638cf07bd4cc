import Fz.Types.Stable

/-!
# Dominance of columns

One column of a row of inputs dominates another when it is wider, mentions the same variables, and
has every closure literal of the other with the same signature.  Subtyping alone would not do: it
decides a negative closure literal from its function and its captures, and never reads its
arguments and its result.

Two rows compare column by column.  All of this depends only on the descriptors of the columns, so
it keeps its answers while the store grows.
-/

namespace Fz.Types

open Base (all_congr_mem)

namespace Descr

/-- The variables a descriptor mentions, down to depth `n`. -/
def freeVarsAt (cx : TyCtx) : Nat → Descr → Finset Nat
  | 0, d => d.vars.values
  | n + 1, d => d.children.foldr (fun t ids => freeVarsAt cx n (cx.descr t) ∪ ids) d.vars.values

end Descr

/-- A closure literal with its signature: the function, the captures, the arguments, the result. -/
structure LitArrowShape where
  fnId : Option Nat
  captures : List Ty
  args : List Ty
  ret : Ty
  deriving DecidableEq

def ArrowSig.litShape (sig : ArrowSig) : Option LitArrowShape :=
  sig.lit.map fun lit => ⟨lit.fnId, lit.captures, sig.args, sig.ret⟩

namespace Descr

/-- The literals at the top of a descriptor. -/
def litShapes (d : Descr) : List LitArrowShape :=
  d.funcs.flatMap fun c => (c.pos ++ c.neg).filterMap ArrowSig.litShape

/-- The literals reachable from a descriptor, down to depth `n`. -/
def litShapesAt (cx : TyCtx) : Nat → Descr → List LitArrowShape
  | 0, d => d.litShapes
  | n + 1, d => d.litShapes ++ d.children.flatMap fun t => litShapesAt cx n (cx.descr t)

end Descr

namespace TyCtx

variable (cx : TyCtx)

def freeVarIds (t : Ty) : Finset Nat := (cx.descr t).freeVarsAt cx (cx.descr t).rank

def litArrowShapes (t : Ty) : List LitArrowShape := (cx.descr t).litShapesAt cx (cx.descr t).rank

def isEquivalent (a b : Ty) : Bool := a = b || (cx.isSubtype a b && cx.isSubtype b a)

/-- Does `dom` cover everything `sub` says, at one column? -/
def rowColumnDominates (sub dom : Ty) : Bool :=
  if sub = dom then true
  else if cx.freeVarIds sub ≠ cx.freeVarIds dom then false
  else if !(cx.litArrowShapes sub).all fun shape => shape ∈ cx.litArrowShapes dom then false
  else cx.isSubtype sub dom

def rowDominates (sub dom : List Ty) : Bool :=
  sub.length = dom.length && (sub.zip dom).all fun (sub, dom) => cx.rowColumnDominates sub dom

/-- The columns of two rows say the same. -/
def rowEquivalent (a b : List Ty) : Bool :=
  a.length = b.length && (a.zip b).all fun (a, b) => cx.isEquivalent a b

/-- The columns of a row are below those of another. -/
def RowBelow (a b : List Ty) : Prop := List.Forall₂ (fun a b => cx.isSubtype a b = true) a b

/-- The columns of a row are in the arena. -/
def KnowsRow (row : List Ty) : Prop := ∀ t ∈ row, t < cx.arena.length

variable {cx} {cx' : TyCtx}

theorem isSubtype_refl (t : Ty) : cx.isSubtype t t = true := by simp [isSubtype]

theorem isEquivalent_iff {a b : Ty} :
    cx.isEquivalent a b = true ↔ cx.isSubtype a b = true ∧ cx.isSubtype b a = true := by
  unfold isEquivalent
  rw [Bool.or_eq_true, Bool.and_eq_true, decide_eq_true_iff]
  constructor
  · rintro (rfl | h)
    · exact ⟨isSubtype_refl a, isSubtype_refl a⟩
    · exact h
  · exact .inr

theorem isSubtype_of_dominates {a b : Ty} (h : cx.rowColumnDominates a b = true) :
    cx.isSubtype a b = true := by
  unfold rowColumnDominates at h
  split at h
  · rename_i heq
    exact heq ▸ isSubtype_refl a
  · split at h
    · cases h
    · split at h
      · cases h
      · exact h

theorem forall₂_of_zip {α β : Type} {R : α → β → Prop} {a : List α} {b : List β}
    (hlen : a.length = b.length) (h : ∀ p ∈ a.zip b, R p.1 p.2) : List.Forall₂ R a b := by
  rw [List.forall₂_iff_zip]
  exact ⟨hlen, fun hp => h _ hp⟩

theorem rowBelow_of_dominates {a b : List Ty} (h : cx.rowDominates a b = true) :
    cx.RowBelow a b := by
  unfold rowDominates at h
  rw [Bool.and_eq_true, decide_eq_true_iff, List.all_eq_true] at h
  exact forall₂_of_zip h.1 fun p hp => isSubtype_of_dominates (h.2 p hp)

theorem rowEquivalent_iff {a b : List Ty} :
    cx.rowEquivalent a b = true ↔ cx.RowBelow a b ∧ cx.RowBelow b a := by
  unfold rowEquivalent
  rw [Bool.and_eq_true, decide_eq_true_iff, List.all_eq_true]
  constructor
  · rintro ⟨hlen, h⟩
    refine ⟨forall₂_of_zip hlen fun p hp => (isEquivalent_iff.mp (h p hp)).1, ?_⟩
    exact (forall₂_of_zip (R := fun a b => cx.isSubtype b a = true) hlen
      fun p hp => (isEquivalent_iff.mp (h p hp)).2).flip
  · rintro ⟨hab, hba⟩
    have hba' := hba.flip
    refine ⟨hab.length_eq, fun p hp => isEquivalent_iff.mpr ⟨?_, ?_⟩⟩
    · exact List.forall₂_iff_zip.mp hab |>.2 hp
    · exact List.forall₂_iff_zip.mp hba' |>.2 hp

/-! ## In a larger arena -/

theorem Extends.freeVarsAt_eq (h : cx.Extends cx') (n : Nat) {d : Descr} (hd : cx.Knows d) :
    d.freeVarsAt cx' n = d.freeVarsAt cx n := by
  induction n generalizing d with
  | zero => rfl
  | succ n ih =>
    have hchildren := knows_iff.mp hd
    simp only [Descr.freeVarsAt]
    generalize d.children = ts at hchildren
    induction ts with
    | nil => rfl
    | cons t ts iht =>
      obtain ⟨ht, hts⟩ := List.forall_mem_cons.mp hchildren
      rw [List.foldr_cons, List.foldr_cons, iht hts, h.descr_eq ht, ih (cx.knows_descr t)]

theorem Extends.litShapesAt_eq (h : cx.Extends cx') (n : Nat) {d : Descr} (hd : cx.Knows d) :
    d.litShapesAt cx' n = d.litShapesAt cx n := by
  induction n generalizing d with
  | zero => rfl
  | succ n ih =>
    have hchildren := knows_iff.mp hd
    simp only [Descr.litShapesAt]
    congr 1
    refine List.flatMap_congr fun t ht => ?_
    rw [h.descr_eq (hchildren t ht), ih (cx.knows_descr t)]

theorem Extends.rowColumnDominates_eq (h : cx.Extends cx') {a b : Ty} (ha : a < cx.arena.length)
    (hb : b < cx.arena.length) : cx'.rowColumnDominates a b = cx.rowColumnDominates a b := by
  have hvars : ∀ {t : Ty}, t < cx.arena.length → cx'.freeVarIds t = cx.freeVarIds t := by
    intro t ht
    rw [freeVarIds, freeVarIds, h.descr_eq ht, h.freeVarsAt_eq _ (cx.knows_descr t)]
  have hshapes : ∀ {t : Ty}, t < cx.arena.length →
      cx'.litArrowShapes t = cx.litArrowShapes t := by
    intro t ht
    rw [litArrowShapes, litArrowShapes, h.descr_eq ht, h.litShapesAt_eq _ (cx.knows_descr t)]
  rw [rowColumnDominates, rowColumnDominates, hvars ha, hvars hb, hshapes ha, hshapes hb,
    h.isSubtype_eq ha hb]

theorem Extends.isEquivalent_eq (h : cx.Extends cx') {a b : Ty} (ha : a < cx.arena.length)
    (hb : b < cx.arena.length) : cx'.isEquivalent a b = cx.isEquivalent a b := by
  simp only [isEquivalent, h.isSubtype_eq ha hb, h.isSubtype_eq hb ha]

theorem Extends.rowDominates_eq (h : cx.Extends cx') {a b : List Ty} (ha : cx.KnowsRow a)
    (hb : cx.KnowsRow b) : cx'.rowDominates a b = cx.rowDominates a b := by
  unfold rowDominates
  congr 1
  refine all_congr_mem fun ⟨x, y⟩ hp => ?_
  obtain ⟨hx, hy⟩ := List.of_mem_zip hp
  exact h.rowColumnDominates_eq (ha x hx) (hb y hy)

theorem Extends.rowEquivalent_eq (h : cx.Extends cx') {a b : List Ty} (ha : cx.KnowsRow a)
    (hb : cx.KnowsRow b) : cx'.rowEquivalent a b = cx.rowEquivalent a b := by
  unfold rowEquivalent
  congr 1
  refine all_congr_mem fun ⟨x, y⟩ hp => ?_
  obtain ⟨hx, hy⟩ := List.of_mem_zip hp
  exact h.isEquivalent_eq (ha x hx) (hb y hy)

theorem KnowsRow.of_extends {row : List Ty} (hrow : cx.KnowsRow row) (h : cx.Extends cx') :
    cx'.KnowsRow row := fun t ht => Nat.lt_of_lt_of_le (hrow t ht) h.length_le

end TyCtx

end Fz.Types
