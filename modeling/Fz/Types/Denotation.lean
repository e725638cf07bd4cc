import Fz.Base.Product
import Fz.Types.Emptiness

/-!
# What descriptors denote

Values, and the set of values a descriptor denotes: axis by axis, a clause holds of a value when
all its positive signatures do and none of its negative ones.  A tuple signature holds of the
tuples of its length whose parts belong to its coordinates; a list signature of `[]` if it says so,
and of the non-empty lists over its element.  Values here carry no brand, so they belong to a
descriptor only if its brand slot admits unbranded values.

The fragment: scalars, atoms, tuples and lists, at every depth, with an unconstrained or an empty
brand slot.  The axes outside it are all empty, or all full as they are in `any`.  On the fragment
`union`, `intersect` and `diff` are union, intersection and difference of denotations, and stay
inside it.
-/

namespace Fz.Types

open Fz.Base

/-! ## Values -/

inductive Value where
  | int (n : Int64)
  | float (bits : UInt64)
  | binary (bits : List Bool)
  | atom (name : String)
  | opaqueOf (tag : OpaqueTag)
  | tuple (elems : List Value)
  | list (elems : List Value)

variable (cx : TyCtx)

mutual
/-- Membership in the structural axes of a descriptor. -/
def InStructure : Value → Descr → Prop
  | .int _, d => d.basic.int
  | .float _, d => d.basic.float
  | .binary _, d => d.basic.binary
  | .atom a, d => d.atoms.contains a
  | .opaqueOf tag, d => d.opaques.contains tag
  | .tuple vs, d => DnfHolds (fun s : TupleSig => EachIn vs s.elems) d.tuples
  | .list [], d => DnfHolds (fun s : ListSig => s.empty = true) d.lists
  | .list (v :: vs), d => DnfHolds (fun s : ListSig => ∃ t, s.elem = some t ∧ AllIn (v :: vs) t)
      d.lists

/-- The values belong to the types, one to one. -/
def EachIn : List Value → List Ty → Prop
  | [], [] => True
  | v :: vs, t :: ts =>
    ((cx.descr t).brands.cofinite ∧ InStructure v (cx.descr t)) ∧ EachIn vs ts
  | _, _ => False

/-- All the values belong to one type. -/
def AllIn : List Value → Ty → Prop
  | [], _ => True
  | v :: vs, t => ((cx.descr t).brands.cofinite ∧ InStructure v (cx.descr t)) ∧ AllIn vs t
end

/-- The values of a descriptor. -/
def Descr.den (d : Descr) : Set Value := {v | d.brands.cofinite ∧ InStructure cx v d}

variable {cx}

theorem mem_den {d : Descr} {v : Value} :
    v ∈ d.den cx ↔ d.brands.cofinite ∧ InStructure cx v d := Iff.rfl

theorem eachIn_iff : ∀ {vs : List Value} {ts : List Ty},
    EachIn cx vs ts ↔ vs ∈ listProd (ts.map fun t => (cx.descr t).den cx)
  | [], [] => by simp [EachIn]
  | [], _ :: _ => by
    simp only [EachIn, List.map_cons, false_iff]
    exact fun h => nomatch h
  | _ :: _, [] => by
    simp only [EachIn, List.map_nil, false_iff]
    exact fun h => nomatch h
  | v :: vs, t :: ts => by
    rw [EachIn, List.map_cons, cons_mem_listProd, eachIn_iff]
    rfl

theorem allIn_iff {vs : List Value} {t : Ty} :
    AllIn cx vs t ↔ ∀ v ∈ vs, v ∈ (cx.descr t).den cx := by
  induction vs with
  | nil => simp [AllIn]
  | cons v vs ih =>
    rw [AllIn, ih, List.forall_mem_cons]
    rfl

/-! ## Operations -/

namespace Descr

variable {a b : Descr}

theorem inStructure_intersect {v : Value} :
    InStructure cx v (a.intersect b) ↔ InStructure cx v a ∧ InStructure cx v b := by
  cases v with
  | int n => simp [InStructure, intersect, BasicBits.intersect]
  | float x => simp [InStructure, intersect, BasicBits.intersect]
  | binary bs => simp [InStructure, intersect, BasicBits.intersect]
  | atom a => simp [InStructure, intersect, FiniteSet.contains_intersect]
  | opaqueOf tag => simp [InStructure, intersect, FiniteSet.contains_intersect]
  | tuple vs => simp only [InStructure, intersect, holds_dnfIntersect]
  | list vs =>
    cases vs with
    | nil => simp only [InStructure, intersect, holds_dnfIntersect]
    | cons v vs => simp only [InStructure, intersect, holds_dnfIntersect]

theorem inStructure_negStructure {d : Descr} {v : Value} :
    InStructure cx v d.negStructure ↔ ¬InStructure cx v d := by
  cases v with
  | int n => simp [InStructure, negStructure, BasicBits.neg]
  | float x => simp [InStructure, negStructure, BasicBits.neg]
  | binary bs => simp [InStructure, negStructure, BasicBits.neg]
  | atom a => simp [InStructure, negStructure, FiniteSet.contains_neg]
  | opaqueOf tag => simp [InStructure, negStructure, FiniteSet.contains_neg]
  | tuple vs => simp only [InStructure, negStructure, holds_dnfNeg]
  | list vs =>
    cases vs with
    | nil => simp only [InStructure, negStructure, holds_dnfNeg]
    | cons v vs => simp only [InStructure, negStructure, holds_dnfNeg]

theorem den_intersect (a b : Descr) : (a.intersect b).den cx = a.den cx ∩ b.den cx := by
  ext v
  have hb : (a.intersect b).brands.cofinite = (a.brands.cofinite && b.brands.cofinite) := by
    simp only [intersect, FiniteSet.intersect]
    cases a.brands.cofinite <;> cases b.brands.cofinite <;> rfl
  simp only [mem_den, Set.mem_inter_iff, hb, Bool.and_eq_true, inStructure_intersect]
  constructor
  · rintro ⟨⟨ha, hb⟩, hsa, hsb⟩
    exact ⟨⟨ha, hsa⟩, hb, hsb⟩
  · rintro ⟨⟨ha, hsa⟩, hb, hsb⟩
    exact ⟨⟨ha, hb⟩, hsa, hsb⟩

/-- The brand slot says nothing, or that there is nothing. -/
def BrandFree (d : Descr) : Prop := d.brands = .any ∨ d.brands = .none

theorem den_diff (ha : a.BrandFree) (hb : b.BrandFree) :
    (a.diff b).den cx = a.den cx \ b.den cx := by
  rcases ha with ha | ha
  · rcases hb with hb | hb
    · -- the structural difference alone
      have hcov : b.brands.containsAll a.brands = true := by
        rw [ha, hb]
        rfl
      ext v
      simp only [diff, hcov, ↓reduceIte, mem_den, Set.mem_sdiff]
      have hstruct : InStructure cx v { a.intersect b.negStructure with brands := a.brands }
          ↔ InStructure cx v a ∧ ¬InStructure cx v b := by
        rw [← inStructure_negStructure, ← inStructure_intersect]
        cases v with
        | list vs => cases vs <;> rfl
        | _ => rfl
      rw [hstruct, ha, hb]
      simp [FiniteSet.any]
    · -- nothing is subtracted
      have hd : a.diff b = a := by
        simp only [diff, ha, hb]
        rfl
      rw [hd]
      ext v
      simp [mem_den, hb, FiniteSet.none]
  · -- nothing is there
    have hd : (a.diff b).brands.cofinite = false := by
      have hcov : b.brands.containsAll a.brands = true := by
        rcases hb with hb | hb <;> rw [ha, hb] <;> rfl
      rw [diff, if_pos hcov]
      show a.brands.cofinite = false
      rw [ha]
      rfl
    ext v
    simp [mem_den, hd, ha, FiniteSet.none]

theorem BrandFree.brands_any {d : Descr} (h : d.BrandFree) (he : ¬d.looksEmpty = true) :
    d.brands = .any := by
  rcases h with h | h
  · exact h
  · have hnone : d.brands.isNone = true := by
      rw [h]
      rfl
    exact absurd (by simp [looksEmpty, hnone]) he

theorem den_any : (any : Descr).den cx = Set.univ := by
  ext v
  simp only [Set.mem_univ, iff_true]
  refine ⟨rfl, ?_⟩
  cases v with
  | int n => rfl
  | float x => rfl
  | binary bs => rfl
  | atom a => exact FiniteSet.contains_any a
  | opaqueOf tag => exact FiniteSet.contains_any tag
  | tuple vs => exact ⟨.top, .head _, by simp [Conj.Holds, Conj.top]⟩
  | list vs =>
    cases vs with
    | nil => exact ⟨.top, .head _, by simp [Conj.Holds, Conj.top]⟩
    | cons v vs => exact ⟨.top, .head _, by simp [Conj.Holds, Conj.top]⟩

/-! ## The fragment -/

/-- The axes other than scalars, atoms, tuples and lists are all empty. -/
structure RestNone (d : Descr) : Prop where
  opaques : d.opaques = .none
  vars : d.vars = .none
  resources : d.resources = []
  funcs : d.funcs = []
  maps : d.maps = []

/-- The axes other than scalars, atoms, tuples and lists are all full. -/
structure RestAny (d : Descr) : Prop where
  opaques : d.opaques = .any
  vars : d.vars = .any
  resources : d.resources = [.top]
  funcs : d.funcs = [.top]
  maps : d.maps = [.top]

/-- The fragment, one level deep. -/
structure Flat (d : Descr) : Prop where
  brands : d.BrandFree
  rest : d.RestNone ∨ d.RestAny

/-- Every type a descriptor names has a property. -/
def EachChild (P : Ty → Prop) (d : Descr) : Prop := ∀ t ∈ d.children, P t

theorem eachChild_iff {P : Ty → Prop} {d : Descr} (h : d.RestNone ∨ d.RestAny) :
    d.EachChild P ↔ Each (fun s : TupleSig => ∀ t ∈ s.elems, P t) d.tuples ∧
      Each (fun s : ListSig => ∀ t, s.elem = some t → P t) d.lists := by
  have hch : d.children = d.tuples.flatMap (fun c => (c.pos ++ c.neg).flatMap TupleSig.elems) ++
      d.lists.flatMap (fun c => (c.pos ++ c.neg).flatMap fun s => s.elem.toList) := by
    rcases h with h | h <;>
      simp [children, h.resources, h.funcs, h.maps, Conj.top]
  simp only [EachChild, hch, List.mem_append, List.mem_flatMap, Option.mem_toList]
  constructor
  · intro hall
    refine ⟨fun c hc => ⟨fun s hs t ht => ?_, fun s hs t ht => ?_⟩,
      fun c hc => ⟨fun s hs t ht => ?_, fun s hs t ht => ?_⟩⟩
    · exact hall t (.inl ⟨c, hc, s, .inl hs, ht⟩)
    · exact hall t (.inl ⟨c, hc, s, .inr hs, ht⟩)
    · exact hall t (.inr ⟨c, hc, s, .inl hs, ht⟩)
    · exact hall t (.inr ⟨c, hc, s, .inr hs, ht⟩)
  · rintro ⟨htup, hlist⟩ t (⟨c, hc, s, hs | hs, ht⟩ | ⟨c, hc, s, hs | hs, ht⟩)
    · exact (htup c hc).1 s hs t ht
    · exact (htup c hc).2 s hs t ht
    · exact (hlist c hc).1 s hs t ht
    · exact (hlist c hc).2 s hs t ht

theorem rest_intersect (ha : a.RestNone ∨ a.RestAny) (hb : b.RestNone ∨ b.RestAny) :
    (a.intersect b).RestNone ∨ (a.intersect b).RestAny := by
  rcases ha with ha | ha
  · left
    rcases hb with hb | hb <;> constructor <;>
      simp only [intersect, ha.opaques, ha.vars, ha.resources, ha.funcs, ha.maps, hb.opaques,
        hb.vars, hb.resources, hb.funcs, hb.maps] <;> rfl
  · rcases hb with hb | hb
    · left
      constructor <;>
        simp only [intersect, ha.opaques, ha.vars, ha.resources, ha.funcs, ha.maps, hb.opaques,
          hb.vars, hb.resources, hb.funcs, hb.maps] <;> rfl
    · right
      constructor <;>
        simp only [intersect, ha.opaques, ha.vars, ha.resources, ha.funcs, ha.maps, hb.opaques,
          hb.vars, hb.resources, hb.funcs, hb.maps] <;> rfl

theorem rest_union (ha : a.RestNone ∨ a.RestAny) (hb : b.RestNone ∨ b.RestAny) :
    (a.union b).RestNone ∨ (a.union b).RestAny := by
  rw [union]
  split
  · split
    · exact .inl ⟨rfl, rfl, rfl, rfl, rfl⟩
    · exact hb
  split
  · exact ha
  · rcases ha with ha | ha
    · rcases hb with hb | hb
      · left
        constructor <;>
          simp only [ha.opaques, ha.vars, ha.resources, ha.funcs, ha.maps, hb.opaques,
            hb.vars, hb.resources, hb.funcs, hb.maps] <;> rfl
      · right
        constructor <;>
          simp only [ha.opaques, ha.vars, ha.resources, ha.funcs, ha.maps, hb.opaques,
            hb.vars, hb.resources, hb.funcs, hb.maps] <;> rfl
    · right
      rcases hb with hb | hb <;> constructor <;>
        simp only [ha.opaques, ha.vars, ha.resources, ha.funcs, ha.maps, hb.opaques,
          hb.vars, hb.resources, hb.funcs, hb.maps] <;> rfl

theorem rest_negStructure {d : Descr} (h : d.RestNone ∨ d.RestAny) :
    d.negStructure.RestNone ∨ d.negStructure.RestAny := by
  rcases h with h | h
  · right
    constructor <;>
      simp only [negStructure, h.opaques, h.vars, h.resources, h.funcs, h.maps] <;> rfl
  · left
    constructor <;>
      simp only [negStructure, h.opaques, h.vars, h.resources, h.funcs, h.maps] <;> rfl

theorem Flat.intersect (ha : a.Flat) (hb : b.Flat) : (a.intersect b).Flat where
  brands := by
    rcases ha.brands with h | h <;> rcases hb.brands with h' | h' <;>
      simp only [BrandFree, Descr.intersect, h, h']
    · exact .inl rfl
    · exact .inr rfl
    · exact .inr rfl
    · exact .inr rfl
  rest := rest_intersect ha.rest hb.rest

theorem EachChild.intersect {P : Ty → Prop} (ha : a.Flat) (hb : b.Flat)
    (hca : a.EachChild P) (hcb : b.EachChild P) : (a.intersect b).EachChild P := by
  rw [eachChild_iff ha.rest] at hca
  rw [eachChild_iff hb.rest] at hcb
  rw [eachChild_iff (rest_intersect ha.rest hb.rest)]
  exact ⟨hca.1.dnfIntersect hcb.1, hca.2.dnfIntersect hcb.2⟩

theorem Flat.union (ha : a.Flat) (hb : b.Flat) : (a.union b).Flat := by
  refine ⟨?_, rest_union ha.rest hb.rest⟩
  rw [Descr.union]
  split
  · split
    · exact .inr rfl
    · exact hb.brands
  · rename_i hea
    split
    · exact ha.brands
    · rename_i heb
      left
      show a.brands.union b.brands = .any
      rw [ha.brands.brands_any hea, hb.brands.brands_any heb]
      rfl

theorem EachChild.union {P : Ty → Prop} (ha : a.Flat) (hb : b.Flat)
    (hca : a.EachChild P) (hcb : b.EachChild P) : (a.union b).EachChild P := by
  rw [eachChild_iff (rest_union ha.rest hb.rest), Descr.union]
  rw [eachChild_iff ha.rest] at hca
  rw [eachChild_iff hb.rest] at hcb
  split
  · split
    · exact ⟨fun _ h => (nomatch h), fun _ h => (nomatch h)⟩
    · exact hcb
  · split
    · exact hca
    · exact ⟨hca.1.dnfUnion hcb.1, hca.2.dnfUnion hcb.2⟩

theorem diff_cases (ha : a.BrandFree) (hb : b.BrandFree) :
    a.diff b = a ∨ a.diff b = { a.intersect b.negStructure with brands := a.brands } := by
  by_cases hcov : b.brands.containsAll a.brands = true
  · exact .inr (if_pos hcov)
  · left
    rcases ha with ha | ha
    · rcases hb with hb | hb
      · rw [ha, hb] at hcov
        exact absurd rfl hcov
      · simp only [diff, ha, hb]
        rfl
    · rcases hb with hb | hb <;> rw [ha, hb] at hcov <;> exact absurd rfl hcov

theorem Flat.diff (ha : a.Flat) (hb : b.Flat) : (a.diff b).Flat := by
  rcases diff_cases ha.brands hb.brands with h | h
  · rw [h]
    exact ha
  · rw [h]
    refine ⟨ha.brands, ?_⟩
    rcases rest_intersect ha.rest (rest_negStructure hb.rest) with h | h
    · exact .inl ⟨h.opaques, h.vars, h.resources, h.funcs, h.maps⟩
    · exact .inr ⟨h.opaques, h.vars, h.resources, h.funcs, h.maps⟩

theorem EachChild.diff {P : Ty → Prop} (ha : a.Flat) (hb : b.Flat)
    (hca : a.EachChild P) (hcb : b.EachChild P) : (a.diff b).EachChild P := by
  have hflat := ha.diff hb
  rcases diff_cases ha.brands hb.brands with h | h
  · rw [h]
    exact hca
  · rw [eachChild_iff ha.rest] at hca
    rw [eachChild_iff hb.rest] at hcb
    rw [eachChild_iff hflat.rest, h]
    exact ⟨hca.1.dnfIntersect hcb.1.dnfNeg, hca.2.dnfIntersect hcb.2.dnfNeg⟩

/-! ## Ranks -/

theorem rank_le_iff {d : Descr} {n : Nat} : d.rank ≤ n ↔ d.EachChild (· < n) := by
  rw [rank, EachChild]
  induction d.children with
  | nil => simp
  | cons t ts ih =>
    rw [List.foldr_cons, Nat.max_le, ih, List.forall_mem_cons]
    rfl

end Descr

theorem TyCtx.rank_descr_le (cx : TyCtx) (t : Ty) : (cx.descr t).rank ≤ t := by
  rw [Descr.rank_le_iff]
  intro s hs
  rw [TyCtx.descr, List.getD_eq_getElem?_getD] at hs
  cases h : cx.arena[t]? with
  | none =>
    rw [h] at hs
    exact nomatch hs
  | some d =>
    rw [h] at hs
    exact cx.children_lt t d h s hs

/-- The fragment at every depth: the descriptor and all the types it names, in the arena. -/
inductive InFragment (cx : TyCtx) : Descr → Prop where
  | intro {d : Descr} (flat : d.Flat) (known : ∀ t ∈ d.children, t < cx.arena.length)
    (parts : ∀ t ∈ d.children, InFragment cx (cx.descr t)) : InFragment cx d

namespace InFragment

theorem flat {d : Descr} : InFragment cx d → d.Flat
  | .intro h _ _ => h

theorem known {d : Descr} : InFragment cx d → d.EachChild (· < cx.arena.length)
  | .intro _ h _ => h

theorem parts {d : Descr} : InFragment cx d → d.EachChild fun t => InFragment cx (cx.descr t)
  | .intro _ _ h => h

theorem intersect {a b : Descr} (ha : InFragment cx a) (hb : InFragment cx b) :
    InFragment cx (a.intersect b) :=
  .intro (ha.flat.intersect hb.flat) (Descr.EachChild.intersect ha.flat hb.flat ha.known hb.known)
    (Descr.EachChild.intersect ha.flat hb.flat ha.parts hb.parts)

theorem union {a b : Descr} (ha : InFragment cx a) (hb : InFragment cx b) :
    InFragment cx (a.union b) :=
  .intro (ha.flat.union hb.flat) (Descr.EachChild.union ha.flat hb.flat ha.known hb.known)
    (Descr.EachChild.union ha.flat hb.flat ha.parts hb.parts)

theorem diff {a b : Descr} (ha : InFragment cx a) (hb : InFragment cx b) :
    InFragment cx (a.diff b) :=
  .intro (ha.flat.diff hb.flat) (Descr.EachChild.diff ha.flat hb.flat ha.known hb.known)
    (Descr.EachChild.diff ha.flat hb.flat ha.parts hb.parts)

theorem any : InFragment cx Descr.any :=
  .intro ⟨.inl rfl, .inr ⟨rfl, rfl, rfl, rfl, rfl⟩⟩ (fun _ ht => nomatch ht)
    (fun _ ht => nomatch ht)

end InFragment

/-- In the fragment, and of rank below `r`: what a query of rank `r` asks about. -/
structure Low (cx : TyCtx) (r : Nat) (d : Descr) : Prop where
  mem : InFragment cx d
  rank_lt : d.rank < r

theorem Low.intersect {r : Nat} {a b : Descr} (ha : Low cx r a) (hb : Low cx r b) :
    Low cx r (a.intersect b) := by
  refine ⟨ha.mem.intersect hb.mem, ?_⟩
  have hra := ha.rank_lt
  have hrb := hb.rank_lt
  have : (a.intersect b).rank ≤ r - 1 := by
    rw [Descr.rank_le_iff]
    exact .intersect ha.mem.flat hb.mem.flat (Descr.rank_le_iff.mp (by omega))
      (Descr.rank_le_iff.mp (by omega))
  omega

theorem Low.diff {r : Nat} {a b : Descr} (ha : Low cx r a) (hb : Low cx r b) :
    Low cx r (a.diff b) := by
  refine ⟨ha.mem.diff hb.mem, ?_⟩
  have hra := ha.rank_lt
  have hrb := hb.rank_lt
  have : (a.diff b).rank ≤ r - 1 := by
    rw [Descr.rank_le_iff]
    exact .diff ha.mem.flat hb.mem.flat (Descr.rank_le_iff.mp (by omega))
      (Descr.rank_le_iff.mp (by omega))
  omega

theorem InFragment.low {d : Descr} (h : InFragment cx d) :
    d.EachChild fun t => Low cx d.rank (cx.descr t) := by
  intro t ht
  have hlt : t < d.rank := Descr.rank_le_iff.mp le_rfl t ht
  exact ⟨h.parts t ht, Nat.lt_of_le_of_lt (cx.rank_descr_le t) hlt⟩

end Fz.Types
