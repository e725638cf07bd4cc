import Fz.Types.Meaning

/-!
# Points

A map clause is called empty when one negative signature takes all of it, and so is a resource
clause.  For the values of `Fz.Types.Meaning` that is one direction only: two negative signatures
can share the maps of a clause between them.  It is both directions for values whose payloads and
fields are collections, as those of lists are.  Such values are points here: a resource holds a
non-empty collection of points, a field of a map holds a collection, the empty one when the key is
absent, and a function is the finite relation of its calls.

A signature asks of every member of a collection what it asks of a payload or a field.  On scalars,
atoms, opaques, tuples and lists points are what values are, and a type variable has points of its
own.
-/

namespace Fz.Types

open Fz.Base

/-! ## Points -/

/-- What a point is, over its parts. -/
inductive PointShape (P : Type) where
  | int (n : Int64)
  | float (bits : UInt64)
  | binary (bits : List Bool)
  | atom (name : String)
  | opaqueOf (tag : OpaqueTag)
  | var (id : Nat)
  | tuple (elems : List P)
  | list (elems : List P)
  | resource (payload : P) (more : List P)
  | map (tag : MapTag) (fields : MapKey → List P)
  | fn (graph : List (List P × P))

/-- A shape under at most one brand. -/
inductive Point where
  | mk (brand : Option String) (shape : PointShape Point)

namespace Point

def brand : Point → Option String
  | mk b _ => b

def shape : Point → PointShape Point
  | mk _ s => s

instance : Nonempty Point := ⟨mk none (.int 0)⟩

end Point

/-! ## Membership -/

/-- A finite relation respects an arrow: every call with arguments of the arrow has a result of
it. -/
def ArrowSig.Respects {V : Type} (M : Ty → Set V) (graph : List (List V × V)) (s : ArrowSig) :
    Prop :=
  ∀ call ∈ graph, call.1 ∈ listProd (s.args.map M) → call.2 ∈ M s.ret

section Membership

variable (M : Ty → Set Point)

def TupleSig.Has (vs : List Point) (s : TupleSig) : Prop := vs ∈ listProd (s.elems.map M)

def ListSig.Has : List Point → ListSig → Prop
  | [], s => s.empty = true
  | v :: vs, s => ∃ t, s.elem = some t ∧ ∀ w ∈ v :: vs, w ∈ M t

def ResourceSig.Has (payload : List Point) (s : ResourceSig) : Prop :=
  ∀ v ∈ payload, v ∈ M s.payload

def MapSig.Has (tag : MapTag) (fields : MapKey → List Point) (s : MapSig) : Prop :=
  s.tag = tag ∧ ∀ p ∈ s.fields, fields p.1 ≠ [] ∧ ∀ v ∈ fields p.1, v ∈ M p.2

/-- Membership in the structural axes of a descriptor. -/
@[grind =] def PointShape.In (d : Descr) : PointShape Point → Prop
  | .int _ => d.basic.int
  | .float _ => d.basic.float
  | .binary _ => d.basic.binary
  | .atom name => d.atoms.contains name
  | .opaqueOf tag => d.opaques.contains tag
  | .var id => d.vars.contains id
  | .tuple vs => DnfHolds (TupleSig.Has M vs) d.tuples
  | .list vs => DnfHolds (ListSig.Has M vs) d.lists
  | .resource v vs => DnfHolds (ResourceSig.Has M (v :: vs)) d.resources
  | .map tag fields => DnfHolds (MapSig.Has M tag fields) d.maps
  | .fn graph => DnfHolds (ArrowSig.Respects M graph) d.funcs

/-- Membership in a descriptor, where the types it names mean `M`. -/
def Descr.Has (d : Descr) (p : Point) : Prop := d.Under (p.shape.In M) p.brand

end Membership

variable (cx : TyCtx)

/-- The points of a descriptor, cut at depth `n`. -/
def Descr.pointsAt : Nat → Descr → Set Point
  | 0, _ => ∅
  | n + 1, d => {p | d.Has (fun t => pointsAt n (cx.descr t)) p}

/-- The points of a descriptor. -/
def Descr.points (d : Descr) : Set Point := d.pointsAt cx (d.rank + 1)

/-- The points of an interned type. -/
def TyCtx.points (t : Ty) : Set Point := (cx.descr t).points cx

/-! ## Points unfold -/

namespace Descr

/-- Membership only depends on what the types a descriptor names mean. -/
theorem has_congr {M M' : Ty → Set Point} {d : Descr}
    (h : d.EachChild fun t => M t = M' t) (p : Point) : d.Has M p ↔ d.Has M' p := by
  have hax := eachChild_iff_eachSig.mp h
  refine and_congr_right fun _ => ?_
  cases p.shape with
  | tuple vs =>
    have hsig : ∀ s : TupleSig, (∀ t ∈ s.elems, M t = M' t) → (s.Has M vs ↔ s.Has M' vs) := by
      intro s hs
      rw [TupleSig.Has, listProd_map_congr hs]
      rfl
    exact DnfHolds.congr fun c hc => ⟨fun s hs => hsig s ((hax.tuples c hc).1 s hs),
      fun s hs => hsig s ((hax.tuples c hc).2 s hs)⟩
  | list vs =>
    have hsig : ∀ s : ListSig, (∀ t, s.elem = some t → M t = M' t) →
        (s.Has M vs ↔ s.Has M' vs) := by
      intro s hs
      cases vs with
      | nil => rfl
      | cons v vs => exact exists_congr fun t => and_congr_right fun ht => by rw [hs t ht]
    exact DnfHolds.congr fun c hc => ⟨fun s hs => hsig s ((hax.lists c hc).1 s hs),
      fun s hs => hsig s ((hax.lists c hc).2 s hs)⟩
  | resource v vs =>
    have hsig : ∀ s : ResourceSig, M s.payload = M' s.payload →
        (s.Has M (v :: vs) ↔ s.Has M' (v :: vs)) := by
      intro s hs
      rw [ResourceSig.Has, hs]
      rfl
    exact DnfHolds.congr fun c hc => ⟨fun s hs => hsig s ((hax.resources c hc).1 s hs),
      fun s hs => hsig s ((hax.resources c hc).2 s hs)⟩
  | map tag fields =>
    have hsig : ∀ s : MapSig, (∀ p ∈ s.fields, M p.2 = M' p.2) →
        (s.Has M tag fields ↔ s.Has M' tag fields) := by
      intro s hs
      refine and_congr_right fun _ => forall₂_congr fun p hp => and_congr_right fun _ => ?_
      rw [hs p hp]
    exact DnfHolds.congr fun c hc => ⟨fun s hs => hsig s ((hax.maps c hc).1 s hs),
      fun s hs => hsig s ((hax.maps c hc).2 s hs)⟩
  | fn graph =>
    have hsig : ∀ s : ArrowSig, (M s.ret = M' s.ret ∧ (∀ t ∈ s.args, M t = M' t) ∧
        ∀ l, s.lit = some l → ∀ t ∈ l.captures, M t = M' t) →
        (s.Respects M graph ↔ s.Respects M' graph) := by
      rintro s ⟨hret, hargs, -⟩
      rw [ArrowSig.Respects, hret, listProd_map_congr hargs]
      rfl
    exact DnfHolds.congr fun c hc => ⟨fun s hs => hsig s ((hax.funcs c hc).1 s hs),
      fun s hs => hsig s ((hax.funcs c hc).2 s hs)⟩
  | _ => rfl

variable {cx : TyCtx}

theorem pointsAt_eq : ∀ (n m : Nat) (d : Descr), d.rank < n → d.rank < m →
    d.pointsAt cx n = d.pointsAt cx m := by
  intro n
  induction n with
  | zero => exact fun _ _ h => absurd h (Nat.not_lt_zero _)
  | succ n ih =>
    intro m d hn hm
    cases m with
    | zero => exact absurd hm (Nat.not_lt_zero _)
    | succ m =>
      ext p
      refine has_congr (fun t ht => ?_) p
      have hrank := rank_descr_lt cx ht
      exact ih m (cx.descr t) (by omega) (by omega)

theorem mem_points {d : Descr} {p : Point} : p ∈ d.points cx ↔ d.Has cx.points p := by
  refine has_congr (fun t ht => ?_) p
  have hrank := rank_descr_lt cx ht
  exact pointsAt_eq _ _ (cx.descr t) (by omega) (by omega)

/-! ## Operations -/

variable {a b : Descr}

theorem structural_point (M : Ty → Set Point) (s : PointShape Point) : Structural (s.In M) where
  intersect a b := by
    cases s <;>
      simp [PointShape.In, intersect, BasicBits.intersect, FiniteSet.contains_intersect,
        holds_dnfIntersect]
  negStructure a := by
    cases s <;>
      simp [PointShape.In, negStructure, BasicBits.neg, FiniteSet.contains_neg, holds_dnfNeg]
  withBrands a slot := by cases s <;> rfl
  sameStructure a b h := by
    simp only [sameStructureByConstruction, Bool.and_eq_true, decide_eq_true_eq] at h
    obtain ⟨⟨⟨⟨⟨⟨⟨⟨hbasic, hatoms⟩, hopaques⟩, hvars⟩, htuples⟩, hlists⟩, hres⟩, hfuncs⟩,
      hmaps⟩ := h
    cases s <;>
      simp only [PointShape.In, hbasic, hatoms, hopaques, hvars, htuples, hlists, hres, hfuncs,
        hmaps]
  looksEmpty a h := by
    simp only [structureLooksEmpty, BasicBits.isEmpty, FiniteSet.isNone, Bool.and_eq_true,
      Bool.not_eq_true', decide_eq_true_eq, List.isEmpty_iff] at h
    obtain ⟨⟨⟨⟨⟨⟨⟨⟨hbasic, hatoms⟩, hopaques⟩, hvars⟩, htuples⟩, hlists⟩, hres⟩, hfuncs⟩,
      hmaps⟩ := h
    cases s <;>
      simp [PointShape.In, DnfHolds, FiniteSet.contains, hbasic, hatoms, hopaques, hvars, htuples,
        hlists, hres, hfuncs, hmaps]
  union a b hea heb := by
    rw [union, if_neg hea, if_neg heb]
    cases s <;>
      simp [PointShape.In, BasicBits.union, FiniteSet.contains_union, holds_dnfUnion]
  any := by
    cases s <;> simp [PointShape.In, Descr.any, BasicBits.all, DnfHolds, Conj.Holds, Conj.top]

theorem points_intersect (a b : Descr) : (a.intersect b).points cx = a.points cx ∩ b.points cx := by
  ext p
  rw [Set.mem_inter_iff, mem_points, mem_points, mem_points]
  exact (structural_point _ _).mem_intersect

theorem points_any : (any : Descr).points cx = Set.univ := by
  ext p
  rw [mem_points]
  exact iff_of_true (structural_point _ _).mem_any (Set.mem_univ p)

theorem points_of_looksEmpty (h : a.looksEmpty = true) : a.points cx = ∅ := by
  ext p
  rw [mem_points]
  exact iff_of_false ((structural_point _ _).not_mem_of_looksEmpty h) (Set.notMem_empty p)

theorem points_union (h : SlotsAgree a b) : (a.union b).points cx = a.points cx ∪ b.points cx := by
  ext p
  rw [Set.mem_union, mem_points, mem_points, mem_points]
  exact (structural_point _ _).mem_union_iff h

theorem mem_points_diff {p : Point} (ha : p ∈ a.points cx) (hb : p ∉ b.points cx) :
    p ∈ (a.diff b).points cx := by
  rw [mem_points] at ha hb ⊢
  exact (structural_point _ _).mem_diff_of_mem ha hb

theorem mem_of_mem_points_diff {p : Point} (h : p ∈ (a.diff b).points cx) : p ∈ a.points cx := by
  rw [mem_points] at h ⊢
  exact (structural_point _ _).mem_of_mem_diff h

theorem mem_points_tupleOf {elems : List Ty} {p : Point} : p ∈ (tupleOf elems).points cx ↔
    ∃ vs, p.shape = .tuple vs ∧ vs ∈ listProd (elems.map cx.points) := by
  rw [mem_points, Has, Under]
  cases hshape : p.shape <;>
    simp [tupleOf, unbranded, none, BasicBits.none, PointShape.In, DnfHolds, Conj.Holds,
      Conj.posOf, admits_any, TupleSig.Has]

theorem mk_mem_points {p : Point} (h : p ∈ a.points cx) {brand : Option String}
    (hslot : admits a.brands brand = true) : .mk brand p.shape ∈ a.points cx := by
  rw [mem_points] at h ⊢
  exact ⟨hslot, h.2⟩

/-! ## Differences -/

theorem points_diff_eq_empty_iff : (a.diff b).points cx = ∅ ↔ a.points cx ⊆ b.points cx := by
  constructor
  · intro h p ha
    by_contra hb
    have hmem := mem_points_diff ha hb
    rw [h] at hmem
    exact hmem
  · intro hsub
    rw [Set.eq_empty_iff_forall_notMem]
    intro p hp
    by_cases hcov : b.brands.containsAll a.brands = true
    · rw [mem_points] at hp
      have hdiff := ((structural_point _ _).mem_diff_iff hcov).mp hp
      exact hdiff.2 (mem_points.mp (hsub (mem_points.mpr hdiff.1)))
    · obtain ⟨brand, hbrand, hout⟩ := exists_admits_not hcov
      have hin := hsub (mk_mem_points (mem_of_mem_points_diff hp) hbrand)
      have hslot : admits b.brands brand = true := (mem_points.mp hin).1
      rw [hout] at hslot
      exact nomatch hslot

end Descr

end Fz.Types
