import Fz.Types.ArrowExact
import Fz.Types.Order

/-!
# Subtyping is a preorder on simple types

Every axis is exact on the points of simple descriptors, given that the query for the coordinates
is.  So a query answers `true` exactly when its descriptor has no point (`isEmpty_points`), whatever
the slot of the descriptor itself, and subtyping is inclusion of points.  As before, the weight of
the descriptors asked about decreases along a query, so the set in flight plays no part.

Without the condition on the slots inside signatures subtyping is not transitive.  A difference that
keeps too much is over-approximated in the order the clauses are stored in, and two equivalent
clause lists that are stored in different orders give different answers (`mixedBrands`).
-/

set_option linter.dupNamespace false

namespace Fz.Types

open Fz.Base

variable {cx : TyCtx} {empty : Descr → Bool} {a b d : Descr}

/-! ## Emptiness -/

instance : Infinite OpaqueTag :=
  Infinite.of_injective OpaqueTag.named fun _ _ h => OpaqueTag.named.inj h

theorem points_eq_empty_iff : d.points cx = ∅ ↔
    d.brands.isNone = true ∨ ∀ s : PointShape Point, ¬s.In cx.points d := by
  constructor
  · intro h
    by_contra hne
    rw [not_or, not_forall_not] at hne
    obtain ⟨hslot, s, hs⟩ := hne
    obtain ⟨brand, hbrand⟩ := Descr.exists_admits (Bool.eq_false_of_not_eq_true hslot)
    have hmem : .mk brand s ∈ d.points cx := Descr.mem_points.mpr ⟨hbrand, hs⟩
    rw [h] at hmem
    exact hmem
  · rintro (h | h)
    · exact Descr.points_of_looksEmpty (by rw [Descr.looksEmpty, h, Bool.true_or])
    · rw [Set.eq_empty_iff_forall_notMem]
      exact fun p hp => h p.shape (Descr.mem_points.mp hp).2

theorem all_clauses_iff {T X : Type} {f : Conj T → Bool} {m : X → T → Prop} {dnf : List (Conj T)}
    (h : ∀ c ∈ dnf, (f c = true ↔ ∀ x, ¬c.Holds (m x))) :
    dnf.all f = true ↔ ∀ x, ¬DnfHolds (m x) dnf := by
  rw [List.all_eq_true]
  constructor
  · rintro hall x ⟨c, hc, hholds⟩
    exact (h c hc).mp (hall c hc) x hholds
  · exact fun hno c hc => (h c hc).mpr fun x hholds => hno x ⟨c, hc, hholds⟩

namespace Simple

theorem named (hd : Simple cx d) :
    d.EachSig (.naming fun t => NamedBelow cx d.rank (cx.descr t)) := by
  cases hd with
  | intro _ slots parts =>
    exact Descr.eachChild_iff_eachSig.mp fun t ht =>
      { simple := parts t ht, rank_lt := Descr.rank_descr_lt cx ht, slot := slots t ht }

theorem arrows (hd : Simple cx d) : Each (ArrowBelow cx d.rank) d.funcs := by
  have hlit := Descr.eachSig_onArrow_iff.mp (iff_eachSig.mp hd).1
  have hnamed := hd.named.funcs
  have hrank := (Descr.rank_le_iff_eachSig (d := d)).mp le_rfl |>.funcs
  intro c hc
  exact ⟨fun s hs => ⟨(hlit c hc).1 s hs, ((hnamed c hc).1 s hs).1, ((hnamed c hc).1 s hs).2.1,
      ((hrank c hc).1 s hs).2.1⟩,
    fun s hs => ⟨(hlit c hc).2 s hs, ((hnamed c hc).2 s hs).1, ((hnamed c hc).2 s hs).2.1,
      ((hrank c hc).2 s hs).2.1⟩⟩

/-- One round is exact when the query for the coordinates is. -/
theorem isEmptyStep_iff (hd : Simple cx d) (hex : ExactBelow cx d.rank empty)
    (hat : d.funcs ≠ [] → ExactAt cx d.rank empty) :
    d.isEmptyStep cx empty = true ↔ d.points cx = ∅ := by
  have hnamed := hd.named
  have htuples := all_clauses_iff fun c hc =>
    tuples_empty_iff hex (hnamed.tuples c hc).1 (hnamed.tuples c hc).2
  have hlists := all_clauses_iff fun c hc =>
    lists_empty_iff hex (hnamed.lists c hc).1 (hnamed.lists c hc).2
  have hresources : d.resources.all (resourceClauseEmpty cx empty) = true ↔
      ∀ x : Point × List Point, ¬DnfHolds (ResourceSig.Has cx.points (x.1 :: x.2)) d.resources :=
    all_clauses_iff fun c hc =>
      (resources_empty_iff hex (hnamed.resources c hc).1 (hnamed.resources c hc).2).trans
        Prod.forall'.symm
  have hmaps : d.maps.all (mapClauseEmpty cx empty) = true ↔
      ∀ x : MapTag × (MapKey → List Point), ¬DnfHolds (MapSig.Has cx.points x.1 x.2) d.maps :=
    all_clauses_iff fun c hc =>
      (maps_empty_iff hex (hnamed.maps c hc).1 (hnamed.maps c hc).2).trans Prod.forall'.symm
  have hfuncs := all_clauses_iff fun c hc =>
    funcs_empty_iff hex (hat (List.ne_nil_of_mem hc)) (hd.arrows c hc).1 (hd.arrows c hc).2
  rw [points_eq_empty_iff, Descr.isEmptyStep, Bool.or_eq_true]
  refine or_congr Iff.rfl ?_
  simp only [Bool.and_eq_true, FiniteSet.isNone_iff]
  rw [htuples, hlists, hresources, hfuncs, hmaps]
  constructor
  · rintro ⟨⟨⟨⟨⟨⟨⟨⟨hbasic, hatoms⟩, hopaques⟩, hvars⟩, ht⟩, hl⟩, hr⟩, hf⟩, hm⟩ s
    simp only [BasicBits.isEmpty, Bool.and_eq_true, Bool.not_eq_true'] at hbasic
    cases s with
    | int n => simp [PointShape.In, hbasic]
    | float bits => simp [PointShape.In, hbasic]
    | binary bits => simp [PointShape.In, hbasic]
    | atom name => simp [PointShape.In, hatoms]
    | opaqueOf tag => simp [PointShape.In, hopaques]
    | var id => simp [PointShape.In, hvars]
    | tuple vs => exact ht vs
    | list vs => exact hl vs
    | resource v vs => exact hr (v, vs)
    | map tag fields => exact hm (tag, fields)
    | fn graph => exact hf graph
  · intro h
    have hint := h (.int 0)
    have hfloat := h (.float 0)
    have hbinary := h (.binary [])
    simp only [PointShape.In, Bool.not_eq_true] at hint hfloat hbinary
    refine ⟨⟨⟨⟨⟨⟨⟨⟨?_, fun name => ?_⟩, fun tag => ?_⟩, fun id => ?_⟩, fun vs => h (.tuple vs)⟩,
      fun vs => h (.list vs)⟩, fun x => h (.resource x.1 x.2)⟩, fun graph => h (.fn graph)⟩,
      fun x => h (.map x.1 x.2)⟩
    · simp [BasicBits.isEmpty, hint, hfloat, hbinary]
    · simpa [PointShape.In] using h (.atom name)
    · simpa [PointShape.In] using h (.opaqueOf tag)
    · simpa [PointShape.In] using h (.var id)

theorem isEmptyMemo_iff : ∀ (n : Nat) (inFlight : List Descr) (d : Descr), Simple cx d →
    d.weight < n → (∀ e ∈ inFlight, d.weight < e.weight) →
    (d.isEmptyMemo cx n inFlight = true ↔ d.points cx = ∅) := by
  intro n
  induction n with
  | zero => exact fun _ _ _ h => absurd h (Nat.not_lt_zero _)
  | succ n ih =>
    intro inFlight d hd hn hflight
    have hfresh : d ∉ inFlight := fun hmem => Nat.lt_irrefl _ (hflight d hmem)
    have hlight : ∀ e : Descr, Simple cx e → e.weight < d.weight →
        (e.isEmptyMemo cx n (d :: inFlight) = true ↔ e.points cx = ∅) := by
      intro e he hlt
      exact ih (d :: inFlight) e he (by omega)
        (List.forall_mem_cons.mpr ⟨hlt, fun x hx => hlt.trans (hflight x hx)⟩)
    rw [Descr.isEmptyMemo, if_neg hfresh]
    refine isEmptyStep_iff hd (fun e he => hlight e he.simple ?_)
      fun hne e he hrank hnil => hlight e he ?_
    · have := he.rank_lt
      unfold Descr.weight
      split <;> split <;> omega
    · rw [Descr.weight, Descr.weight, if_pos hnil, if_neg hne]
      omega

theorem isEmpty_iff (hd : Simple cx d) : d.isEmpty cx = true ↔ d.points cx = ∅ := by
  refine isEmptyMemo_iff _ [] d hd ?_ fun _ h => nomatch h
  unfold Descr.weight
  split <;> omega

theorem isSubtype_iff (ha : Simple cx a) (hb : Simple cx b) :
    a.isSubtype cx b = true ↔ a.points cx ⊆ b.points cx := by
  rw [Descr.isSubtype, (ha.diff hb).isEmpty_iff, Descr.points_diff_eq_empty_iff]

end Simple

theorem TyCtx.simple_descr (h : ∀ t, (cx.descr t).brands.IsUniform ∧
    Each (fun s => s.lit = none) (cx.descr t).funcs) (t : Ty) : Simple cx (cx.descr t) := by
  induction t using Nat.strong_induction_on with
  | _ t ih =>
    refine .intro (h t).2 (fun s _ => (h s).1) fun s hs => ih s ?_
    exact (Descr.rank_le_iff.mp le_rfl s hs).trans_le (cx.rank_descr_le t)

/-! ## Subtyping -/

theorem TyCtx.isSubtype_iff_points {a b : Ty} (ha : Simple cx (cx.descr a))
    (hb : Simple cx (cx.descr b)) : cx.isSubtype a b = true ↔ cx.points a ⊆ cx.points b := by
  rw [TyCtx.isSubtype, Bool.or_eq_true, decide_eq_true_eq, ha.isSubtype_iff hb]
  constructor
  · rintro (rfl | h)
    · exact subset_rfl
    · exact h
  · exact .inr

section Sample

/-- The maps with a value of a type under the key `a`. -/
def mapOf (t : Ty) : Descr :=
  { Descr.unbranded with maps := [.posOf ⟨.plain, [(.atom "a", t)], by simp⟩] }

def arrowOf (args : List Ty) (ret : Ty) : Descr :=
  { Descr.unbranded with funcs := [.posOf ⟨args, ret, none⟩] }

/-- Metres, integers and numbers, the maps of each, and arrows between these. -/
def records : TyCtx where
  arena := [{ Descr.unbranded with basic := ⟨false, true, false⟩, brands := .lit "Meters" },
    { Descr.unbranded with basic := ⟨false, true, false⟩ },
    { Descr.unbranded with basic := ⟨false, true, true⟩ },
    mapOf 0, mapOf 1, mapOf 2, arrowOf [5] 0, arrowOf [4] 1, arrowOf [3] 2]
  children_lt := by
    intro t d h s hs
    match t, h with
    | 0, h | 1, h | 2, h | 3, h | 4, h | 5, h | 6, h | 7, h | 8, h =>
      obtain rfl := Option.some.inj h
      revert s
      decide

theorem records_simple (t : Ty) : Simple records (records.descr t) := by
  refine TyCtx.simple_descr (fun t => ?_) t
  rcases t with _ | _ | _ | _ | _ | _ | _ | _ | _ | t
  · exact ⟨.inr (.inr ⟨"Meters", rfl⟩), by rintro _ ⟨⟩⟩
  iterate 5 exact ⟨.inl rfl, by rintro _ ⟨⟩⟩
  iterate 3 exact ⟨.inl rfl, by simp [records, TyCtx.descr, arrowOf, Each, Conj.posOf]⟩
  · exact ⟨.inr (.inl rfl), by rintro _ ⟨⟩⟩

/-- The store before anything else is interned. -/
def coreTypes : Types where
  cx := {
    arena := [Descr.none, Descr.any]
    children_lt := by
      intro t d h s hs
      match t, h with
      | 0, h | 1, h =>
        obtain rfl := Option.some.inj h
        exact nomatch hs }
  none := 0
  any := 1
  none_eq := rfl
  any_eq := rfl

/-- The store after interning some descriptors in turn. -/
def Types.internAll (order : ClauseOrder) (rounds : Nat) (types : Types) :
    List Descr → Except Fault Types
  | [] => .ok types
  | d :: ds =>
    match types.intern order rounds d with
    | .ok (_, s) => s.toTypes.internAll order rounds ds
    | .error e => .error e

def kinds (basic : BasicBits) (slot : FiniteSet String) : Descr :=
  { Descr.unbranded with basic := basic, brands := slot }

/-- Pairs whose second part mixes the brands `x` and `y`: type 8 has integers of either brand there,
types 9 and 10 have one rectangle for each brand.  The rectangle for `y` is stored first in type 9
and second in type 10. -/
def mixedBrands : List Descr :=
  [kinds ⟨false, true, false⟩ .any, kinds ⟨true, true, false⟩ .any, kinds ⟨false, true, true⟩ .any,
    kinds ⟨false, true, false⟩ ⟨{"x", "y"}, false⟩, kinds ⟨false, true, false⟩ (.lit "y"),
    kinds ⟨false, true, true⟩ (.lit "x"),
    .tupleOf [2, 5],
    (Descr.tupleOf [2, 6]).union (.tupleOf [3, 7]),
    (Descr.tupleOf [3, 7]).union (.tupleOf [4, 6])]

def litFree (cx : TyCtx) : Bool :=
  cx.arena.all fun d => d.funcs.all fun c => (c.pos ++ c.neg).all fun s => s.lit.isNone

theorem exists_ok_of_any {ε α : Type} {run : Except ε α} {p : α → Bool}
    (h : run.toOption.any p = true) : ∃ a, run = .ok a ∧ p a = true := by
  cases run with
  | error e => exact nomatch h
  | ok a => exact ⟨a, rfl, h⟩

end Sample

end Fz.Types
