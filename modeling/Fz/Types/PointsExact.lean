import Fz.Types.EmptinessSound
import Fz.Types.Points
import Fz.Types.Reading

/-!
# Emptiness is exact on points

A query answers `true` exactly when its descriptor has no point, on every axis, for types without
closure literals whose parts do not mix brands (`Simple`).  So subtyping of such types is inclusion
of their points, and with it a preorder.

Brands enter in two ways.  The slot of the descriptor a query is asked about may be anything: a
minuend whose slot is not covered keeps points under a brand the subtrahend leaves out, so it loses
all its points only by having none.  The slot of a named type is the unconstrained one, the empty
one or a single brand.  Then a difference that keeps too much keeps points under some brand and
none, and a named type that has such a point without a brand has it under every brand.

A map clause is refuted by one negative signature because the field of a point can collect, for
each negative signature, a point outside what it asks of that field; a function clause, because a
finite relation can collect a call for each negative arrow.
-/

namespace Fz.Types

open Fz.Base

variable {cx : TyCtx}

/-! ## Simple types -/

namespace FiniteSet

/-- Unconstrained, empty, or one name. -/
def IsUniform (s : FiniteSet String) : Prop := s = any ∨ s = none ∨ ∃ b, s = lit b

/-- Cofinite, or at most one name. -/
def IsNarrow (s : FiniteSet String) : Prop :=
  s.cofinite = true ∨ ∀ b c, s.contains b = true → s.contains c = true → b = c

variable {s t : FiniteSet String}

theorem IsUniform.isNarrow (h : s.IsUniform) : s.IsNarrow := by
  rcases h with rfl | rfl | ⟨b, rfl⟩
  · exact .inl rfl
  · exact .inr fun b c hb => by simp at hb
  · exact .inr fun b c hb hc => by simp_all [contains, lit]

theorem IsNarrow.intersect (hs : s.IsNarrow) (ht : t.IsNarrow) : (s.intersect t).IsNarrow := by
  rcases hs with hs | hs
  · rcases ht with ht | ht
    · left
      simp [FiniteSet.intersect, hs, ht]
    · right
      intro b c hb hc
      rw [contains_intersect, Bool.and_eq_true] at hb hc
      exact ht b c hb.2 hc.2
  · right
    intro b c hb hc
    rw [contains_intersect, Bool.and_eq_true] at hb hc
    exact hs b c hb.1 hc.1

theorem IsNarrow.of_overlaps (hs : s.IsNarrow) (ht : t.IsUniform)
    (hcov : ¬t.containsAll s = true) (hover : s.overlaps t = true) :
    s.cofinite = true ∧ ∃ b, t = lit b := by
  rcases ht with rfl | rfl | ⟨b, rfl⟩
  · refine absurd ?_ hcov
    cases hs : s.cofinite <;> simp [containsAll, any, hs]
  · rcases exists_of_overlaps hover with ⟨-, h⟩ | ⟨b, -, h⟩
    · cases h
    · rw [contains_none] at h
      cases h
  · rcases hs with hs | hs
    · exact ⟨hs, b, rfl⟩
    · refine absurd ?_ hcov
      rcases exists_of_overlaps hover with ⟨-, h⟩ | ⟨c, hc, hb⟩
      · cases h
      · obtain rfl : c = b := by simpa [contains, lit] using hb
        cases hcof : s.cofinite with
        | true =>
          -- a cofinite set has more than one name
          obtain ⟨d, hd⟩ := Infinite.exists_notMem_finset (insert c s.values)
          rw [Finset.mem_insert, not_or] at hd
          have hsd : s.contains d = true := by simp [contains, hcof, hd.2]
          exact absurd (hs c d hc hsd).symm hd.1
        | false =>
          simp only [containsAll, lit, hcof, decide_eq_true_eq, Finset.subset_singleton_iff']
          intro d hd
          exact hs d c (by simp [contains, hcof, hd]) hc

end FiniteSet

/-- No arrow carries a closure literal, and the types named in signatures have uniform slots, at
every depth. -/
inductive Simple (cx : TyCtx) : Descr → Prop where
  | intro {d : Descr} (litFree : Each (fun s => s.lit = none) d.funcs)
    (slots : d.EachChild fun t => (cx.descr t).brands.IsUniform)
    (parts : d.EachChild fun t => Simple cx (cx.descr t)) : Simple cx d

namespace Simple

variable {a b d : Descr}

/-- A named type of a simple one. -/
def Part (cx : TyCtx) (t : Ty) : Prop := (cx.descr t).brands.IsUniform ∧ Simple cx (cx.descr t)

theorem iff_eachSig : Simple cx d ↔
    d.EachSig (.onArrow fun s => s.lit = none) ∧ d.EachSig (.naming (Part cx)) := by
  rw [← Descr.eachChild_iff_eachSig, Descr.eachSig_onArrow_iff]
  constructor
  · rintro ⟨hlit, hslots, hparts⟩
    exact ⟨hlit, fun t ht => ⟨hslots t ht, hparts t ht⟩⟩
  · rintro ⟨hlit, hparts⟩
    exact .intro hlit (fun t ht => (hparts t ht).1) fun t ht => (hparts t ht).2

theorem intersect (ha : Simple cx a) (hb : Simple cx b) : Simple cx (a.intersect b) := by
  rw [iff_eachSig] at ha hb ⊢
  exact ⟨ha.1.intersect hb.1, ha.2.intersect hb.2⟩

theorem diff (ha : Simple cx a) (hb : Simple cx b) : Simple cx (a.diff b) := by
  rw [iff_eachSig] at ha hb ⊢
  exact ⟨ha.1.diff hb.1, ha.2.diff hb.2⟩

theorem union (ha : Simple cx a) (hb : Simple cx b) : Simple cx (a.union b) := by
  rw [iff_eachSig] at ha hb ⊢
  exact ⟨ha.1.union hb.1, ha.2.union hb.2⟩

theorem any : Simple cx Descr.any := iff_eachSig.mpr ⟨.any, .any⟩

theorem none : Simple cx Descr.none := iff_eachSig.mpr ⟨.none, .none⟩

theorem tupleOf {elems : List Ty} (h : ∀ t ∈ elems, Part cx t) : Simple cx (.tupleOf elems) :=
  iff_eachSig.mpr ⟨.tupleOf trivial, .tupleOf h⟩

end Simple

/-! ## What a query asks about -/

/-- A simple descriptor of rank below `r`. -/
structure SimpleBelow (cx : TyCtx) (r : Nat) (d : Descr) : Prop where
  simple : Simple cx d
  rank_lt : d.rank < r

namespace SimpleBelow

variable {r : Nat} {a b : Descr}

theorem intersect (ha : SimpleBelow cx r a) (hb : SimpleBelow cx r b) :
    SimpleBelow cx r (a.intersect b) :=
  ⟨ha.simple.intersect hb.simple,
    (Descr.rank_intersect_le a b).trans_lt (Nat.max_lt.mpr ⟨ha.rank_lt, hb.rank_lt⟩)⟩

theorem diff (ha : SimpleBelow cx r a) (hb : SimpleBelow cx r b) : SimpleBelow cx r (a.diff b) :=
  ⟨ha.simple.diff hb.simple,
    (Descr.rank_diff_le a b).trans_lt (Nat.max_lt.mpr ⟨ha.rank_lt, hb.rank_lt⟩)⟩

theorem any (hr : 0 < r) : SimpleBelow cx r Descr.any := ⟨.any, hr⟩

end SimpleBelow

/-- A named type of rank below `r`. -/
structure NamedBelow (cx : TyCtx) (r : Nat) (d : Descr) : Prop extends SimpleBelow cx r d where
  slot : d.brands.IsUniform

/-- A query that is exact below rank `r`. -/
def ExactBelow (cx : TyCtx) (r : Nat) (empty : Descr → Bool) : Prop :=
  ∀ d, SimpleBelow cx r d → (empty d = true ↔ d.points cx = ∅)

/-- A query that is exact for the descriptors without function clauses at rank `r`. -/
def ExactAt (cx : TyCtx) (r : Nat) (empty : Descr → Bool) : Prop :=
  ∀ d : Descr, Simple cx d → d.rank ≤ r → d.funcs = [] → (empty d = true ↔ d.points cx = ∅)

section Axes

variable {r : Nat} {empty : Descr → Bool}

theorem ExactBelow.diff_iff (hex : ExactBelow cx r empty) {a b : Descr}
    (ha : SimpleBelow cx r a) (hb : SimpleBelow cx r b) :
    empty (a.diff b) = true ↔ a.points cx ⊆ b.points cx := by
  rw [hex _ (ha.diff hb), Descr.points_diff_eq_empty_iff]

/-! ## Tuples and lists -/

theorem isNarrow_diff {a b : Descr} (ha : a.brands.IsNarrow) (hb : b.brands.IsUniform) :
    (a.diff b).brands.IsNarrow := by
  rw [Descr.diff]
  split
  · exact ha
  rename_i hcov
  split
  · exact ha
  rename_i hover
  split
  · obtain ⟨hcof, c, hc⟩ := ha.of_overlaps hb hcov (by simpa using hover)
    left
    show (a.brands.intersect b.brands.neg).cofinite = true
    rw [hc]
    simp [FiniteSet.intersect, FiniteSet.neg, FiniteSet.lit, hcof]
  · exact ha

theorem exists_generic {a b : Descr} (ha : a.brands.IsNarrow) (hb : b.brands.IsUniform)
    {p : Point} (hp : p ∈ (a.diff b).points cx) : ∃ q, q ∈ a.points cx ∧ q ∉ b.points cx ∧
      ∀ c : Descr, c.brands.IsUniform → q ∈ c.points cx → p ∈ c.points cx := by
  have hpa := Descr.mem_of_mem_points_diff hp
  by_cases hpb : p ∈ b.points cx
  · have hcov : ¬b.brands.containsAll a.brands = true := by
      intro hcov
      rw [Descr.mem_points] at hp hpb
      exact (((Descr.structural_point _ _).mem_diff_iff hcov).mp hp).2 hpb
    have hover : a.brands.overlaps b.brands = true := by
      by_contra hover
      rw [Bool.not_eq_true] at hover
      have hslot := Descr.admits_of_not_overlaps hover (Descr.mem_points.mp hpa).1
      rw [(Descr.mem_points.mp hpb).1] at hslot
      exact nomatch hslot
    obtain ⟨hcof, x, hx⟩ := ha.of_overlaps hb hcov hover
    refine ⟨.mk none p.shape, Descr.mk_mem_points hpa hcof, fun hmem => ?_, fun c hc hmem => ?_⟩
    · have hslot : admits b.brands none = true := (Descr.mem_points.mp hmem).1
      rw [hx] at hslot
      exact nomatch hslot
    · have hslot : admits c.brands none = true := (Descr.mem_points.mp hmem).1
      rcases hc with hc | hc | ⟨y, hc⟩
      · have hbrand : admits c.brands p.brand = true := by rw [hc, Descr.admits_any]
        exact Descr.mk_mem_points hmem hbrand
      · rw [hc] at hslot
        exact nomatch hslot
      · rw [hc] at hslot
        exact nomatch hslot
  · exact ⟨p, hpa, hpb, fun c _ h => h⟩

/-- Simple descriptors read as their points. -/
def pointsReading (hex : ExactBelow cx r empty) : Reading empty Point where
  den := Descr.points cx
  Asked d := SimpleBelow cx r d ∧ d.brands.IsNarrow
  Named := NamedBelow cx r
  asked h := ⟨h.toSimpleBelow, h.slot.isNarrow⟩
  asked_intersect ha hb := ⟨ha.1.intersect hb.toSimpleBelow, ha.2.intersect hb.slot.isNarrow⟩
  asked_diff ha hb := ⟨ha.1.diff hb.toSimpleBelow, isNarrow_diff ha.2 hb.slot⟩
  asked_any h := ⟨.any (Nat.zero_lt_of_lt h.rank_lt), .inl rfl⟩
  den_intersect := Descr.points_intersect
  den_any := Descr.points_any
  empty_iff h := hex _ h.1
  empty_diff_iff ha hb := hex.diff_iff ha.1 hb.1
  mem_diff _ _ ha hb := Descr.mem_points_diff ha hb
  generic ha hb hp := by
    obtain ⟨q, hqa, hqb, hgen⟩ := exists_generic ha.2 hb.slot hp
    exact ⟨q, hqa, hqb, fun c hc => hgen c hc.slot⟩

theorem tuples_empty_iff (hex : ExactBelow cx r empty) {c : Conj TupleSig}
    (hpos : ∀ p ∈ c.pos, ∀ e ∈ p.elems, NamedBelow cx r (cx.descr e))
    (hneg : ∀ n ∈ c.neg, ∀ e ∈ n.elems, NamedBelow cx r (cx.descr e)) :
    tupleClauseEmpty cx empty c = true ↔ ∀ vs, ¬c.Holds (TupleSig.Has cx.points vs) :=
  (pointsReading hex).tupleClauseEmpty_iff hpos hneg

theorem listSig_has_cons_iff (hex : ExactBelow cx r empty) {s : ListSig} {v : Point}
    {vs : List Point} : s.Has cx.points (v :: vs) ↔
      ∀ w ∈ v :: vs, w ∈ (pointsReading hex).elems cx s := by
  constructor
  · rintro ⟨t, ht, hall⟩ w hw
    exact ⟨t, ht, hall w hw⟩
  · intro h
    obtain ⟨t, ht, -⟩ := h v (.head _)
    refine ⟨t, ht, fun w hw => ?_⟩
    rw [Reading.elems_some ht] at h
    exact h w hw

theorem lists_empty_iff (hex : ExactBelow cx r empty) {c : Conj ListSig}
    (hpos : ∀ p ∈ c.pos, ∀ t, p.elem = some t → NamedBelow cx r (cx.descr t))
    (hneg : ∀ n ∈ c.neg, ∀ t, n.elem = some t → NamedBelow cx r (cx.descr t)) :
    listClauseEmpty cx empty c = true ↔ ∀ vs, ¬c.Holds (ListSig.Has cx.points vs) := by
  rw [(pointsReading hex).listClauseEmpty_iff hpos hneg]
  constructor
  · rintro ⟨hnil, hcons⟩ vs hvs
    cases vs with
    | nil => exact hnil hvs
    | cons v vs =>
      refine hcons v vs ?_
      simpa only [Conj.Holds, listSig_has_cons_iff hex] using hvs
  · intro h
    refine ⟨h [], fun v vs hvs => h (v :: vs) ?_⟩
    simpa only [Conj.Holds, listSig_has_cons_iff hex] using hvs

/-! ## Resources -/

theorem foldl_payload_spec (ps : List ResourceSig)
    (hps : ∀ p ∈ ps, NamedBelow cx r (cx.descr p.payload)) : ∀ d : Descr, SimpleBelow cx r d →
      SimpleBelow cx r (ps.foldl (fun d q => d.intersect (cx.descr q.payload)) d) ∧
      ∀ v, v ∈ (ps.foldl (fun d q => d.intersect (cx.descr q.payload)) d).points cx ↔
        v ∈ d.points cx ∧ ∀ p ∈ ps, v ∈ cx.points p.payload := by
  induction ps with
  | nil => exact fun d hd => ⟨hd, by simp⟩
  | cons p ps ih =>
    intro d hd
    have hp := hps p (.head _)
    obtain ⟨hlow, hmem⟩ := ih (fun q hq => hps q (.tail _ hq)) _ (hd.intersect hp.toSimpleBelow)
    refine ⟨hlow, fun v => ?_⟩
    rw [List.foldl_cons, hmem, Descr.points_intersect, List.forall_mem_cons, Set.mem_inter_iff,
      and_assoc]
    rfl

theorem no_resource_iff {c : Conj ResourceSig} {d : Set Point}
    (hmem : ∀ v, v ∈ d ↔ ∀ p ∈ c.pos, v ∈ cx.points p.payload) :
    (∀ v vs, ¬c.Holds (ResourceSig.Has cx.points (v :: vs))) ↔
      d = ∅ ∨ ∃ n ∈ c.neg, d ⊆ cx.points n.payload := by
  have hswap : ∀ vs : List Point, (∀ p ∈ c.pos, p.Has cx.points vs) ↔ ∀ w ∈ vs, w ∈ d := by
    intro vs
    simp only [hmem, ResourceSig.Has]
    exact ⟨fun h w hw p hp => h p hp w hw, fun h p hp w hw => h w hw p hp⟩
  constructor
  · intro h
    by_contra hne
    rw [not_or, ← ne_eq, ← Set.nonempty_iff_ne_empty] at hne
    obtain ⟨⟨v, hv⟩, hnot⟩ := hne
    have hsets : ∀ s ∈ c.neg.map fun n => cx.points n.payload, ¬d ⊆ s := by
      intro s hs hsub
      obtain ⟨n, hn, rfl⟩ := List.mem_map.mp hs
      exact hnot ⟨n, hn, hsub⟩
    obtain ⟨vs, hvs, hout⟩ := exists_list_outside hsets
    refine h v vs ⟨(hswap _).mpr (List.forall_mem_cons.mpr ⟨hv, hvs⟩), fun n hn hall => ?_⟩
    obtain ⟨w, hw, hnot⟩ := hout _ (List.mem_map_of_mem hn)
    exact hnot (hall w (.tail _ hw))
  · rintro (he | ⟨n, hn, hsub⟩) v vs ⟨hp, hneg⟩
    · have hv := (hswap _).mp hp v (.head _)
      rw [he] at hv
      exact hv
    · exact hneg n hn fun w hw => hsub ((hswap _).mp hp w hw)

theorem resources_empty_iff (hex : ExactBelow cx r empty) {c : Conj ResourceSig}
    (hpos : ∀ p ∈ c.pos, NamedBelow cx r (cx.descr p.payload))
    (hneg : ∀ n ∈ c.neg, NamedBelow cx r (cx.descr n.payload)) :
    resourceClauseEmpty cx empty c = true ↔
      ∀ v vs, ¬c.Holds (ResourceSig.Has cx.points (v :: vs)) := by
  have hcut : ∀ d : Descr, (∀ n ∈ c.neg, SimpleBelow cx r d) →
      ((c.neg.any fun n => empty (d.diff (cx.descr n.payload))) = true ↔
        ∃ n ∈ c.neg, d.points cx ⊆ cx.points n.payload) := by
    intro d hd
    rw [List.any_eq_true]
    exact exists_congr fun n => and_congr_right fun hn =>
      hex.diff_iff (hd n hn) (hneg n hn).toSimpleBelow
  rw [resourceClauseEmpty]
  rcases c with ⟨_ | ⟨p, ps⟩, ns⟩
  · -- every payload is left
    have hall : ∀ v, v ∈ (Descr.any).points cx ↔ ∀ p ∈ ([] : List ResourceSig),
        v ∈ cx.points p.payload := by
      simp [Descr.points_any]
    have hany : (Descr.any).points cx = Set.univ := Descr.points_any
    rw [no_resource_iff hall, hany, or_iff_right Set.univ_nonempty.ne_empty, ← hany]
    exact hcut .any fun n hn => .any (Nat.zero_lt_of_lt (hneg n hn).rank_lt)
  · obtain ⟨hlow, hmem⟩ := foldl_payload_spec ps (fun q hq => hpos q (.tail _ hq))
      (cx.descr p.payload) (hpos p (.head _)).toSimpleBelow
    have hleft : ∀ v, v ∈ (ps.foldl (fun d q => d.intersect (cx.descr q.payload))
        (cx.descr p.payload)).points cx ↔ ∀ q ∈ p :: ps, v ∈ cx.points q.payload := by
      intro v
      rw [hmem, List.forall_mem_cons]
      rfl
    rw [no_resource_iff hleft, ← hex _ hlow, ← hcut _ fun _ _ => hlow]
    simp only [List.isEmpty_cons, Bool.not_false, Bool.true_and]
    simp only [Bool.if_true_left, Bool.or_eq_true, decide_eq_true_eq]

/-! ## Maps -/

/-- What the positive factors of a map clause ask of the field under a key. -/
def fieldPoints (cx : TyCtx) (fields : List (MapKey × Ty)) (key : MapKey) : Set Point :=
  {v | ∀ t, (key, t) ∈ fields → v ∈ cx.points t}

theorem exists_field (D : Set Point) (hne : D.Nonempty) (asked : List (MapKey × Ty))
    (key : MapKey) : ∃ vs, vs ≠ [] ∧ (∀ v ∈ vs, v ∈ D) ∧
      ∀ t, (key, t) ∈ asked → ¬D ⊆ cx.points t → ∃ v ∈ vs, v ∉ cx.points t := by
  classical
  let sets := (asked.filter fun f => f.1 = key ∧ ¬D ⊆ cx.points f.2).map fun f => cx.points f.2
  have hsets : ∀ s ∈ sets, ¬D ⊆ s := by
    intro s hs
    obtain ⟨f, hf, rfl⟩ := List.mem_map.mp hs
    rw [List.mem_filter, decide_eq_true_eq] at hf
    exact hf.2.2
  obtain ⟨v, hv⟩ := hne
  obtain ⟨vs, hvs, hout⟩ := exists_list_outside hsets
  refine ⟨v :: vs, List.cons_ne_nil v vs, List.forall_mem_cons.mpr ⟨hv, hvs⟩, fun t ht hnot => ?_⟩
  obtain ⟨w, hw, hwt⟩ := hout (cx.points t) (List.mem_map.mpr
    ⟨(key, t), List.mem_filter.mpr ⟨ht, decide_eq_true ⟨rfl, hnot⟩⟩, rfl⟩)
  exact ⟨w, .tail _ hw, hwt⟩

/-- A clause with a positive factor has no map when the tags differ, when some field has no point,
or when a negative factor takes every field. -/
theorem no_map_iff {p : MapSig} {ps ns : List MapSig} :
    (∀ tag fields, ¬(⟨p :: ps, ns⟩ : Conj MapSig).Holds (MapSig.Has cx.points tag fields)) ↔
      (∃ q ∈ ps, q.tag ≠ p.tag) ∨ (∃ f ∈ (p :: ps).flatMap MapSig.fields,
        fieldPoints cx ((p :: ps).flatMap MapSig.fields) f.1 = ∅) ∨
      ∃ n ∈ ns, n.tag = p.tag ∧ ∀ f ∈ n.fields,
        f.1 ∈ ((p :: ps).flatMap MapSig.fields).map Prod.fst ∧
        fieldPoints cx ((p :: ps).flatMap MapSig.fields) f.1 ⊆ cx.points f.2 := by
  have hpos : ∀ tag fields, (∀ q ∈ p :: ps, q.Has cx.points tag fields) ↔
      (∀ q ∈ p :: ps, q.tag = tag) ∧ ∀ f ∈ (p :: ps).flatMap MapSig.fields,
        fields f.1 ≠ [] ∧ ∀ v ∈ fields f.1, v ∈ cx.points f.2 := by
    intro tag fields
    simp only [MapSig.Has, List.mem_flatMap]
    constructor
    · intro h
      exact ⟨fun q hq => (h q hq).1, fun f ⟨q, hq, hf⟩ => (h q hq).2 f hf⟩
    · rintro ⟨htag, hall⟩ q hq
      exact ⟨htag q hq, fun f hf => hall f ⟨q, hq, hf⟩⟩
  generalize hall : (p :: ps).flatMap MapSig.fields = all at hpos ⊢
  constructor
  · intro h
    by_contra hne
    push Not at hne
    obtain ⟨htags, hinh, hneg⟩ := hne
    have hfield : ∀ key, ∃ vs : List Point, (key ∉ all.map Prod.fst → vs = []) ∧
        (key ∈ all.map Prod.fst → vs ≠ [] ∧ (∀ v ∈ vs, v ∈ fieldPoints cx all key) ∧
          ∀ t, (key, t) ∈ ns.flatMap MapSig.fields → ¬fieldPoints cx all key ⊆ cx.points t →
            ∃ v ∈ vs, v ∉ cx.points t) := by
      intro key
      by_cases hkey : key ∈ all.map Prod.fst
      · obtain ⟨f, hf, rfl⟩ := List.mem_map.mp hkey
        obtain ⟨vs, hvs⟩ := exists_field _ (hinh f hf) (ns.flatMap MapSig.fields) f.1
        exact ⟨vs, fun hno => absurd hkey hno, fun _ => hvs⟩
      · exact ⟨[], fun _ => rfl, fun hyes => absurd hyes hkey⟩
    choose fields habsent hpresent using hfield
    refine h p.tag fields ⟨(hpos _ _).mpr ⟨List.forall_mem_cons.mpr ⟨rfl, htags⟩, ?_⟩, ?_⟩
    · intro f hf
      obtain ⟨hne, hin, -⟩ := hpresent f.1 (List.mem_map_of_mem hf)
      exact ⟨hne, fun v hv => hin v hv f.2 hf⟩
    · rintro n hn ⟨htag, hfields⟩
      obtain ⟨f, hf, hbad⟩ := hneg n hn htag
      obtain ⟨hne, hin⟩ := hfields f hf
      by_cases hkey : f.1 ∈ all.map Prod.fst
      · obtain ⟨v, hv, hout⟩ := (hpresent f.1 hkey).2.2 f.2
          (List.mem_flatMap.mpr ⟨n, hn, hf⟩) (hbad hkey)
        exact hout (hin v hv)
      · exact hne (habsent f.1 hkey)
  · rintro h tag fields ⟨hp, hn⟩
    obtain ⟨htags, hfields⟩ := (hpos _ _).mp hp
    have hin : ∀ f ∈ all, ∀ v ∈ fields f.1, v ∈ fieldPoints cx all f.1 :=
      fun f _ v hv t ht => (hfields (f.1, t) ht).2 v hv
    rcases h with ⟨q, hq, hne⟩ | ⟨f, hf, he⟩ | ⟨n, hnmem, htag, hcov⟩
    · exact hne ((htags q (.tail _ hq)).trans (htags p (.head _)).symm)
    · obtain ⟨v, hv⟩ := List.exists_mem_of_ne_nil _ (hfields f hf).1
      have hmem := hin f hf v hv
      rw [he] at hmem
      exact hmem
    · refine hn n hnmem ⟨htag.trans (htags p (.head _)), fun f hf => ?_⟩
      obtain ⟨hkey, hsub⟩ := hcov f hf
      obtain ⟨g, hg, hgf⟩ := List.mem_map.mp hkey
      rw [← hgf] at hsub ⊢
      exact ⟨(hfields g hg).1, fun v hv => hsub (hin g hg v hv)⟩

/-- The fields merged so far stand for the fields met so far. -/
structure Merges (cx : TyCtx) (r : Nat) (fields : List (MapKey × Ty))
    (merged : List (MapKey × Descr)) : Prop where
  keys : ∀ k, k ∈ merged.map Prod.fst ↔ k ∈ fields.map Prod.fst
  spec : ∀ m ∈ merged, SimpleBelow cx r m.2 ∧ m.2.points cx = fieldPoints cx fields m.1

namespace Merges

variable {fields : List (MapKey × Ty)} {merged : List (MapKey × Descr)}

theorem isSome_lookup {key : MapKey} : (merged.lookup key).isSome ↔ key ∈ merged.map Prod.fst := by
  rw [List.lookup_isSome_iff, List.mem_map]
  exact exists_congr fun m => and_congr_right fun _ => beq_iff_eq.trans eq_comm

theorem mem_of_lookup {key : MapKey} {d : Descr} (h : merged.lookup key = some d) :
    (key, d) ∈ merged := by
  obtain ⟨l₁, l₂, hl, -⟩ := List.lookup_eq_some_iff.mp h
  rw [hl]
  exact List.mem_append_right _ (.head _)

theorem fieldPoints_concat (f : MapKey × Ty) (key : MapKey) : fieldPoints cx (fields ++ [f]) key =
      {v | v ∈ fieldPoints cx fields key ∧ (key = f.1 → v ∈ cx.points f.2)} := by
  ext v
  constructor
  · intro h
    refine ⟨fun t ht => h t (List.mem_append_left _ ht), fun hk => h f.2 ?_⟩
    rw [hk]
    exact List.mem_append_right _ (.head _)
  · rintro ⟨hold, hnew⟩ t ht
    rcases List.mem_append.mp ht with ht | ht
    · exact hold t ht
    · obtain rfl := List.mem_singleton.mp ht
      exact hnew rfl

theorem mergeField (h : Merges cx r fields merged) {f : MapKey × Ty}
    (hf : NamedBelow cx r (cx.descr f.2)) :
    Merges cx r (fields ++ [f]) (mergeField cx merged f) := by
  rw [Types.mergeField]
  split
  · rename_i hsome
    rw [isSome_lookup, h.keys] at hsome
    constructor
    · intro k
      rw [List.map_map, List.map_congr_left (g := Prod.fst), h.keys, List.map_append,
        List.mem_append]
      · refine ⟨.inl, ?_⟩
        rintro (hk | hk)
        · exact hk
        · rw [List.mem_singleton.mp hk]
          exact hsome
      · rintro ⟨k, d⟩ -
        dsimp only [Function.comp]
        split <;> rfl
    · intro m' hm'
      obtain ⟨⟨k, d⟩, hm, rfl⟩ := List.mem_map.mp hm'
      obtain ⟨hlow, hden⟩ := h.spec _ hm
      dsimp only at hlow hden ⊢
      split
      · rename_i hk
        refine ⟨hlow.intersect hf.toSimpleBelow, ?_⟩
        dsimp only
        rw [fieldPoints_concat, Descr.points_intersect, hden]
        ext v
        exact and_congr_right fun _ => ⟨fun hv _ => hv, fun hv => hv hk⟩
      · rename_i hk
        refine ⟨hlow, ?_⟩
        dsimp only
        rw [fieldPoints_concat, hden]
        ext v
        exact ⟨fun hv => ⟨hv, fun heq => absurd heq hk⟩, fun hv => hv.1⟩
  · rename_i hnone
    rw [isSome_lookup, h.keys] at hnone
    constructor
    · intro k
      simp only [List.map_append, List.mem_append, h.keys, List.map_cons, List.map_nil]
    · intro m hm
      rcases List.mem_append.mp hm with hm | hm
      · obtain ⟨hlow, hden⟩ := h.spec m hm
        refine ⟨hlow, ?_⟩
        rw [fieldPoints_concat, hden]
        ext v
        refine ⟨fun hv => ⟨hv, fun heq => absurd ?_ hnone⟩, fun hv => hv.1⟩
        rw [← heq, ← h.keys]
        exact List.mem_map_of_mem hm
      · rw [List.mem_singleton.mp hm]
        refine ⟨hf.toSimpleBelow, ?_⟩
        rw [fieldPoints_concat]
        ext v
        -- the key is new
        refine ⟨fun hv => ⟨fun t ht => absurd (List.mem_map_of_mem ht) hnone, fun _ => hv⟩, ?_⟩
        exact fun hv => hv.2 rfl

theorem foldl_mergeField (fs : List (MapKey × Ty)) :
    ∀ {fields : List (MapKey × Ty)} {merged : List (MapKey × Descr)},
      (∀ f ∈ fs, NamedBelow cx r (cx.descr f.2)) → Merges cx r fields merged →
      Merges cx r (fields ++ fs) (fs.foldl (Types.mergeField cx) merged) := by
  induction fs with
  | nil =>
    intro fields merged _ h
    rw [List.append_nil]
    exact h
  | cons f fs ih =>
    intro fields merged hfs h
    have hnext := ih (fun g hg => hfs g (.tail _ hg)) (h.mergeField (hfs f (.head _)))
    rw [List.append_assoc, List.singleton_append] at hnext
    exact hnext

theorem foldl_sigs (qs : List MapSig) :
    ∀ {fields : List (MapKey × Ty)} {merged : List (MapKey × Descr)},
      (∀ q ∈ qs, ∀ f ∈ q.fields, NamedBelow cx r (cx.descr f.2)) → Merges cx r fields merged →
      Merges cx r (fields ++ qs.flatMap MapSig.fields)
        (qs.foldl (fun m q => q.fields.foldl (Types.mergeField cx) m) merged) := by
  induction qs with
  | nil =>
    intro fields merged _ h
    rw [List.flatMap_nil, List.append_nil]
    exact h
  | cons q qs ih =>
    intro fields merged hqs h
    have hnext := ih (fun q' hq' => hqs q' (.tail _ hq'))
      (foldl_mergeField q.fields (hqs q (.head _)) h)
    rw [List.append_assoc, ← List.flatMap_cons] at hnext
    exact hnext

theorem ofSig {p : MapSig} (hp : ∀ f ∈ p.fields, NamedBelow cx r (cx.descr f.2)) :
    Merges cx r p.fields (p.fields.map fun (k, t) => (k, cx.descr t)) := by
  constructor
  · intro k
    rw [List.map_map]
    rfl
  · intro m hm
    obtain ⟨⟨k, t⟩, hf, rfl⟩ := List.mem_map.mp hm
    refine ⟨(hp _ hf).toSimpleBelow, ?_⟩
    ext v
    refine ⟨fun hv t' ht' => ?_, fun hv => hv t hf⟩
    obtain rfl : t' = t := by
      have := List.inj_on_of_nodup_map p.nodup ht' hf rfl
      exact (Prod.mk.inj this).2
    exact hv

end Merges

instance : Infinite MapTag :=
  Infinite.of_injective (fun n : Nat => MapTag.struct (List.replicate n "")) fun m n h => by
    simpa using congrArg List.length (MapTag.struct.inj h)

theorem maps_empty_iff (hex : ExactBelow cx r empty) {c : Conj MapSig}
    (hpos : ∀ p ∈ c.pos, ∀ f ∈ p.fields, NamedBelow cx r (cx.descr f.2))
    (hneg : ∀ n ∈ c.neg, ∀ f ∈ n.fields, NamedBelow cx r (cx.descr f.2)) :
    mapClauseEmpty cx empty c = true ↔
      ∀ tag fields, ¬c.Holds (MapSig.Has cx.points tag fields) := by
  rcases c with ⟨_ | ⟨p, ps⟩, ns⟩
  · -- a map under a tag no negative factor has
    obtain ⟨tag, htag⟩ := Infinite.exists_notMem_finset (ns.map MapSig.tag).toFinset
    simp only [mapClauseEmpty, Bool.false_eq_true, false_iff, not_forall, not_not]
    refine ⟨tag, fun _ => [], fun _ h => (by cases h), fun n hn h => htag ?_⟩
    rw [List.mem_toFinset, ← h.1]
    exact List.mem_map_of_mem hn
  · have hmerges := Merges.foldl_sigs ps (fun q hq => hpos q (.tail _ hq))
      (Merges.ofSig (hpos p (.head _)))
    rw [no_map_iff, mapClauseEmpty]
    rw [← List.flatMap_cons] at hmerges
    dsimp only
    generalize ps.foldl (fun m q => q.fields.foldl (mergeField cx) m)
      (p.fields.map fun (k, t) => (k, cx.descr t)) = merged at hmerges ⊢
    generalize (p :: ps).flatMap MapSig.fields = all at hmerges ⊢
    have hkeys : ∀ key, (merged.lookup key).isSome ↔ key ∈ all.map Prod.fst :=
      fun key => Merges.isSome_lookup.trans (hmerges.keys key)
    have hany : (merged.any fun m => empty m.2) = true ↔
        ∃ f ∈ all, fieldPoints cx all f.1 = ∅ := by
      rw [List.any_eq_true]
      constructor
      · rintro ⟨m, hm, he⟩
        obtain ⟨hlow, hden⟩ := hmerges.spec m hm
        obtain ⟨f, hf, hfm⟩ := List.mem_map.mp ((hmerges.keys m.1).mp (List.mem_map_of_mem hm))
        refine ⟨f, hf, ?_⟩
        rw [hfm, ← hden]
        exact (hex _ hlow).mp he
      · rintro ⟨f, hf, he⟩
        obtain ⟨m, hm, hfm⟩ := List.mem_map.mp ((hmerges.keys f.1).mpr (List.mem_map_of_mem hf))
        obtain ⟨hlow, hden⟩ := hmerges.spec m hm
        refine ⟨m, hm, (hex _ hlow).mpr ?_⟩
        rw [hden, hfm]
        exact he
    have htags : (ps.any fun q => q.tag ≠ p.tag) = true ↔ ∃ q ∈ ps, q.tag ≠ p.tag := by
      rw [List.any_eq_true]
      exact exists_congr fun q => and_congr_right fun _ => decide_eq_true_iff
    rw [← htags, Bool.if_true_left, Bool.if_true_left, Bool.or_eq_true,
      Bool.or_eq_true, decide_eq_true_eq, decide_eq_true_eq, List.any_eq_true (l := ns)]
    refine or_congr Iff.rfl (or_congr hany ?_)
    refine exists_congr fun n => and_congr_right fun hn => ?_
    rw [Bool.and_eq_true, Bool.and_eq_true, decide_eq_true_eq, List.all_eq_true,
      List.all_eq_true, and_assoc, ← forall₂_and]
    refine and_congr_right fun _ => forall₂_congr fun f hf => ?_
    rw [← hkeys f.1]
    refine and_congr_right fun hsome => ?_
    obtain ⟨d, hd⟩ := Option.isSome_iff_exists.mp hsome
    obtain ⟨hlow, hden⟩ := hmerges.spec _ (Merges.mem_of_lookup hd)
    rw [hd]
    dsimp only at hden ⊢
    rw [hex.diff_iff hlow (hneg n hn f hf).toSimpleBelow, hden]
    rfl

end Axes

end Fz.Types
