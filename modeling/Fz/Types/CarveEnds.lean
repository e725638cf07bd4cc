import Mathlib.Algebra.BigOperators.Group.Finset.Basic
import Mathlib.Algebra.Order.BigOperators.Group.Finset
import Fz.Types.CarveSound
import Fz.Types.UnionSpelling

/-!
# Carving ends

Fusion takes a rectangle away.  A widening only changes how coordinates are spelled in the end: the
union of a column stays what it is, up to repeated clauses, while its members become that union one
after another.  A member goes at most twice, the first time only from a bottom to the one
descriptor of the column that is not one.  Neither step depends on whether a rectangle stays inside
the axis, so carving ends whatever that question is answered.
-/

namespace Fz.Types

open Fz.Base

/-! ## Columns -/

/-- How far a coordinate is from the last spelling of its column. -/
def respellings (last d : Descr) : Nat :=
  if d = last then 0 else if d.looksEmpty then 2 else 1

theorem respellings_le (last d : Descr) : respellings last d ≤ 2 := by
  rw [respellings]
  split
  · decide
  · split <;> decide

theorem respellings_unionOf_lt {ds : List Descr} {d : Descr} (hd : d ∈ ds) (hne : unionOf ds ≠ d) :
    respellings (Spelled.of (unionOf ds)).descr (unionOf ds) <
      respellings (Spelled.of (unionOf ds)).descr d := by
  show respellings ((unionOf ds).union (unionOf ds)) _ <
    respellings ((unionOf ds).union (unionOf ds)) _
  rcases unionOf_cases ds with hlast | ⟨hinhabited, honly⟩
  · rw [hlast, respellings, if_pos rfl, respellings, if_neg (Ne.symm hne)]
    split <;> decide
  · have hd : d.looksEmpty = true := by
      cases hd' : d.looksEmpty with
      | true => rfl
      | false => exact absurd (honly d hd hd').symm hne
    have hlast : d ≠ (unionOf ds).union (unionOf ds) := by
      intro heq
      rw [heq, Descr.looksEmpty_union_eq, hinhabited] at hd
      exact nomatch hd
    rw [respellings, respellings, if_neg hlast, hd, hinhabited]
    split <;> decide

/-- A coordinate of the rectangles of one arity. -/
def column (mats : List (List Descr)) (arity coord : Nat) : List Descr :=
  (mats.filter fun other => other.length = arity).map fun other => other.getD coord .none

/-- The last spelling of a column. -/
def lastSpelling (mats : List (List Descr)) (arity coord : Nat) : Descr :=
  (Spelled.of (unionOf (column mats arity coord))).descr

theorem columnUnion_eq (mats : List (List Descr)) (arity coord : Nat) :
    columnUnion (mats.filter fun other => other.length = arity) coord =
      unionOf (column mats arity coord) := by
  rw [unionOf, column, List.foldl_map]
  rfl

theorem column_append (before after : List (List Descr)) (arity coord : Nat) :
    column (before ++ after) arity coord =
      column before arity coord ++ column after arity coord := by
  rw [column, List.filter_append, List.map_append]
  rfl

theorem column_cons_of_length {row : List Descr} {arity : Nat} (h : row.length = arity)
    (rows : List (List Descr)) (coord : Nat) :
    column (row :: rows) arity coord = row.getD coord .none :: column rows arity coord := by
  rw [column, List.filter_cons_of_pos (by simpa using h), List.map_cons]
  rfl

theorem column_cons_of_length_ne {row : List Descr} {arity : Nat} (h : row.length ≠ arity)
    (rows : List (List Descr)) (coord : Nat) :
    column (row :: rows) arity coord = column rows arity coord := by
  rw [column, List.filter_cons_of_neg (by simpa using h)]
  rfl

/-! ## One widening -/

section Widened

variable {before after : List (List Descr)} {row : List Descr} {coord : Nat} {grown : Descr}

theorem lastSpelling_widened (hcoord : coord < row.length)
    (hgrown : grown = unionOf (column (before ++ row :: after) row.length coord)) :
    lastSpelling (before ++ row.set coord grown :: after) =
      lastSpelling (before ++ row :: after) := by
  funext arity k
  simp only [lastSpelling, column_append]
  by_cases harity : row.length = arity
  · have hset : (row.set coord grown).length = arity := by rw [List.length_set, harity]
    rw [column_cons_of_length harity, column_cons_of_length hset]
    rcases eq_or_ne k coord with rfl | hne
    · rw [column_append, column_cons_of_length rfl, harity] at hgrown
      have hget : (row.set k grown).getD k .none = grown := by
        rw [List.getD_eq_getElem _ _ (by rwa [List.length_set]), List.getElem_set_self]
      rw [hget, hgrown, of_unionOf_replace]
    · rw [List.getD_eq_getElem?_getD, List.getElem?_set_ne hne.symm, ← List.getD_eq_getElem?_getD]
  · have hset : (row.set coord grown).length ≠ arity := by rwa [List.length_set]
    rw [column_cons_of_length_ne harity, column_cons_of_length_ne hset]

/-- How far the coordinates of a rectangle are from the last spellings of their columns. -/
def rowRespellings (last : Nat → Nat → Descr) (row : List Descr) : Nat :=
  ∑ k ∈ Finset.range row.length, respellings (last row.length k) (row.getD k .none)

def allRespellings (mats : List (List Descr)) : Nat :=
  (mats.map (rowRespellings (lastSpelling mats))).sum

theorem rowRespellings_widened_lt (hcoord : coord < row.length)
    (hgrown : grown = unionOf (column (before ++ row :: after) row.length coord))
    (hne : grown ≠ row.getD coord .none) :
    rowRespellings (lastSpelling (before ++ row :: after)) (row.set coord grown) <
      rowRespellings (lastSpelling (before ++ row :: after)) row := by
  rw [rowRespellings, rowRespellings, List.length_set]
  have hlt : respellings (lastSpelling (before ++ row :: after) row.length coord)
      ((row.set coord grown).getD coord .none) <
        respellings (lastSpelling (before ++ row :: after) row.length coord)
          (row.getD coord .none) := by
    rw [List.getD_eq_getElem _ _ (by rwa [List.length_set]), List.getElem_set_self, hgrown,
      lastSpelling]
    refine respellings_unionOf_lt ?_ (hgrown ▸ hne)
    rw [column_append, column_cons_of_length rfl]
    exact List.mem_append_right _ List.mem_cons_self
  refine Finset.sum_lt_sum (fun k _ => ?_) ⟨coord, Finset.mem_range.mpr hcoord, hlt⟩
  rcases eq_or_ne k coord with rfl | hk
  · exact hlt.le
  · rw [List.getD_eq_getElem?_getD, List.getElem?_set_ne hk.symm, ← List.getD_eq_getElem?_getD]

theorem allRespellings_widened_lt (hcoord : coord < row.length)
    (hgrown : grown = unionOf (column (before ++ row :: after) row.length coord))
    (hne : grown ≠ row.getD coord .none) : allRespellings (before ++ row.set coord grown :: after) <
      allRespellings (before ++ row :: after) := by
  have hlt := rowRespellings_widened_lt hcoord hgrown hne
  rw [allRespellings, allRespellings, lastSpelling_widened hcoord hgrown]
  simp only [List.map_append, List.map_cons, List.sum_append, List.sum_cons]
  omega

end Widened

theorem rowRespellings_le (last : Nat → Nat → Descr) (row : List Descr) :
    rowRespellings last row ≤ 2 * row.length := by
  rw [rowRespellings]
  refine (Finset.sum_le_card_nsmul _ _ 2 fun k _ => respellings_le _ _).trans_eq ?_
  rw [Finset.card_range]
  exact Nat.mul_comm ..

theorem allRespellings_le (mats : List (List Descr)) :
    allRespellings mats ≤ 2 * (mats.map List.length).sum := by
  rw [allRespellings]
  generalize lastSpelling mats = last
  induction mats with
  | nil => exact Nat.le_refl _
  | cons row mats ih =>
    have := rowRespellings_le last row
    simp only [List.map_cons, List.sum_cons] at ih ⊢
    omega

/-! ## Widening -/

variable {cx : TyCtx} {rects : List Rect}

theorem WidensTo.allRespellings_lt {index coord : Nat} {grown : Descr} {rect : Rect}
    (h : WidensTo cx rects index coord grown rect) :
    allRespellings (descrs cx (grow rects index coord grown)) <
      allRespellings (descrs cx rects) := by
  obtain ⟨hindex, hat⟩ := List.getElem?_eq_some_iff.mp h.at_index
  obtain ⟨before, r, after, hrects, hlength, hmodify⟩ :=
    List.exists_of_modify (fun rect => rect.set coord (.built grown)) hindex
  obtain rfl : r = rect := by
    rw [← hat]
    simp [hrects, ← hlength]
  have hmats : descrs cx rects =
      descrs cx before ++ r.map (Coord.descr cx) :: descrs cx after := by
    rw [hrects, descrs, List.map_append, List.map_cons]
    rfl
  have hgrown : descrs cx (grow rects index coord grown) =
      descrs cx before ++ (r.map (Coord.descr cx)).set coord grown :: descrs cx after := by
    rw [grow, hmodify, descrs, List.map_append, List.map_cons, List.map_set]
    rfl
  have hunion := h.grown_eq
  rw [columnUnion_eq, hmats, ← List.length_map (Coord.descr cx)] at hunion
  rw [hmats, hgrown]
  exact allRespellings_widened_lt (by rw [List.length_map]; exact h.coord_lt) hunion h.grown_ne

theorem map_length_grow (rects : List Rect) (index coord : Nat) (grown : Descr) :
    (grow rects index coord grown).map List.length = rects.map List.length := by
  refine List.ext_getElem? fun i => ?_
  rw [grow, List.getElem?_map, List.getElem?_map, List.getElem?_modify]
  cases rects[i]? with
  | none => rfl
  | some rect =>
    rcases eq_or_ne index i with heq | hne
    · simp [heq]
    · simp [hne]

theorem nextWidening_widen (n : Nat) : ∀ rects : List Rect, allRespellings (descrs cx rects) ≤ n →
      nextWidening cx (widenToAxisUnion cx n rects).2 = none := by
  induction n with
  | zero =>
    intro rects hn
    rw [widenToAxisUnion]
    cases hnext : nextWidening cx rects with
    | none => rfl
    | some widening =>
      obtain ⟨rect, hw⟩ := nextWidening_spec hnext
      exact absurd hw.allRespellings_lt (by omega)
  | succ n ih =>
    intro rects hn
    rw [widenToAxisUnion]
    split
    · rename_i hnone
      exact hnone
    · rename_i index coord grown hnext
      obtain ⟨rect, hw⟩ := nextWidening_spec hnext
      have := hw.allRespellings_lt
      exact ih (grow rects index coord grown) (by omega)

theorem widen_of_nextWidening_none (hnext : nextWidening cx rects = none) (n : Nat) :
    widenToAxisUnion cx n rects = (false, rects) := by
  cases n with
  | zero => rfl
  | succ n => rw [widenToAxisUnion, hnext]

theorem widen_of_not_grown {n : Nat} (h : (widenToAxisUnion cx n rects).1 = false) :
    (widenToAxisUnion cx n rects).2 = rects := by
  cases n with
  | zero => rfl
  | succ n =>
    rw [widenToAxisUnion] at h ⊢
    split
    · rfl
    · rename_i hnext
      rw [hnext] at h
      cases h

theorem widen_eq (n : Nat) : ∀ (m : Nat) (rects : List Rect),
    allRespellings (descrs cx rects) ≤ n → allRespellings (descrs cx rects) ≤ m →
      widenToAxisUnion cx m rects = widenToAxisUnion cx n rects := by
  induction n with
  | zero =>
    intro m rects hn _
    exact widen_of_nextWidening_none (nextWidening_widen 0 rects hn) m
  | succ n ih =>
    intro m rects hn hm
    cases hnext : nextWidening cx rects with
    | none => rw [widen_of_nextWidening_none hnext, widen_of_nextWidening_none hnext]
    | some widening =>
      obtain ⟨index, coord, grown⟩ := widening
      obtain ⟨rect, hw⟩ := nextWidening_spec hnext
      have := hw.allRespellings_lt
      obtain ⟨m, rfl⟩ : ∃ k, m = k + 1 := ⟨m - 1, by omega⟩
      have hrest := ih m (grow rects index coord grown) (by omega) (by omega)
      rw [grow] at hrest
      simp only [widenToAxisUnion, hnext, hrest]

theorem map_length_widen (n : Nat) : ∀ rects : List Rect,
    (widenToAxisUnion cx n rects).2.map List.length = rects.map List.length := by
  induction n with
  | zero => exact fun _ => rfl
  | succ n ih =>
    intro rects
    rw [widenToAxisUnion]
    split
    · rfl
    · rename_i index coord grown hnext
      exact (ih _).trans (map_length_grow rects index coord grown)

/-! ## Fusion -/

theorem FusiblePair.In.cells_fused {p : FusiblePair} (h : p.In cx rects) :
    ((p.fused cx).map List.length).sum ≤ (rects.map List.length).sum := by
  rw [h.split, fused]
  simp only [List.map_append, List.map_cons, List.sum_append, List.sum_cons, List.length_set]
  omega

variable (cx) in
theorem fuse_spec (n : Nat) : ∀ rects : List Rect,
    (fuseOneCoordinateUnions cx n rects).1.length + (fuseOneCoordinateUnions cx n rects).2.length =
      rects.length ∧
    ((fuseOneCoordinateUnions cx n rects).1.map List.length).sum ≤ (rects.map List.length).sum ∧
    ((fuseOneCoordinateUnions cx n rects).2 = [] →
      (fuseOneCoordinateUnions cx n rects).1 = rects) := by
  induction n with
  | zero => exact fun rects => ⟨rfl, Nat.le_refl _, fun _ => rfl⟩
  | succ n ih =>
    intro rects
    rw [fuseOneCoordinateUnions]
    split
    · exact ⟨rfl, Nat.le_refl _, fun _ => rfl⟩
    · rename_i p hp
      have hspec := nextFusiblePair_spec hp
      obtain ⟨hlength, hcells, -⟩ := ih (p.fused cx)
      have hone := hspec.length_fused
      refine ⟨?_, hcells.trans hspec.cells_fused, fun h => by cases h⟩
      simp only [List.length_cons]
      omega

/-! ## Carving -/

/-- Neither step applies. -/
def Carved (cx : TyCtx) (rects : List Rect) : Prop :=
  nextFusiblePair cx rects = none ∧ nextWidening cx rects = none

/-- Rounds enough to carve: two for each rectangle, one for what is widened first, and one to see
that nothing is left. -/
def Enough (cx : TyCtx) (n : Nat) (rects : List Rect) : Prop :=
  2 * rects.length + 1 ≤ n ∧ (nextWidening cx rects = none ∨ 2 * rects.length + 2 ≤ n)

/-- The rectangles after one round. -/
def carvedOnce (cx : TyCtx) (rounds : Nat) (rects : List Rect) : Bool × List Rect :=
  widenToAxisUnion cx rounds (fuseOneCoordinateUnions cx rects.length rects).1

theorem map_length_descrs (rects : List Rect) :
    (descrs cx rects).map List.length = rects.map List.length := by
  rw [descrs, List.map_map]
  exact List.map_congr_left fun rect _ => List.length_map _

theorem allRespellings_fuse_le {rounds : Nat} (hrounds : 2 * (rects.map List.length).sum ≤ rounds) :
    allRespellings (descrs cx (fuseOneCoordinateUnions cx rects.length rects).1) ≤ rounds := by
  obtain ⟨-, hcells, -⟩ := fuse_spec cx rects.length rects
  have hle := allRespellings_le (descrs cx (fuseOneCoordinateUnions cx rects.length rects).1)
  rw [map_length_descrs] at hle
  omega

theorem Enough.next {rounds n : Nat} (h : Enough cx (n + 1) rects)
    (hrounds : 2 * (rects.map List.length).sum ≤ rounds)
    (hgo : ¬((fuseOneCoordinateUnions cx rects.length rects).2.isEmpty &&
      !(carvedOnce cx rounds rects).1) = true) : Enough cx n (carvedOnce cx rounds rects).2 := by
  obtain ⟨hlength, -, hnil⟩ := fuse_spec cx rects.length rects
  have hwidened : (carvedOnce cx rounds rects).2.length =
      (fuseOneCoordinateUnions cx rects.length rects).1.length := by
    rw [← List.length_map List.length, carvedOnce, map_length_widen, List.length_map]
  refine ⟨?_, .inl (nextWidening_widen rounds _ (allRespellings_fuse_le hrounds))⟩
  rw [hwidened]
  obtain ⟨hn, hfirst⟩ := h
  cases hjoins : (fuseOneCoordinateUnions cx rects.length rects).2 with
  | cons join joins =>
    rw [hjoins, List.length_cons] at hlength
    omega
  | nil =>
    rw [hjoins, List.length_nil, Nat.add_zero] at hlength
    rcases hfirst with hnone | hmore
    · refine absurd ?_ hgo
      rw [hjoins, carvedOnce, hnil hjoins, widen_of_nextWidening_none hnone]
      rfl
    · omega

theorem carveRects_succ (rounds n : Nat) (rects : List Rect) :
    (carveRects cx rounds (n + 1) rects).1 =
      if (fuseOneCoordinateUnions cx rects.length rects).2.isEmpty &&
        !(carvedOnce cx rounds rects).1 then (carvedOnce cx rounds rects).2
      else (carveRects cx rounds n (carvedOnce cx rounds rects).2).1 := by
  rw [carveRects]
  dsimp only
  split
  · rename_i hdone
    exact (if_pos hdone).symm
  · rename_i hgo
    exact (if_neg hgo).symm

variable (cx) in
theorem cells_carvedOnce_le (rounds : Nat) (rects : List Rect) :
    ((carvedOnce cx rounds rects).2.map List.length).sum ≤ (rects.map List.length).sum := by
  rw [carvedOnce, map_length_widen]
  exact (fuse_spec cx rects.length rects).2.1

theorem carved_carveRects {rounds : Nat} (n : Nat) : ∀ rects : List Rect,
    2 * (rects.map List.length).sum ≤ rounds → Enough cx n rects →
      Carved cx (carveRects cx rounds n rects).1 := by
  induction n with
  | zero => exact fun rects _ h => absurd h.1 (by omega)
  | succ n ih =>
    intro rects hrounds h
    rw [carveRects_succ]
    split
    · rename_i hdone
      rw [Bool.and_eq_true, Bool.not_eq_true'] at hdone
      refine ⟨?_, nextWidening_widen rounds _ (allRespellings_fuse_le hrounds)⟩
      rw [carvedOnce, widen_of_not_grown hdone.2]
      exact nextFusiblePair_fuse rects.length rects (Nat.le_refl _)
    · rename_i hgo
      have := cells_carvedOnce_le cx rounds rects
      exact ih _ (by omega) (h.next hrounds hgo)

theorem carveRects_eq {rounds rounds' : Nat} (n : Nat) : ∀ (n' : Nat) (rects : List Rect),
    2 * (rects.map List.length).sum ≤ rounds → 2 * (rects.map List.length).sum ≤ rounds' →
      Enough cx n rects → Enough cx n' rects →
        (carveRects cx rounds' n' rects).1 = (carveRects cx rounds n rects).1 := by
  induction n with
  | zero => exact fun _ rects _ _ h => absurd h.1 (by omega)
  | succ n ih =>
    intro n' rects hrounds hrounds' h h'
    obtain ⟨n', rfl⟩ : ∃ k, n' = k + 1 := ⟨n' - 1, by have := h'.1; omega⟩
    have hsame : carvedOnce cx rounds' rects = carvedOnce cx rounds rects :=
      widen_eq _ _ _ (allRespellings_fuse_le hrounds) (allRespellings_fuse_le hrounds')
    rw [carveRects_succ, carveRects_succ, hsame]
    split
    · rfl
    · rename_i hgo
      have := cells_carvedOnce_le cx rounds rects
      refine ih n' _ (by omega) (by omega) (h.next hrounds hgo) ?_
      rw [← hsame] at hgo ⊢
      exact h'.next hrounds' hgo

/-! ## Single rectangles -/

theorem wideningAt_single {row : List Descr} {coord : Nat} (hcoord : coord < row.length) :
    wideningAt cx [row] row coord = none ↔
      ((row.getD coord .none).looksEmpty = true → row.getD coord .none = .none) := by
  have hsiblings : [row].filter (fun other => decide (other.length = row.length)) = [row] := by simp
  have hunion : columnUnion [row] coord = Descr.none.union (row.getD coord .none) := rfl
  rw [wideningAt, hsiblings, hunion]
  cases hlooks : (row.getD coord .none).looksEmpty with
  | false =>
    rw [Descr.none_union_of_inhabited hlooks, if_pos rfl]
    exact iff_of_true rfl (by rintro ⟨⟩)
  | true =>
    rw [Descr.none_union_of_looksEmpty hlooks]
    split
    · rename_i heq
      exact iff_of_true rfl fun _ => heq.symm
    · rename_i hne
      have hempty : (row.set coord Descr.none).any (Descr.isEmpty cx) = true := by
        refine List.any_eq_true.mpr ⟨Descr.none, List.mem_set hcoord _, rfl⟩
      rw [if_pos (by rw [phiTuple, if_pos hempty])]
      exact iff_of_false (Option.some_ne_none _) fun h => hne (h rfl).symm

theorem nextWidening_single (rect : Rect) : nextWidening cx [rect] = none ↔
      ∀ c ∈ rect, (c.descr cx).looksEmpty = true → c.descr cx = .none := by
  have hget : ∀ coord, coord < rect.length → (rect.map (Coord.descr cx)).getD coord .none =
      (rect.getD coord (.built .none)).descr cx := by
    intro coord hcoord
    rw [List.getD_eq_getElem _ _ (by rwa [List.length_map]), List.getElem_map,
      List.getD_eq_getElem _ _ hcoord]
  have hrow : nextWidening cx [rect] = none ↔ ∀ coord, coord < rect.length →
      wideningAt cx [rect.map (Coord.descr cx)] (rect.map (Coord.descr cx)) coord = none := by
    simp [nextWidening]
  rw [hrow]
  constructor
  · intro h c hc
    obtain ⟨coord, hcoord, rfl⟩ := List.mem_iff_getElem.mp hc
    have hthis := (wideningAt_single (by rwa [List.length_map])).mp (h coord hcoord)
    rwa [hget coord hcoord, List.getD_eq_getElem _ _ hcoord] at hthis
  · intro h coord hcoord
    refine (wideningAt_single (by rwa [List.length_map])).mpr ?_
    rw [hget coord hcoord]
    exact h _ (getD_mem hcoord _)

/-! ## The whole walk -/

/-- There is one result, whatever number of rounds from some number on, and neither step applies to
it. -/
theorem carving_ends (cx : TyCtx) (rects : List Rect) :
    ∃ last enough, (∀ rounds, enough ≤ rounds → (fuseTupleRects cx rounds rects).1 = last) ∧
      nextFusiblePair cx last = none ∧ (nextWidening cx last = none ↔ ∀ rect, rects = [rect] →
          ∀ c ∈ rect, (c.descr cx).looksEmpty = true → c.descr cx = .none) := by
  by_cases hshort : rects.length < 2
  · refine ⟨rects, 0, fun rounds _ => by rw [fuseTupleRects, if_pos hshort], ?_⟩
    cases rects with
    | nil => exact ⟨rfl, by simp [nextWidening]⟩
    | cons rect rest =>
      obtain rfl : rest = [] := List.eq_nil_of_length_eq_zero (by
        rw [List.length_cons] at hshort
        omega)
      refine ⟨rfl, (nextWidening_single rect).trans ⟨?_, fun h => h rect rfl⟩⟩
      rintro h r hr
      rw [← List.singleton_inj.mp hr]
      exact h
  · have henough : ∀ rounds, 2 * (rects.map List.length).sum + 2 * rects.length + 2 ≤ rounds →
        2 * (rects.map List.length).sum ≤ rounds ∧ Enough cx rounds rects := fun rounds h =>
      ⟨by omega, by omega, .inr (by omega)⟩
    obtain ⟨hrounds, hn⟩ := henough _ (Nat.le_refl _)
    obtain ⟨hfused, hwidened⟩ := carved_carveRects _ rects hrounds hn
    refine ⟨_, 2 * (rects.map List.length).sum + 2 * rects.length + 2, fun rounds h => ?_, hfused,
      iff_of_true hwidened fun rect hrect => ?_⟩
    · obtain ⟨hrounds', hn'⟩ := henough rounds h
      rw [fuseTupleRects, if_neg hshort]
      exact carveRects_eq _ _ rects hrounds hrounds' hn hn'
    · rw [hrect] at hshort
      exact absurd (Nat.one_lt_two) hshort

/-- Two brands over the integers, met: a bottom that is not spelled `none`. -/
def brandClash : Descr :=
  let meters : Descr := { Descr.none with basic := ⟨false, true, false⟩, brands := .lit "Meters" }
  meters.intersect { meters with brands := .lit "Feet" }

/-- A rectangle alone is returned as it is, also where it could be widened. -/
theorem carving_skips_single : ¬ ∃ (rounds : Nat) (cx : TyCtx),
    nextWidening cx (fuseTupleRects cx rounds [[.built brandClash]]).1 = none := by
  rintro ⟨rounds, cx, hnone⟩
  have hsame : (fuseTupleRects cx rounds [[.built brandClash]]).1 = [[.built brandClash]] := rfl
  rw [hsame, nextWidening_single] at hnone
  have hlooks : brandClash.looksEmpty = true := by decide
  have hne : brandClash ≠ .none := by decide
  exact hne (hnone _ List.mem_cons_self hlooks)

end Fz.Types
