import Fz.Types.Denotation
import Fz.Types.Reading

/-!
# Emptiness is exact on the fragment

A query answers `true` exactly when its descriptor has no value, for descriptors of scalars, atoms,
tuples and lists with any nesting of clauses; so subtyping is inclusion.

Each axis is exact given that the query it asks its coordinates with is (`Exact`): on the fragment
differences are differences, so its values are a reading the tuple and list axes decide
(`fragmentReading`).

The assumption set plays no part on the fragment.  Every coordinate has a smaller rank than the
descriptor that names it, meets and differences of coordinates have no greater rank, and so a query
never re-enters a descriptor that is in flight.
-/

namespace Fz.Types

open Fz.Base

variable {cx : TyCtx}

/-- A query that is exact below rank `r`. -/
def Exact (cx : TyCtx) (r : Nat) (empty : Descr → Bool) : Prop :=
  ∀ d, Low cx r d → (empty d = true ↔ d.den cx = ∅)

instance : Nonempty Value := ⟨.int 0⟩

/-- The fragment read as its values. -/
def fragmentReading {r : Nat} {empty : Descr → Bool} (hex : Exact cx r empty) :
    Reading empty Value where
  den := Descr.den cx
  Asked := Low cx r
  Named := Low cx r
  asked := id
  asked_intersect := Low.intersect
  asked_diff := Low.diff
  asked_any h := ⟨.any, Nat.zero_lt_of_lt h.rank_lt⟩
  den_intersect := Descr.den_intersect
  den_any := Descr.den_any
  empty_iff h := hex _ h
  empty_diff_iff ha hb := by
    rw [hex _ (ha.diff hb), Descr.den_diff ha.mem.flat.brands hb.mem.flat.brands,
      Set.sdiff_eq_empty]
  mem_diff ha hb hva hvb := by
    rw [Descr.den_diff ha.mem.flat.brands hb.mem.flat.brands]
    exact ⟨hva, hvb⟩
  generic ha hb hv := by
    rw [Descr.den_diff ha.mem.flat.brands hb.mem.flat.brands] at hv
    exact ⟨_, hv.1, hv.2, fun _ _ h => h⟩

/-! ## Descriptors -/

namespace Descr

variable {empty : Descr → Bool} {d : Descr}

theorem tuples_all_iff (hd : InFragment cx d) (hex : Exact cx d.rank empty) :
    d.tuples.all (tupleClauseEmpty cx empty) = true ↔
      ∀ vs, ¬DnfHolds (fun s : TupleSig => EachIn cx vs s.elems) d.tuples := by
  have hlow := ((eachChild_iff hd.flat.rest).mp hd.low).1
  have hclause : ∀ c ∈ d.tuples, (tupleClauseEmpty cx empty c = true ↔
      ∀ vs, ¬c.Holds fun s : TupleSig => EachIn cx vs s.elems) := by
    intro c hc
    rw [(fragmentReading hex).tupleClauseEmpty_iff (hlow c hc).1 (hlow c hc).2]
    simp only [eachIn_iff]
    rfl
  rw [List.all_eq_true]
  constructor
  · rintro h vs ⟨c, hc, hholds⟩
    exact (hclause c hc).mp (h c hc) vs hholds
  · intro h c hc
    rw [hclause c hc]
    exact fun vs hholds => h vs ⟨c, hc, hholds⟩

theorem allIn_iff_elems (hex : Exact cx d.rank empty) {s : ListSig} {v : Value}
    {vs : List Value} : (∃ t, s.elem = some t ∧ AllIn cx (v :: vs) t) ↔
      ∀ w ∈ v :: vs, w ∈ (fragmentReading hex).elems cx s := by
  simp only [allIn_iff]
  cases h : s.elem with
  | none =>
    rw [Reading.elems_none h]
    exact ⟨fun ⟨_, h, _⟩ => (nomatch h), fun h => (h v (.head _)).elim⟩
  | some t =>
    rw [Reading.elems_some h]
    simp only [Option.some.injEq, exists_eq_left']
    rfl

theorem lists_all_iff (hd : InFragment cx d) (hex : Exact cx d.rank empty) :
    d.lists.all (listClauseEmpty cx empty) = true ↔ ∀ vs, ¬InStructure cx (.list vs) d := by
  have hlow := ((eachChild_iff hd.flat.rest).mp hd.low).2
  have hclause : ∀ c ∈ d.lists, (listClauseEmpty cx empty c = true ↔
      (¬c.Holds fun s : ListSig => s.empty = true) ∧
        ∀ v vs, ¬c.Holds fun s : ListSig => ∃ t, s.elem = some t ∧ AllIn cx (v :: vs) t) := by
    intro c hc
    rw [(fragmentReading hex).listClauseEmpty_iff (hlow c hc).1 (hlow c hc).2]
    simp only [allIn_iff_elems hex]
  rw [List.all_eq_true]
  constructor
  · intro h vs hvs
    cases vs with
    | nil =>
      rw [InStructure] at hvs
      obtain ⟨c, hc, hholds⟩ := hvs
      exact ((hclause c hc).mp (h c hc)).1 hholds
    | cons v vs =>
      rw [InStructure] at hvs
      obtain ⟨c, hc, hholds⟩ := hvs
      exact ((hclause c hc).mp (h c hc)).2 v vs hholds
  · intro h c hc
    rw [hclause c hc]
    refine ⟨fun hholds => h [] ?_, fun v vs hholds => h (v :: vs) ?_⟩
    · rw [InStructure]
      exact ⟨c, hc, hholds⟩
    · rw [InStructure]
      exact ⟨c, hc, hholds⟩

/-- One round is exact when the query for the coordinates is. -/
theorem isEmptyStep_iff (hd : InFragment cx d) (hex : Exact cx d.rank empty) :
    d.isEmptyStep cx empty = true ↔ d.den cx = ∅ := by
  rw [Set.eq_empty_iff_forall_notMem]
  simp only [mem_den]
  rcases hd.flat.brands with hb | hb
  · have hbrand : d.brands.isNone = false := by
      rw [hb]
      rfl
    have hcof : d.brands.cofinite = true := by
      rw [hb]
      rfl
    rw [isEmptyStep]
    simp only [hbrand, hcof, Bool.false_or, true_and]
    rcases hd.flat.rest with hr | hr
    · have hopq : ∀ tag, d.opaques.contains tag = false := by simp [hr.opaques]
      have hrest : (d.opaques.isNone && d.vars.isNone) = true := by
        rw [hr.opaques, hr.vars]
        rfl
      rw [hr.resources, hr.funcs, hr.maps]
      simp only [List.all_nil, Bool.and_true, Bool.and_eq_true] at hrest ⊢
      rw [tuples_all_iff hd hex, lists_all_iff hd hex, FiniteSet.isNone_iff]
      constructor
      · rintro ⟨⟨⟨⟨⟨hbasic, hatoms⟩, -⟩, -⟩, htuples⟩, hlists⟩ v
        simp only [BasicBits.isEmpty, Bool.and_eq_true, Bool.not_eq_true'] at hbasic
        cases v with
        | int n => simp [InStructure, hbasic]
        | float x => simp [InStructure, hbasic]
        | binary bs => simp [InStructure, hbasic]
        | atom a => simp [InStructure, hatoms]
        | opaqueOf tag => simp [InStructure, hopq]
        | tuple vs => simpa [InStructure] using htuples vs
        | list vs => exact hlists vs
      · intro h
        refine ⟨⟨⟨⟨⟨?_, fun a => ?_⟩, hrest.1⟩, hrest.2⟩, fun vs => ?_⟩, fun vs => h (.list vs)⟩
        · have hint := h (.int 0)
          have hfloat := h (.float 0)
          have hbinary := h (.binary [])
          simp only [InStructure, Bool.not_eq_true] at hint hfloat hbinary
          simp [BasicBits.isEmpty, hint, hfloat, hbinary]
        · simpa [InStructure] using h (.atom a)
        · simpa [InStructure] using h (.tuple vs)
    · -- every opaque value is there
      have hopq : d.opaques.isNone = false := by
        rw [hr.opaques]
        rfl
      simp only [hopq, Bool.and_false, Bool.false_and, Bool.false_eq_true, false_iff, not_forall,
        not_not]
      exact ⟨.opaqueOf (.builtin .pid), by simp [InStructure, hr.opaques]⟩
  · have hbrand : d.brands.isNone = true := by
      rw [hb]
      rfl
    have hcof : d.brands.cofinite = false := by
      rw [hb]
      rfl
    simp [isEmptyStep, hbrand, hcof]

theorem isEmptyMemo_iff : ∀ (n : Nat) (inFlight : List Descr) (d : Descr), InFragment cx d →
    d.rank < n → (∀ e ∈ inFlight, d.rank < e.rank) →
    (d.isEmptyMemo cx n inFlight = true ↔ d.den cx = ∅) := by
  intro n
  induction n with
  | zero => exact fun _ _ _ h => absurd h (Nat.not_lt_zero _)
  | succ n ih =>
    intro inFlight d hd hn hflight
    have hfresh : d ∉ inFlight := fun hmem => Nat.lt_irrefl _ (hflight d hmem)
    rw [isEmptyMemo, if_neg hfresh]
    apply isEmptyStep_iff hd
    intro e he
    have hrank := he.rank_lt
    refine ih (d :: inFlight) e he.mem (by omega) (List.forall_mem_cons.mpr ⟨hrank, ?_⟩)
    exact fun x hx => hrank.trans (hflight x hx)

/-- The query without the set of descriptors in flight. -/
def isEmptyPlain (cx : TyCtx) : Nat → Descr → Bool
  | 0, _ => false
  | n + 1, d => d.isEmptyStep cx (isEmptyPlain cx n)

theorem isEmptyPlain_iff : ∀ (n : Nat) (d : Descr), InFragment cx d → d.rank < n →
    (d.isEmptyPlain cx n = true ↔ d.den cx = ∅) := by
  intro n
  induction n with
  | zero => exact fun _ _ h => absurd h (Nat.not_lt_zero _)
  | succ n ih =>
    intro d hd hn
    rw [isEmptyPlain]
    apply isEmptyStep_iff hd
    intro e he
    have hrank := he.rank_lt
    exact ih e he.mem (by omega)

theorem isEmpty_iff (hd : InFragment cx d) : d.isEmpty cx = true ↔ d.den cx = ∅ :=
  isEmptyMemo_iff _ [] d hd (by omega) (fun _ h => nomatch h)

theorem isSubtype_iff {a b : Descr} (ha : InFragment cx a) (hb : InFragment cx b) :
    a.isSubtype cx b = true ↔ a.den cx ⊆ b.den cx := by
  rw [isSubtype, isEmpty_iff (ha.diff hb), den_diff ha.flat.brands hb.flat.brands,
    Set.sdiff_eq_empty]

/-- Emptiness and subtyping are exact on the fragment, and the answers do not depend on what is in
flight: a query agrees with the one that keeps no assumptions. -/
theorem isEmpty_exact {a b : Descr} (ha : InFragment cx a) (hb : InFragment cx b) :
    (a.isEmpty cx = true ↔ ∀ v, v ∉ a.den cx) ∧
    (a.isSubtype cx b = true ↔ ∀ v ∈ a.den cx, v ∈ b.den cx) ∧
    (∀ n inFlight, a.rank < n → (∀ e ∈ inFlight, a.rank < e.rank) →
      a.isEmptyMemo cx n inFlight = a.isEmptyPlain cx n) := by
  refine ⟨?_, isSubtype_iff ha hb, fun n inFlight hn hflight => ?_⟩
  · rw [isEmpty_iff ha, Set.eq_empty_iff_forall_notMem]
  · rw [Bool.eq_iff_iff, isEmptyMemo_iff n inFlight a ha hn hflight, isEmptyPlain_iff n a ha hn]

end Descr

section Sample

/-- Integers, floats, and their union. -/
def numbers : TyCtx where
  arena := [{ Descr.unbranded with basic := ⟨false, true, false⟩ },
    { Descr.unbranded with basic := ⟨false, false, true⟩ },
    { Descr.unbranded with basic := ⟨false, true, true⟩ }]
  children_lt := by
    intro t d h s hs
    match t, h with
    | 0, h | 1, h | 2, h =>
      obtain rfl := Option.some.inj h
      exact nomatch hs

def listOf (elem : Ty) : Descr := { Descr.unbranded with lists := [.posOf ⟨true, some elem⟩] }

theorem numbers_inFragment (t : Ty) (h : t < 3) : InFragment numbers (numbers.descr t) := by
  match t, h with
  | 0, _ | 1, _ | 2, _ =>
    exact .intro ⟨.inl rfl, .inl ⟨rfl, rfl, rfl, rfl, rfl⟩⟩ (fun _ h => nomatch h)
      (fun _ h => nomatch h)

theorem tupleOf_inFragment (s t : Ty) (hs : s < 3) (ht : t < 3) :
    InFragment numbers (Descr.tupleOf [s, t]) := by
  have hch : ∀ e ∈ (Descr.tupleOf [s, t]).children, e < 3 := by
    simp [Descr.children, Descr.tupleOf, Descr.unbranded, Descr.none, Conj.posOf, hs, ht]
  exact .intro ⟨.inl rfl, .inl ⟨rfl, rfl, rfl, rfl, rfl⟩⟩ hch
    (fun e he => numbers_inFragment e (hch e he))

theorem listOf_inFragment (t : Ty) (ht : t < 3) : InFragment numbers (listOf t) := by
  have hch : ∀ e ∈ (listOf t).children, e < 3 := by
    simp [Descr.children, listOf, Descr.unbranded, Descr.none, Conj.posOf, ht]
  exact .intro ⟨.inl rfl, .inl ⟨rfl, rfl, rfl, rfl, rfl⟩⟩ hch
    (fun e he => numbers_inFragment e (hch e he))

/-- Pairs of numbers split on their first part.  Lists of numbers do not: a list of an integer and
a float is neither a list of integers nor one of floats. -/
theorem isEmpty_exact_numbers : (∀ v ∈ (Descr.tupleOf [2, 2]).den numbers,
      v ∈ ((Descr.tupleOf [0, 2]).union (Descr.tupleOf [1, 2])).den numbers) ∧
    ¬(∀ v ∈ (listOf 2).den numbers, v ∈ ((listOf 0).union (listOf 1)).den numbers) ∧
    ¬(∀ v, v ∉ (listOf 2).den numbers) := by
  refine ⟨?_, ?_, ?_⟩
  · rw [← (Descr.isEmpty_exact (tupleOf_inFragment 2 2 (by decide) (by decide))
      ((tupleOf_inFragment 0 2 (by decide) (by decide)).union
        (tupleOf_inFragment 1 2 (by decide) (by decide)))).2.1]
    decide
  · rw [← (Descr.isEmpty_exact (listOf_inFragment 2 (by decide))
      ((listOf_inFragment 0 (by decide)).union (listOf_inFragment 1 (by decide)))).2.1]
    decide
  · rw [← (Descr.isEmpty_exact (listOf_inFragment 2 (by decide))
      (listOf_inFragment 2 (by decide))).1]
    decide

end Sample

end Fz.Types
