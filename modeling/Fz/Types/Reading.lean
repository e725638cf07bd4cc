import Fz.Base.Product
import Fz.Types.Emptiness

/-!
# Readings of descriptors

The tuple axis subtracts products coordinate by coordinate, and the list axis looks for a negative
factor that takes the whole element type.  Both are exact for any way of reading descriptors as sets
that makes the query they ask their coordinates with exact (`Reading`): tuples by `phiTuple_iff`,
lists because a list that collects, for each negative factor, an element outside it is outside all
of them.

A difference need not be exact for this.  It may keep a point it should have lost, as long as the
types that are named in signatures cannot tell that point from one it was right to keep.
-/

namespace Fz.Types

open Fz.Base

/-- Descriptors read as sets, in agreement with a query.  The query is asked about descriptors that
meets and differences build from those of named types. -/
structure Reading (empty : Descr → Bool) (V : Type) where
  den : Descr → Set V
  Asked : Descr → Prop
  Named : Descr → Prop
  asked : ∀ {d}, Named d → Asked d
  asked_intersect : ∀ {a b}, Asked a → Named b → Asked (a.intersect b)
  asked_diff : ∀ {a b}, Asked a → Named b → Asked (a.diff b)
  asked_any : ∀ {d}, Named d → Asked .any
  den_intersect : ∀ a b, den (a.intersect b) = den a ∩ den b
  den_any : den .any = Set.univ
  empty_iff : ∀ {d}, Asked d → (empty d = true ↔ den d = ∅)
  empty_diff_iff : ∀ {a b}, Asked a → Asked b → (empty (a.diff b) = true ↔ den a ⊆ den b)
  mem_diff : ∀ {a b v}, Asked a → Named b → v ∈ den a → v ∉ den b → v ∈ den (a.diff b)
  generic : ∀ {a b v}, Asked a → Named b → v ∈ den (a.diff b) →
    ∃ w, w ∈ den a ∧ w ∉ den b ∧ ∀ c, Named c → w ∈ den c → v ∈ den c

namespace Reading

variable {empty : Descr → Bool} {V : Type} (R : Reading empty V) (cx : TyCtx)

/-- The tuples of a signature. -/
def TupleHolds (vs : List V) (s : TupleSig) : Prop :=
  vs ∈ listProd (s.elems.map fun e => R.den (cx.descr e))

/-- The elements a list signature allows. -/
def elems (s : ListSig) : Set V := {v | ∃ t, s.elem = some t ∧ v ∈ R.den (cx.descr t)}

variable {R cx}

/-! ## Tuples -/

theorem mem_splitCoord {t h : List Descr} (ht : ∀ d ∈ t, R.Asked d) (hh : ∀ d ∈ h, R.Named d)
    (i : Nat) {vs : List V} (hvs : vs ∈ listProd (cutAt (t.map R.den) (h.map R.den) i)) :
    vs ∈ listProd ((splitCoord t h i).map R.den) := by
  induction t generalizing h i vs with
  | nil => cases h <;> cases i <;> exact hvs
  | cons d t ih =>
    cases h with
    | nil => cases i <;> exact hvs
    | cons e h =>
      cases vs with
      | nil => cases i <;> cases hvs
      | cons v vs =>
        cases i with
        | zero =>
          obtain ⟨⟨hd, he⟩, hrest⟩ := cons_mem_listProd.mp hvs
          exact cons_mem_listProd.mpr
            ⟨R.mem_diff (ht d (.head _)) (hh e (.head _)) hd he, hrest⟩
        | succ i =>
          obtain ⟨hde, hrest⟩ := cons_mem_listProd.mp hvs
          refine cons_mem_listProd.mpr ⟨?_, ?_⟩
          · rw [R.den_intersect]
            exact hde
          · exact ih (fun d hd => ht d (.tail _ hd)) (fun e he => hh e (.tail _ he)) i hrest

theorem exists_mem_cutAt {t h : List Descr} (ht : ∀ d ∈ t, R.Asked d) (hh : ∀ d ∈ h, R.Named d)
    (i : Nat) {vs : List V} (hvs : vs ∈ listProd ((splitCoord t h i).map R.den)) :
    ∃ ws, ws ∈ listProd (cutAt (t.map R.den) (h.map R.den) i) ∧
      ∀ n : List Descr, (∀ d ∈ n, R.Named d) → ws ∈ listProd (n.map R.den) →
        vs ∈ listProd (n.map R.den) := by
  induction t generalizing h i vs with
  | nil => cases h <;> cases i <;> exact ⟨vs, hvs, fun _ _ hn => hn⟩
  | cons d t ih =>
    cases h with
    | nil => cases i <;> exact ⟨vs, hvs, fun _ _ hn => hn⟩
    | cons e h =>
      cases vs with
      | nil => cases i <;> cases hvs
      | cons v vs =>
        cases i with
        | zero =>
          obtain ⟨hv, hrest⟩ := cons_mem_listProd.mp hvs
          obtain ⟨w, hwd, hwe, hgen⟩ := R.generic (ht d (.head _)) (hh e (.head _)) hv
          refine ⟨w :: vs, cons_mem_listProd.mpr ⟨⟨hwd, hwe⟩, hrest⟩, fun n hn hmem => ?_⟩
          cases n with
          | nil => cases hmem
          | cons c n =>
            obtain ⟨hc, htail⟩ := cons_mem_listProd.mp hmem
            exact cons_mem_listProd.mpr ⟨hgen c (hn c (.head _)) hc, htail⟩
        | succ i =>
          obtain ⟨hv, hrest⟩ := cons_mem_listProd.mp hvs
          rw [R.den_intersect] at hv
          obtain ⟨ws, hws, hgen⟩ := ih (fun d hd => ht d (.tail _ hd))
            (fun e he => hh e (.tail _ he)) i hrest
          refine ⟨v :: ws, cons_mem_listProd.mpr ⟨hv, hws⟩, fun n hn hmem => ?_⟩
          cases n with
          | nil => cases hmem
          | cons c n =>
            obtain ⟨hc, htail⟩ := cons_mem_listProd.mp hmem
            exact cons_mem_listProd.mpr ⟨hc, hgen n (fun d hd => hn d (.tail _ hd)) htail⟩

theorem asked_splitCoord {t h : List Descr} (ht : ∀ d ∈ t, R.Asked d) (hh : ∀ d ∈ h, R.Named d)
    (i : Nat) : ∀ d ∈ splitCoord t h i, R.Asked d := by
  induction t generalizing h i with
  | nil => cases h <;> cases i <;> exact fun _ hd => nomatch hd
  | cons d t ih =>
    cases h with
    | nil => cases i <;> exact ht
    | cons e h =>
      have htail : ∀ d ∈ t, R.Asked d := fun d hd => ht d (.tail _ hd)
      cases i with
      | zero =>
        exact List.forall_mem_cons.mpr ⟨R.asked_diff (ht d (.head _)) (hh e (.head _)), htail⟩
      | succ i =>
        exact List.forall_mem_cons.mpr ⟨R.asked_intersect (ht d (.head _)) (hh e (.head _)),
          ih htail (fun e he => hh e (.tail _ he)) i⟩

theorem covered_split {t head : List Descr} {rest : List (List Descr)}
    (ht : ∀ d ∈ t, R.Asked d) (hlen : head.length = t.length) (hhead : ∀ d ∈ head, R.Named d)
    (hrest : ∀ n ∈ rest, ∀ d ∈ n, R.Named d) :
    Covered (t.map R.den) ((head :: rest).map (List.map R.den)) ↔ ∀ i < t.length,
      Covered ((splitCoord t head i).map R.den) (rest.map (List.map R.den)) := by
  rw [List.map_cons, covered_cons (by rw [List.length_map, List.length_map, hlen]),
    List.length_map]
  refine forall₂_congr fun i hi => ⟨fun hc vs hvs => ?_, fun hc vs hvs => ?_⟩
  · obtain ⟨ws, hws, hgen⟩ := exists_mem_cutAt ht hhead i hvs
    obtain ⟨n, hn, hmem⟩ := hc ws hws
    obtain ⟨n, hn', rfl⟩ := List.mem_map.mp hn
    exact ⟨_, hn, hgen n (hrest n hn') hmem⟩
  · exact hc vs (mem_splitCoord ht hhead i hvs)

theorem any_empty_iff {t : List Descr} (ht : ∀ d ∈ t, R.Asked d) :
    t.any empty = true ↔ ∃ s ∈ t.map R.den, s = ∅ := by
  simp only [List.any_eq_true, List.mem_map, exists_exists_and_eq_and]
  constructor
  · rintro ⟨d, hd, he⟩
    exact ⟨d, hd, (R.empty_iff (ht d hd)).mp he⟩
  · rintro ⟨d, hd, he⟩
    exact ⟨d, hd, (R.empty_iff (ht d hd)).mpr he⟩

theorem disjoint_coord {t h : List Descr} (ht : ∀ d ∈ t, R.Asked d) (hh : ∀ d ∈ h, R.Named d)
    (hd : (List.zipWith (fun h ti => empty (ti.intersect h)) h t).any id = true) :
    ∃ p ∈ (h.map R.den).zip (t.map R.den), p.2 ∩ p.1 = ∅ := by
  rw [← List.map_uncurry_zip_eq_zipWith, List.any_map, List.any_eq_true] at hd
  obtain ⟨⟨e, d⟩, hmem, he⟩ := hd
  have hasked := R.asked_intersect (ht d (List.of_mem_zip hmem).2) (hh e (List.of_mem_zip hmem).1)
  rw [List.zip_map]
  refine ⟨_, List.mem_map_of_mem hmem, ?_⟩
  rw [Prod.map_apply, ← R.den_intersect]
  exact (R.empty_iff hasked).mp he

theorem phiTuple_iff (n : List (List Descr)) : ∀ t : List Descr, (∀ d ∈ t, R.Asked d) →
    (∀ h ∈ n, h.length = t.length ∧ ∀ d ∈ h, R.Named d) →
    (phiTuple empty t n = true ↔ Covered (t.map R.den) (n.map (List.map R.den))) := by
  induction n with
  | nil =>
    intro t ht _
    rw [phiTuple, any_empty_iff ht]
    constructor
    · rintro ⟨s, hs, he⟩
      exact covered_of_empty hs he
    · intro hc
      by_contra hne
      push Not at hne
      exact not_covered_nil hne hc
  | cons head rest ih =>
    intro t ht hn
    obtain ⟨hlen, hhead⟩ := hn head (.head _)
    have hrest : ∀ h ∈ rest, h.length = t.length ∧ ∀ d ∈ h, R.Named d :=
      fun h hh => hn h (.tail _ hh)
    rw [phiTuple]
    split
    · rename_i hany
      obtain ⟨s, hs, he⟩ := (any_empty_iff ht).mp hany
      simp only [true_iff]
      exact covered_of_empty hs he
    split
    · rename_i hdisj
      rw [ih t ht hrest, List.map_cons, covered_cons_of_disjoint (disjoint_coord ht hhead hdisj)]
    · rw [covered_split ht hlen hhead fun h hh => (hrest h hh).2, List.all_eq_true]
      simp only [List.mem_range]
      refine forall₂_congr fun i _ => ih (splitCoord t head i) (asked_splitCoord ht hhead i) ?_
      intro h hh
      rw [length_splitCoord]
      exact hrest h hh

theorem tuple_meet (ps : List TupleSig) : ∀ t : List Descr, (∀ d ∈ t, R.Asked d) →
    (∀ q ∈ ps, q.elems.length = t.length ∧ ∀ e ∈ q.elems, R.Named (cx.descr e)) → ∃ t', ps.foldl
        (fun t q => List.zipWith (fun d e => d.intersect (cx.descr e)) t q.elems) t = t' ∧
      t'.length = t.length ∧ (∀ d ∈ t', R.Asked d) ∧ ∀ vs, vs ∈ listProd (t'.map R.den) ↔
        vs ∈ listProd (t.map R.den) ∧ ∀ q ∈ ps, R.TupleHolds cx vs q := by
  induction ps with
  | nil =>
    intro t ht _
    exact ⟨t, rfl, rfl, ht, by simp⟩
  | cons q ps ih =>
    intro t ht hps
    obtain ⟨hlen, hnamed⟩ := hps q (.head _)
    let next := List.zipWith (fun d e => d.intersect (cx.descr e)) t q.elems
    have hnlen : next.length = t.length := by simp [next, hlen]
    have hnasked : ∀ d ∈ next, R.Asked d := by
      intro d hd
      simp only [next, ← List.map_uncurry_zip_eq_zipWith, List.mem_map] at hd
      obtain ⟨⟨a, e⟩, hmem, rfl⟩ := hd
      exact R.asked_intersect (ht a (List.of_mem_zip hmem).1) (hnamed e (List.of_mem_zip hmem).2)
    have hnden : next.map R.den = List.zipWith (· ∩ ·) (t.map R.den)
        (q.elems.map fun e => R.den (cx.descr e)) := by
      simp only [next, List.map_zipWith, List.zipWith_map, R.den_intersect]
    obtain ⟨t', hfold, hlen', hasked', hmem'⟩ := ih next hnasked fun q' hq' => by
      rw [hnlen]
      exact hps q' (.tail _ hq')
    refine ⟨t', hfold, hlen'.trans hnlen, hasked', fun vs => ?_⟩
    rw [hmem', hnden, listProd_zipWith_inter (by simp [hlen]), Set.mem_inter_iff,
      List.forall_mem_cons, and_assoc]
    rfl

theorem TupleHolds.length_eq {vs : List V} {s : TupleSig} (h : R.TupleHolds cx vs s) :
    vs.length = s.elems.length := by
  rw [length_of_mem_listProd h, List.length_map]

theorem exists_tuple_of_neg [Nonempty V] (ns : List TupleSig) :
    ∃ vs : List V, ∀ n ∈ ns, ¬R.TupleHolds cx vs n := by
  have hlong : ∃ k, ∀ n ∈ ns, n.elems.length < k := by
    induction ns with
    | nil => exact ⟨0, fun _ h => nomatch h⟩
    | cons n ns ih =>
      obtain ⟨k, hk⟩ := ih
      refine ⟨max k (n.elems.length + 1), List.forall_mem_cons.mpr ⟨?_, fun m hm => ?_⟩⟩
      · exact Nat.lt_of_lt_of_le (Nat.lt_succ_self _) (Nat.le_max_right _ _)
      · exact Nat.lt_of_lt_of_le (hk m hm) (Nat.le_max_left _ _)
  obtain ⟨k, hk⟩ := hlong
  obtain ⟨v⟩ := ‹Nonempty V›
  refine ⟨List.replicate k v, fun n hn h => ?_⟩
  have hlen := h.length_eq
  have hlt := hk n hn
  rw [List.length_replicate] at hlen
  omega

theorem tupleClauseEmpty_iff [Nonempty V] {c : Conj TupleSig}
    (hpos : ∀ p ∈ c.pos, ∀ e ∈ p.elems, R.Named (cx.descr e))
    (hneg : ∀ n ∈ c.neg, ∀ e ∈ n.elems, R.Named (cx.descr e)) :
    tupleClauseEmpty cx empty c = true ↔ ∀ vs, ¬c.Holds (R.TupleHolds cx vs) := by
  rcases c with ⟨_ | ⟨p, ps⟩, ns⟩
  · obtain ⟨vs, hvs⟩ : ∃ vs, ∀ n ∈ ns, ¬R.TupleHolds cx vs n := exists_tuple_of_neg ns
    simp only [tupleClauseEmpty, Bool.false_eq_true, false_iff, not_forall, not_not]
    exact ⟨vs, fun _ h => (nomatch h), hvs⟩
  · rw [tupleClauseEmpty]
    dsimp only
    split
    · rename_i hany
      obtain ⟨q, hq, hne⟩ := List.any_eq_true.mp hany
      simp only [true_iff]
      intro vs hvs
      have hp := (hvs.1 p (.head _)).length_eq
      have hq := (hvs.1 q (.tail _ hq)).length_eq
      simp only [ne_eq, decide_not, Bool.not_eq_eq_eq_not, Bool.not_true,
        decide_eq_false_iff_not] at hne
      exact hne (hq.symm.trans hp)
    · rename_i hany
      have harity : ∀ q ∈ ps, q.elems.length = (p.elems.map cx.descr).length := by
        simpa using hany
      obtain ⟨t, hfold, hlen, hasked, hmem⟩ := tuple_meet (R := R) ps (p.elems.map cx.descr)
        (by simpa using fun e he => R.asked (hpos p (.head _) e he))
        fun q hq => ⟨harity q hq, hpos q (.tail _ hq)⟩
      rw [List.length_map] at hlen
      rw [hfold, phiTuple_iff _ t hasked]
      · have hp : ∀ vs, vs ∈ listProd ((p.elems.map cx.descr).map R.den) ↔
            R.TupleHolds cx vs p := by
          intro vs
          rw [List.map_map]
          rfl
        constructor
        · rintro hc vs ⟨hpos, hneg⟩
          have hvs := (hmem vs).mpr
            ⟨(hp vs).mpr (hpos p (.head _)), fun q hq => hpos q (.tail _ hq)⟩
          obtain ⟨s, hs, hin⟩ := hc vs hvs
          simp only [List.map_map, List.mem_map, List.mem_filter] at hs
          obtain ⟨n, ⟨hn, -⟩, rfl⟩ := hs
          apply hneg n hn
          simpa [TupleHolds, Function.comp_def] using hin
        · intro hno vs hvs
          obtain ⟨hvp, hvps⟩ := (hmem vs).mp hvs
          by_contra hout
          apply hno vs
          refine ⟨List.forall_mem_cons.mpr ⟨(hp vs).mp hvp, hvps⟩, fun n hn hin => hout ?_⟩
          have harity : n.elems.length = p.elems.length :=
            hin.length_eq.symm.trans ((hp vs).mp hvp).length_eq
          refine ⟨n.elems.map fun e => R.den (cx.descr e), ?_, hin⟩
          simp only [List.map_map, List.mem_map, List.mem_filter]
          exact ⟨n, ⟨hn, by simpa using harity⟩, by simp [Function.comp_def]⟩
      · intro h hh
        simp only [List.mem_map, List.mem_filter, decide_eq_true_eq] at hh
        obtain ⟨n, ⟨hn, harity⟩, rfl⟩ := hh
        rw [List.length_map, hlen]
        exact ⟨harity, by simpa using hneg n hn⟩

/-! ## Lists -/

theorem elems_none {s : ListSig} (h : s.elem = none) : R.elems cx s = ∅ := by
  ext v
  simp [elems, h]

theorem elems_some {s : ListSig} {t : Ty} (h : s.elem = some t) :
    R.elems cx s = R.den (cx.descr t) := by
  ext v
  simp [elems, h]

/-- The elements the evidence allows. -/
def allows (R : Reading empty V) : ElemEvidence → Set V
  | .unconstrained => Set.univ
  | .empty => ∅
  | .inhabited d => R.den d

/-- Evidence that a query gathers is inhabited when it says so. -/
def ValidEvidence (R : Reading empty V) : ElemEvidence → Prop
  | .inhabited d => R.Asked d ∧ (R.den d).Nonempty
  | _ => True

theorem meet_spec {e : ElemEvidence} {s : ListSig} (he : R.ValidEvidence e)
    (hs : ∀ t, s.elem = some t → R.Named (cx.descr t)) : R.ValidEvidence (e.meet cx empty s.elem) ∧
      R.allows (e.meet cx empty s.elem) = R.allows e ∩ R.elems cx s := by
  cases h : s.elem with
  | none => exact ⟨trivial, by simp [ElemEvidence.meet, allows, elems_none h]⟩
  | some t =>
    rw [elems_some h]
    have hnamed := hs t h
    -- one step from a descriptor that denotes the meet
    have hstep : ∀ d, R.Asked d → R.den d = R.allows e ∩ R.den (cx.descr t) →
        R.ValidEvidence (if empty d then ElemEvidence.empty else .inhabited d) ∧
          R.allows (if empty d then ElemEvidence.empty else .inhabited d)
            = R.allows e ∩ R.den (cx.descr t) := by
      intro d hd heq
      by_cases hemp : empty d = true
      · rw [if_pos hemp, ← heq, (R.empty_iff hd).mp hemp]
        exact ⟨trivial, rfl⟩
      · rw [if_neg hemp]
        refine ⟨⟨hd, ?_⟩, heq⟩
        rw [Set.nonempty_iff_ne_empty, ne_eq, ← R.empty_iff hd]
        exact hemp
    cases e with
    | unconstrained => exact hstep _ (R.asked hnamed) (by simp [allows])
    | empty => exact ⟨trivial, by simp [ElemEvidence.meet, allows]⟩
    | inhabited prev =>
      exact hstep _ (R.asked_intersect he.1 hnamed) (R.den_intersect _ _)

theorem foldl_meet_spec (ps : List ListSig)
    (hps : ∀ p ∈ ps, ∀ t, p.elem = some t → R.Named (cx.descr t)) :
    ∀ e : ElemEvidence, R.ValidEvidence e →
      R.ValidEvidence (ps.foldl (fun e p => e.meet cx empty p.elem) e) ∧
      ∀ v, v ∈ R.allows (ps.foldl (fun e p => e.meet cx empty p.elem) e) ↔
        v ∈ R.allows e ∧ ∀ p ∈ ps, v ∈ R.elems cx p := by
  induction ps with
  | nil => exact fun e he => ⟨he, by simp⟩
  | cons p ps ih =>
    intro e he
    obtain ⟨hvalid, hden⟩ := meet_spec he (hps p (.head _))
    obtain ⟨hvalid', hden'⟩ := ih (fun q hq => hps q (.tail _ hq)) _ hvalid
    refine ⟨hvalid', fun v => ?_⟩
    rw [List.foldl_cons, hden' v, hden, List.forall_mem_cons, Set.mem_inter_iff, and_assoc]

theorem fragment_none {e : ElemEvidence} (h : e.fragment = none) : R.allows e = ∅ := by
  cases e with
  | empty => rfl
  | unconstrained => cases h
  | inhabited d => cases h

theorem fragment_some [Nonempty V] {e : ElemEvidence} {d : Descr} (he : R.ValidEvidence e)
    (h : e.fragment = some d) :
    R.allows e = R.den d ∧ (R.den d).Nonempty ∧ ∀ b, R.Named b → R.Asked d := by
  cases e with
  | empty => cases h
  | unconstrained =>
    cases h
    rw [R.den_any]
    exact ⟨rfl, Set.univ_nonempty, fun _ => R.asked_any⟩
  | inhabited d' =>
    cases h
    exact ⟨rfl, he.2, fun _ _ => he.1⟩

/-- The negative factors take all lists exactly when one of them takes the whole element type. -/
theorem listCuts_eq_none_iff {elem : Descr} (hne : (R.den elem).Nonempty)
    (helem : ∀ b, R.Named b → R.Asked elem) (ns : List ListSig)
    (hns : ∀ n ∈ ns, ∀ t, n.elem = some t → R.Named (cx.descr t)) : ∀ minus,
    (listCuts cx empty elem ns minus = none ↔ ∃ n ∈ ns, R.den elem ⊆ R.elems cx n) := by
  induction ns with
  | nil => simp [listCuts]
  | cons n ns ih =>
    intro minus
    have hrest := ih fun n hn => hns n (.tail _ hn)
    simp only [List.mem_cons, exists_eq_or_imp]
    rw [listCuts]
    cases h : n.elem with
    | none =>
      have hno : ¬R.den elem ⊆ R.elems cx n := by
        rw [elems_none h, Set.subset_empty_iff]
        exact hne.ne_empty
      simp only [hrest, hno, false_or]
    | some t =>
      have hnamed := hns n (.head _) t h
      have helem := helem _ hnamed
      have hcut := R.asked_intersect helem hnamed
      have hcutden : R.den (elem.intersect (cx.descr t)) = R.den elem ∩ R.den (cx.descr t) :=
        R.den_intersect _ _
      rw [elems_some h]
      dsimp only
      split
      · rename_i hemp
        -- the factor is disjoint from the element type
        rw [R.empty_iff hcut, hcutden] at hemp
        have hno : ¬R.den elem ⊆ R.den (cx.descr t) := by
          intro hsub
          rw [Set.inter_eq_left.mpr hsub] at hemp
          exact hne.ne_empty hemp
        simp only [hrest, hno, false_or]
      · split
        · rename_i hdiff
          rw [R.empty_diff_iff helem hcut, hcutden] at hdiff
          simp only [true_iff]
          exact .inl (hdiff.trans Set.inter_subset_right)
        · rename_i hdiff
          rw [R.empty_diff_iff helem hcut, hcutden] at hdiff
          have hno : ¬R.den elem ⊆ R.den (cx.descr t) :=
            fun hsub => hdiff (Set.subset_inter subset_rfl hsub)
          simp only [hrest, hno, false_or]

/-- A clause has a non-empty list exactly when its positive factors leave an element type that no
negative factor takes whole. -/
theorem exists_list_iff [Nonempty V] {c : Conj ListSig}
    (hpos : ∀ p ∈ c.pos, ∀ t, p.elem = some t → R.Named (cx.descr t))
    (hneg : ∀ n ∈ c.neg, ∀ t, n.elem = some t → R.Named (cx.descr t)) :
    (∃ v vs, c.Holds fun s : ListSig => ∀ w ∈ v :: vs, w ∈ R.elems cx s) ↔
      ∃ elem minus, (c.pos.foldl (fun e p => e.meet cx empty p.elem)
        ElemEvidence.unconstrained).fragment = some elem ∧
        listCuts cx empty elem c.neg [] = some minus := by
  obtain ⟨hvalid, hmem⟩ := foldl_meet_spec (R := R) c.pos hpos .unconstrained trivial
  simp only [Conj.Holds]
  generalize c.pos.foldl (fun e p => e.meet cx empty p.elem) ElemEvidence.unconstrained = ev
    at hvalid hmem ⊢
  constructor
  · rintro ⟨v, vs, hp, hn⟩
    have hin : ∀ w ∈ v :: vs, w ∈ R.allows ev :=
      fun w hw => (hmem w).mpr ⟨trivial, fun p hp' => hp p hp' w hw⟩
    cases hfrag : ev.fragment with
    | none =>
      rw [fragment_none hfrag] at hin
      exact (hin v (.head _)).elim
    | some elem =>
      obtain ⟨hden, hne, helem⟩ := fragment_some hvalid hfrag
      cases hcuts : listCuts cx empty elem c.neg [] with
      | some minus => exact ⟨elem, minus, rfl, hcuts⟩
      | none =>
        obtain ⟨n, hn', hsub⟩ := (listCuts_eq_none_iff hne helem c.neg hneg []).mp hcuts
        refine (hn n hn' fun w hw => hsub ?_).elim
        rw [← hden]
        exact hin w hw
  · rintro ⟨elem, minus, hfrag, hcuts⟩
    obtain ⟨hden, ⟨v, hv⟩, helem⟩ := fragment_some hvalid hfrag
    have hnot : ∀ s ∈ c.neg.map (R.elems cx), ¬R.den elem ⊆ s := by
      intro s hs hsub
      obtain ⟨n, hn, rfl⟩ := List.mem_map.mp hs
      have hnone := (listCuts_eq_none_iff ⟨v, hv⟩ helem c.neg hneg []).mpr ⟨n, hn, hsub⟩
      rw [hnone] at hcuts
      cases hcuts
    obtain ⟨vs, hvs, hout⟩ := exists_list_outside hnot
    refine ⟨v, vs, fun p hp w hw => ((hmem w).mp ?_).2 p hp, fun n hn hall => ?_⟩
    · rw [hden]
      rcases List.mem_cons.mp hw with rfl | hw
      · exact hv
      · exact hvs w hw
    · obtain ⟨w, hw, hnot⟩ := hout _ (List.mem_map_of_mem hn)
      exact hnot (hall w (.tail _ hw))

end Reading

theorem clauseHoldsEmpty_iff {c : Conj ListSig} :
    clauseHoldsEmpty c = true ↔ c.Holds fun s : ListSig => s.empty = true := by
  simp [clauseHoldsEmpty, Conj.Holds]

namespace Reading

variable {empty : Descr → Bool} {V : Type} {R : Reading empty V} {cx : TyCtx}

theorem listClauseEmpty_iff [Nonempty V] {c : Conj ListSig}
    (hpos : ∀ p ∈ c.pos, ∀ t, p.elem = some t → R.Named (cx.descr t))
    (hneg : ∀ n ∈ c.neg, ∀ t, n.elem = some t → R.Named (cx.descr t)) :
    listClauseEmpty cx empty c = true ↔ (¬c.Holds fun s : ListSig => s.empty = true) ∧
      ∀ v vs, ¬c.Holds fun s : ListSig => ∀ w ∈ v :: vs, w ∈ R.elems cx s := by
  have hlist := exists_list_iff (R := R) hpos hneg
  rw [← clauseHoldsEmpty_iff]
  simp only [← not_exists, hlist]
  rw [listClauseEmpty, listDenotation]
  generalize (c.pos.foldl (fun e p => e.meet cx empty p.elem)
    ElemEvidence.unconstrained).fragment = frag
  cases frag with
  | none => cases clauseHoldsEmpty c <;> simp
  | some elem =>
    cases hcuts : listCuts cx empty elem c.neg [] with
    | none => cases clauseHoldsEmpty c <;> simp [hcuts]
    | some minus => simp [hcuts]

end Reading

end Fz.Types
