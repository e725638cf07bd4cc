import Fz.Types.Meaning

/-!
# Emptiness is sound on every axis

A query that answers `true` is about a descriptor without values, brands, resources, functions and
maps included.  Only this direction holds there: differences over-approximate when brand slots
overlap, and the map and function axes do not decide all they are asked.

Each axis is sound given that the query it asks its coordinates with is (`SoundBelow`).  A function
clause is refuted as follows: if a closure has all the positive arrows, then on arguments of the
negative one it uses the arrows that accept them, and the mask of the others is one the loop went
through (`maskCovered_sound`).

A signature with a closure literal stands for the closures of one function, and the arrow it comes
with says what these do.  Function clauses rely on that (`Honest`).

The set of descriptors in flight again plays no part.  Coordinates have a smaller rank; a function
clause asks about its argument tuples at its own rank, but these have no function clauses, so the
weight `2 * rank`, one more with function clauses, decreases along every query.
-/

namespace Fz.Types

open Fz.Base

variable {cx : TyCtx} {calls : Calls}

/-! ## What a query asks about -/

/-- The closures a literal stands for do what the arrow beside it says. -/
def Honest (cx : TyCtx) (calls : Calls) (s : ArrowSig) : Prop :=
  ∀ l, s.lit = some l → ∀ f captures, l.Holds (cx.meaning calls) f captures →
    s.Maps calls (cx.meaning calls) f captures

/-- What callables do, in agreement with every literal of an arena. -/
structure World (cx : TyCtx) where
  calls : Calls
  honest : ∀ t, Each (Honest cx calls) (cx.descr t).funcs

/-- The properties of signatures that bear only on arrows. -/
def SigPred.onArrow (Q : ArrowSig → Prop) : SigPred where
  tuple _ := True
  list _ := True
  resource _ := True
  arrow := Q
  map _ := True

/-- A descriptor of rank below `r`, whose literals are honest. -/
structure Below (cx : TyCtx) (calls : Calls) (r : Nat) (d : Descr) : Prop where
  rank_lt : d.rank < r
  honest : d.EachSig (.onArrow (Honest cx calls))

theorem Below.intersect {r : Nat} {a b : Descr} (ha : Below cx calls r a)
    (hb : Below cx calls r b) : Below cx calls r (a.intersect b) :=
  ⟨(Descr.rank_intersect_le a b).trans_lt (Nat.max_lt.mpr ⟨ha.rank_lt, hb.rank_lt⟩),
    ha.honest.intersect hb.honest⟩

theorem Below.diff {r : Nat} {a b : Descr} (ha : Below cx calls r a)
    (hb : Below cx calls r b) : Below cx calls r (a.diff b) :=
  ⟨(Descr.rank_diff_le a b).trans_lt (Nat.max_lt.mpr ⟨ha.rank_lt, hb.rank_lt⟩),
    ha.honest.diff hb.honest⟩

theorem Below.union {r : Nat} {a b : Descr} (ha : Below cx calls r a)
    (hb : Below cx calls r b) : Below cx calls r (a.union b) :=
  ⟨(Descr.rank_union_le a b).trans_lt (Nat.max_lt.mpr ⟨ha.rank_lt, hb.rank_lt⟩),
    ha.honest.union hb.honest⟩

theorem Below.any {r : Nat} (hr : 0 < r) : Below cx calls r Descr.any := ⟨hr, .any⟩

/-- A query that only calls descriptors below rank `r` empty when they are. -/
def SoundBelow (cx : TyCtx) (calls : Calls) (r : Nat) (empty : Descr → Bool) : Prop :=
  ∀ d, Below cx calls r d → empty d = true → ∀ v, v ∉ d.meaning cx calls

theorem map_meaning_descr (ts : List Ty) :
    (ts.map cx.descr).map (Descr.meaning cx calls) = ts.map (cx.meaning calls) :=
  List.map_map

theorem exists_mem_of_mem_zip {M : Ty → Set Val} {xs ys : List Ty} {vs : List Val}
    (hx : vs ∈ listProd (xs.map M)) (hy : vs ∈ listProd (ys.map M)) {x y : Ty}
    (hxy : (x, y) ∈ xs.zip ys) : ∃ v, v ∈ M x ∧ v ∈ M y := by
  induction xs generalizing ys vs with
  | nil => simp at hxy
  | cons x' xs ih =>
    cases ys with
    | nil => simp at hxy
    | cons y' ys =>
      cases hx with
      | @cons v _ vs _ hv hvs =>
        obtain ⟨hv', hvs'⟩ := cons_mem_listProd.mp hy
        rcases List.mem_cons.mp hxy with h | h
        · obtain ⟨rfl, rfl⟩ := Prod.mk.inj h
          exact ⟨v, hv, hv'⟩
        · exact ih hvs hvs' h

theorem listProd_of_zip {V : Type} {M : Ty → Set V} {xs ys : List Ty}
    (hlen : xs.length = ys.length) {vs : List V} (hx : vs ∈ listProd (xs.map M))
    (h : ∀ x y, (x, y) ∈ xs.zip ys → ∀ v ∈ M x, v ∈ M y) : vs ∈ listProd (ys.map M) := by
  induction xs generalizing ys vs with
  | nil =>
    obtain rfl : ys = [] := List.eq_nil_of_length_eq_zero hlen.symm
    exact hx
  | cons x xs ih =>
    cases ys with
    | nil => simp at hlen
    | cons y ys =>
      cases hx with
      | @cons v _ vs _ hv hvs =>
        exact cons_mem_listProd.mpr ⟨h x y (.head _) v hv,
          ih (Nat.succ.inj hlen) hvs fun x y hxy => h x y (.tail _ hxy)⟩

theorem funcs_diff_of_nil {a b : Descr} (ha : a.funcs = []) : (a.diff b).funcs = [] := by
  rw [Descr.diff]
  split
  · show dnfIntersect a.funcs _ = []
    rw [ha]
    rfl
  split
  · exact ha
  split
  · exact ha
  · exact ha

/-! ## Joins of argument tuples -/

section ArrowInputs

variable {d : Descr} {s : ArrowSig}

theorem slotsAgree_arrowInput (h : d.looksEmpty = true ∨ d.brands = .any) :
    Descr.SlotsAgree d (arrowInput s) := by
  rcases h with h | h
  · exact .inr (.inl h)
  · exact .inl h

theorem funcs_union_arrowInput (h : d.funcs = []) : (d.union (arrowInput s)).funcs = [] := by
  rw [Descr.union]
  split
  · split <;> rfl
  split
  · exact h
  · show dnfUnion d.funcs [] = []
    rw [h]
    rfl

theorem slot_union_arrowInput (h : d.looksEmpty = true ∨ d.brands = .any) :
    (d.union (arrowInput s)).looksEmpty = true ∨ (d.union (arrowInput s)).brands = .any := by
  rw [Descr.union]
  split
  · split
    · exact .inl rfl
    · exact .inr rfl
  · rename_i hd
    split
    · exact h
    · right
      show d.brands.union FiniteSet.any = .any
      rw [h.resolve_left hd]
      rfl

end ArrowInputs

section Axes

variable {r : Nat} {empty : Descr → Bool}

/-! ## Tuples -/

theorem mem_splitCoord {t h : List Descr} (i : Nat) {vs : List Val} (hvs : vs ∈ listProd
      (cutAt (t.map (Descr.meaning cx calls)) (h.map (Descr.meaning cx calls)) i)) :
    vs ∈ listProd ((splitCoord t h i).map (Descr.meaning cx calls)) := by
  induction t generalizing h i vs with
  | nil => cases h <;> cases i <;> exact hvs
  | cons d t ih =>
    cases h with
    | nil => cases i <;> exact hvs
    | cons e h =>
      cases vs with
      | nil => cases i <;> cases hvs
      | cons v vs =>
        cases i with
        | zero =>
          obtain ⟨⟨hd, he⟩, hrest⟩ := cons_mem_listProd.mp hvs
          exact cons_mem_listProd.mpr ⟨Descr.mem_meaning_diff hd he, hrest⟩
        | succ i =>
          obtain ⟨hde, hrest⟩ := cons_mem_listProd.mp hvs
          exact cons_mem_listProd.mpr ⟨Descr.meaning_intersect.mpr hde, ih i hrest⟩

theorem below_splitCoord {t h : List Descr} (ht : ∀ d ∈ t, Below cx calls r d)
    (hh : ∀ d ∈ h, Below cx calls r d) (i : Nat) : ∀ d ∈ splitCoord t h i, Below cx calls r d := by
  induction t generalizing h i with
  | nil => cases h <;> cases i <;> exact fun _ hd => nomatch hd
  | cons d t ih =>
    cases h with
    | nil => cases i <;> exact ht
    | cons e h =>
      have htail : ∀ d ∈ t, Below cx calls r d := fun d hd => ht d (.tail _ hd)
      cases i with
      | zero => exact List.forall_mem_cons.mpr ⟨(ht d (.head _)).diff (hh e (.head _)), htail⟩
      | succ i =>
        exact List.forall_mem_cons.mpr ⟨(ht d (.head _)).intersect (hh e (.head _)),
          ih htail (fun e he => hh e (.tail _ he)) i⟩

variable (hs : SoundBelow cx calls r empty)
include hs

theorem exists_empty_of_any {t : List Descr} (ht : ∀ d ∈ t, Below cx calls r d)
    (h : t.any empty = true) : ∃ s ∈ t.map (Descr.meaning cx calls), s = ∅ := by
  obtain ⟨d, hd, he⟩ := List.any_eq_true.mp h
  exact ⟨_, List.mem_map_of_mem hd, Set.eq_empty_iff_forall_notMem.mpr (hs d (ht d hd) he)⟩

theorem disjoint_of_any {t h : List Descr} (ht : ∀ d ∈ t, Below cx calls r d)
    (hh : ∀ d ∈ h, Below cx calls r d)
    (hd : (List.zipWith (fun h ti => empty (ti.intersect h)) h t).any id = true) :
    ∃ p ∈ (h.map (Descr.meaning cx calls)).zip (t.map (Descr.meaning cx calls)), p.2 ∩ p.1 = ∅ := by
  rw [← List.map_uncurry_zip_eq_zipWith, List.any_map, List.any_eq_true] at hd
  obtain ⟨⟨e, d⟩, hmem, he⟩ := hd
  have hlow := (ht d (List.of_mem_zip hmem).2).intersect (hh e (List.of_mem_zip hmem).1)
  rw [List.zip_map]
  refine ⟨_, List.mem_map_of_mem hmem, ?_⟩
  rw [Set.eq_empty_iff_forall_notMem]
  rintro v ⟨hvd, hve⟩
  exact hs _ hlow he v (Descr.meaning_intersect.mpr ⟨hvd, hve⟩)

theorem phiTuple_sound (n : List (List Descr)) : ∀ t : List Descr, (∀ d ∈ t, Below cx calls r d) →
    (∀ h ∈ n, h.length = t.length ∧ ∀ d ∈ h, Below cx calls r d) → phiTuple empty t n = true →
      Covered (t.map (Descr.meaning cx calls)) (n.map (List.map (Descr.meaning cx calls))) := by
  induction n with
  | nil =>
    intro t ht _ hphi
    rw [phiTuple] at hphi
    obtain ⟨s, hmem, he⟩ := exists_empty_of_any hs ht hphi
    exact covered_of_empty hmem he
  | cons head rest ih =>
    intro t ht hn hphi
    obtain ⟨hlen, hhead⟩ := hn head (.head _)
    have hrest : ∀ h ∈ rest, h.length = t.length ∧ ∀ d ∈ h, Below cx calls r d :=
      fun h hh => hn h (.tail _ hh)
    rw [phiTuple] at hphi
    split at hphi
    · rename_i hany
      obtain ⟨s, hmem, he⟩ := exists_empty_of_any hs ht hany
      exact covered_of_empty hmem he
    split at hphi
    · rename_i hdisj
      rw [List.map_cons, covered_cons_of_disjoint (disjoint_of_any hs ht hhead hdisj)]
      exact ih t ht hrest hphi
    · rw [List.map_cons, covered_cons (by rw [List.length_map, List.length_map, hlen])]
      intro i hi vs hvs
      rw [List.length_map] at hi
      have hcut := List.all_eq_true.mp hphi i (List.mem_range.mpr hi)
      refine ih (splitCoord t head i) (below_splitCoord ht hhead i) ?_ hcut vs
        (mem_splitCoord i hvs)
      intro h hh
      rw [length_splitCoord]
      exact hrest h hh

omit hs in
/-- The positive factors of a clause meet coordinate by coordinate. -/
theorem tuple_meet_below (ps : List TupleSig) : ∀ t : List Descr, (∀ d ∈ t, Below cx calls r d) →
    (∀ q ∈ ps, q.elems.length = t.length ∧ ∀ e ∈ q.elems, Below cx calls r (cx.descr e)) →
    ∃ t', ps.foldl
        (fun t q => List.zipWith (fun d e => d.intersect (cx.descr e)) t q.elems) t = t' ∧
      t'.length = t.length ∧ (∀ d ∈ t', Below cx calls r d) ∧
      ∀ vs, vs ∈ listProd (t.map (Descr.meaning cx calls)) →
        (∀ q ∈ ps, TupleSig.Holds (cx.meaning calls) vs q) →
        vs ∈ listProd (t'.map (Descr.meaning cx calls)) := by
  induction ps with
  | nil =>
    intro t ht _
    exact ⟨t, rfl, rfl, ht, fun vs hvs _ => hvs⟩
  | cons q ps ih =>
    intro t ht hps
    obtain ⟨hlen, hlow⟩ := hps q (.head _)
    let next := List.zipWith (fun d e => d.intersect (cx.descr e)) t q.elems
    have hnlen : next.length = t.length := by simp [next, hlen]
    have hnlow : ∀ d ∈ next, Below cx calls r d := by
      intro d hd
      simp only [next, ← List.map_uncurry_zip_eq_zipWith, List.mem_map] at hd
      obtain ⟨⟨a, e⟩, hmem, rfl⟩ := hd
      exact (ht a (List.of_mem_zip hmem).1).intersect (hlow e (List.of_mem_zip hmem).2)
    have hnden : next.map (Descr.meaning cx calls) = List.zipWith (· ∩ ·)
        (t.map (Descr.meaning cx calls)) (q.elems.map (cx.meaning calls)) := by
      simp only [next, List.map_zipWith, List.zipWith_map]
      congr
      funext d e
      ext v
      exact Descr.meaning_intersect
    obtain ⟨t', hfold, hlen', hlow', hmem'⟩ := ih next hnlow fun q' hq' => by
      rw [hnlen]
      exact hps q' (.tail _ hq')
    refine ⟨t', hfold, hlen'.trans hnlen, hlow', fun vs hvs hqs => ?_⟩
    refine hmem' vs ?_ fun q' hq' => hqs q' (.tail _ hq')
    rw [hnden, listProd_zipWith_inter (by simp [hlen])]
    exact ⟨hvs, hqs q (.head _)⟩

theorem tupleClauseEmpty_sound {c : Conj TupleSig}
    (hpos : ∀ p ∈ c.pos, ∀ e ∈ p.elems, Below cx calls r (cx.descr e))
    (hneg : ∀ n ∈ c.neg, ∀ e ∈ n.elems, Below cx calls r (cx.descr e))
    (h : tupleClauseEmpty cx empty c = true) (vs : List Val) :
    ¬c.Holds (TupleSig.Holds (cx.meaning calls) vs) := by
  rintro ⟨hp, hn⟩
  rcases c with ⟨_ | ⟨p, ps⟩, ns⟩
  · exact nomatch h
  · rw [tupleClauseEmpty] at h
    dsimp only at h
    have hlenp : ∀ q ∈ p :: ps, vs.length = q.elems.length := by
      intro q hq
      rw [length_of_mem_listProd (hp q hq), List.length_map]
    split at h
    · rename_i hany
      obtain ⟨q, hq, hne⟩ := List.any_eq_true.mp hany
      simp only [ne_eq, decide_not, Bool.not_eq_eq_eq_not, Bool.not_true,
        decide_eq_false_iff_not] at hne
      exact hne ((hlenp q (.tail _ hq)).symm.trans (hlenp p (.head _)))
    · rename_i hany
      have harity : ∀ q ∈ ps, q.elems.length = (p.elems.map cx.descr).length := by
        simpa using hany
      obtain ⟨t, hfold, hlen, hlow, hmem⟩ := tuple_meet_below ps (p.elems.map cx.descr)
        (by simpa using hpos p (.head _))
        fun q hq => ⟨harity q hq, hpos q (.tail _ hq)⟩
      rw [List.length_map] at hlen
      rw [hfold] at h
      have hvs := hmem vs (by rw [map_meaning_descr]; exact hp p (.head _))
        fun q hq => hp q (.tail _ hq)
      have hnegs : ∀ g ∈ (ns.filter fun n => n.elems.length = p.elems.length).map
          fun n => n.elems.map cx.descr, g.length = t.length ∧ ∀ d ∈ g, Below cx calls r d := by
        intro g hg
        simp only [List.mem_map, List.mem_filter, decide_eq_true_eq] at hg
        obtain ⟨n, ⟨hn, harity⟩, rfl⟩ := hg
        rw [List.length_map, hlen]
        exact ⟨harity, by simpa using hneg n hn⟩
      obtain ⟨s, hs, hin⟩ := phiTuple_sound hs _ t hlow hnegs h vs hvs
      simp only [List.mem_map, List.mem_filter, exists_exists_and_eq_and] at hs
      obtain ⟨n, ⟨hnmem, -⟩, rfl⟩ := hs
      rw [map_meaning_descr] at hin
      exact hn n hnmem hin

/-! ## Lists -/

omit hs

/-- The elements a list signature allows. -/
def ListSig.elems (cx : TyCtx) (calls : Calls) (s : ListSig) : Set Val :=
  {v | ∃ t, s.elem = some t ∧ v ∈ cx.meaning calls t}

theorem ListSig.holds_cons_iff {s : ListSig} {v : Val} {vs : List Val} :
    s.Holds (cx.meaning calls) (v :: vs) ↔ ∀ w ∈ v :: vs, w ∈ s.elems cx calls := by
  constructor
  · rintro ⟨t, ht, hall⟩ w hw
    exact ⟨t, ht, hall w hw⟩
  · intro h
    obtain ⟨t, ht, -⟩ := h v (.head _)
    refine ⟨t, ht, fun w hw => ?_⟩
    obtain ⟨t', ht', hmem⟩ := h w hw
    rw [ht] at ht'
    exact Option.some.inj ht' ▸ hmem

namespace ElemEvidence

/-- The evidence leaves room for an element. -/
def Allows (cx : TyCtx) (calls : Calls) (v : Val) : ElemEvidence → Prop
  | .unconstrained => True
  | .empty => False
  | .inhabited d => v ∈ d.meaning cx calls

/-- The evidence is one a query of rank `r` gathers. -/
def At (cx : TyCtx) (calls : Calls) (r : Nat) : ElemEvidence → Prop
  | .inhabited d => Below cx calls r d
  | _ => True

theorem meet_allows (hs : SoundBelow cx calls r empty) {e : ElemEvidence} {s : ListSig}
    (he : e.At cx calls r) (hsig : ∀ t, s.elem = some t → Below cx calls r (cx.descr t)) :
    (e.meet cx empty s.elem).At cx calls r ∧ ∀ v, e.Allows cx calls v → v ∈ s.elems cx calls →
        (e.meet cx empty s.elem).Allows cx calls v := by
  cases h : s.elem with
  | none =>
    refine ⟨trivial, fun v _ hv => ?_⟩
    obtain ⟨t, ht, -⟩ := hv
    exact nomatch h.symm.trans ht
  | some t =>
    have hlow := hsig t h
    have hmem : ∀ v, v ∈ s.elems cx calls → v ∈ (cx.descr t).meaning cx calls := by
      rintro v ⟨t', ht', hv⟩
      rw [h] at ht'
      exact Option.some.inj ht' ▸ hv
    -- one step to a descriptor that holds the meet
    have hstep : ∀ d, Below cx calls r d →
        (∀ v, e.Allows cx calls v → v ∈ s.elems cx calls → v ∈ d.meaning cx calls) →
        (if empty d then ElemEvidence.empty else .inhabited d).At cx calls r ∧
          ∀ v, e.Allows cx calls v → v ∈ s.elems cx calls →
            (if empty d then ElemEvidence.empty else .inhabited d).Allows cx calls v := by
      intro d hd hin
      by_cases hemp : empty d = true
      · rw [if_pos hemp]
        exact ⟨trivial, fun v hv hvs => hs d hd hemp v (hin v hv hvs)⟩
      · rw [if_neg hemp]
        exact ⟨hd, hin⟩
    cases e with
    | unconstrained => exact hstep _ hlow fun v _ hv => hmem v hv
    | empty => exact ⟨trivial, fun v hv => hv.elim⟩
    | inhabited prev =>
      exact hstep _ (Below.intersect he hlow) fun v hv hvs =>
        Descr.meaning_intersect.mpr ⟨hv, hmem v hvs⟩

theorem foldl_meet_allows (hs : SoundBelow cx calls r empty) (ps : List ListSig)
    (hps : ∀ p ∈ ps, ∀ t, p.elem = some t → Below cx calls r (cx.descr t)) :
    ∀ e : ElemEvidence, e.At cx calls r →
      (ps.foldl (fun e p => e.meet cx empty p.elem) e).At cx calls r ∧
      ∀ v, e.Allows cx calls v → (∀ p ∈ ps, v ∈ p.elems cx calls) →
        (ps.foldl (fun e p => e.meet cx empty p.elem) e).Allows cx calls v := by
  induction ps with
  | nil => exact fun e he => ⟨he, fun v hv _ => hv⟩
  | cons p ps ih =>
    intro e he
    obtain ⟨hat, hallows⟩ := meet_allows hs he (hps p (.head _))
    obtain ⟨hat', hallows'⟩ := ih (fun q hq => hps q (.tail _ hq)) _ hat
    refine ⟨hat', fun v hv hvs => ?_⟩
    exact hallows' v (hallows v hv (hvs p (.head _))) fun q hq => hvs q (.tail _ hq)

theorem fragment_of_allows {e : ElemEvidence} (he : e.At cx calls r) {v : Val}
    (hv : e.Allows cx calls v) : ∃ d, e.fragment = some d ∧ (0 < r → Below cx calls r d) := by
  cases e with
  | empty => exact hv.elim
  | unconstrained => exact ⟨_, rfl, Below.any⟩
  | inhabited d => exact ⟨d, rfl, fun _ => he⟩

theorem mem_of_fragment {e : ElemEvidence} {d : Descr} (h : e.fragment = some d) {v : Val}
    (hv : e.Allows cx calls v) : v ∈ d.meaning cx calls := by
  cases e with
  | empty => cases h
  | unconstrained =>
    cases h
    exact Descr.mem_meaning_any v
  | inhabited d' =>
    cases h
    exact hv

end ElemEvidence

include hs

theorem listCuts_eq_none {elem : Descr} (helem : 0 < r → Below cx calls r elem)
    (ns : List ListSig) (hns : ∀ n ∈ ns, ∀ t, n.elem = some t → Below cx calls r (cx.descr t)) :
    ∀ minus, listCuts cx empty elem ns minus = none →
      ∃ n ∈ ns, ∀ v ∈ elem.meaning cx calls, v ∈ n.elems cx calls := by
  induction ns with
  | nil => exact fun minus h => nomatch h
  | cons n ns ih =>
    intro minus h
    have hrest : ∀ minus, listCuts cx empty elem ns minus = none →
        ∃ m ∈ n :: ns, ∀ v ∈ elem.meaning cx calls, v ∈ m.elems cx calls := by
      intro minus h
      obtain ⟨m, hm, hall⟩ := ih (fun m hm => hns m (.tail _ hm)) minus h
      exact ⟨m, .tail _ hm, hall⟩
    rw [listCuts] at h
    cases hn : n.elem with
    | none =>
      rw [hn] at h
      exact hrest minus h
    | some t =>
      rw [hn] at h
      dsimp only at h
      have hlow := hns n (.head _) t hn
      have helem := helem (Nat.zero_lt_of_lt hlow.rank_lt)
      split at h
      · exact hrest _ h
      split at h
      · rename_i hdiff
        refine ⟨n, .head _, fun v hv => ⟨t, hn, ?_⟩⟩
        by_contra hout
        refine hs _ (helem.diff (helem.intersect hlow)) hdiff v (Descr.mem_meaning_diff hv ?_)
        exact fun hcut => hout (Descr.meaning_intersect.mp hcut).2
      · exact hrest _ h

theorem listClauseEmpty_sound {c : Conj ListSig}
    (hpos : ∀ p ∈ c.pos, ∀ t, p.elem = some t → Below cx calls r (cx.descr t))
    (hneg : ∀ n ∈ c.neg, ∀ t, n.elem = some t → Below cx calls r (cx.descr t))
    (h : listClauseEmpty cx empty c = true) (vs : List Val) :
    ¬c.Holds (ListSig.Holds (cx.meaning calls) vs) := by
  rintro ⟨hp, hn⟩
  rw [listClauseEmpty, Option.isNone_iff_eq_none, listDenotation] at h
  cases vs with
  | nil =>
    have hempty : clauseHoldsEmpty c = true := by
      simp only [clauseHoldsEmpty, Bool.and_eq_true, List.all_eq_true, Bool.not_eq_true',
        List.any_eq_false]
      exact ⟨hp, hn⟩
    rw [hempty] at h
    split at h
    · exact nomatch h
    · split at h <;> exact nomatch h
  | cons v vs =>
    simp only [ListSig.holds_cons_iff] at hp hn
    obtain ⟨hat, hallows⟩ := ElemEvidence.foldl_meet_allows hs c.pos hpos .unconstrained trivial
    have hall := fun w hw => hallows w trivial fun p hp' => hp p hp' w hw
    obtain ⟨elem, hfrag, hbelow⟩ := ElemEvidence.fragment_of_allows hat (hall v (.head _))
    simp only [hfrag] at h
    split at h
    · rename_i hcuts
      obtain ⟨n, hnmem, hcov⟩ := listCuts_eq_none hs hbelow c.neg hneg [] hcuts
      exact hn n hnmem fun w hw => hcov w (ElemEvidence.mem_of_fragment hfrag (hall w hw))
    · exact nomatch h

/-! ## Resources -/

theorem resourceClauseEmpty_sound {c : Conj ResourceSig}
    (hpos : ∀ p ∈ c.pos, Below cx calls r (cx.descr p.payload))
    (hneg : ∀ n ∈ c.neg, Below cx calls r (cx.descr n.payload))
    (h : resourceClauseEmpty cx empty c = true) (v : Val) :
    ¬c.Holds (ResourceSig.Holds (cx.meaning calls) v) := by
  rintro ⟨hp, hn⟩
  -- the payload of the clause holds the value
  have hmeet : ∀ (ps : List ResourceSig) (d : Descr),
      (∀ p ∈ ps, Below cx calls r (cx.descr p.payload) ∧ v ∈ cx.meaning calls p.payload) →
      (Below cx calls r d ∧ v ∈ d.meaning cx calls) →
      Below cx calls r (ps.foldl (fun d q => d.intersect (cx.descr q.payload)) d) ∧
        v ∈ (ps.foldl (fun d q => d.intersect (cx.descr q.payload)) d).meaning cx calls := by
    intro ps
    induction ps with
    | nil => exact fun d _ hd => hd
    | cons p ps ih =>
      intro d hps hd
      obtain ⟨hlow, hv⟩ := hps p (.head _)
      exact ih _ (fun q hq => hps q (.tail _ hq))
        ⟨hd.1.intersect hlow, Descr.meaning_intersect.mpr ⟨hd.2, hv⟩⟩
  rw [resourceClauseEmpty] at h
  rcases c with ⟨_ | ⟨p, ps⟩, ns⟩
  · simp only [List.isEmpty_nil, Bool.not_true, Bool.false_and, Bool.false_eq_true, ↓reduceIte] at h
    obtain ⟨n, hnmem, he⟩ := List.any_eq_true.mp h
    have hlow := hneg n hnmem
    exact hs _ ((Below.any (Nat.zero_lt_of_lt hlow.rank_lt)).diff hlow) he v
      (Descr.mem_meaning_diff (Descr.mem_meaning_any v) (hn n hnmem))
  · obtain ⟨hlow, hv⟩ := hmeet ps (cx.descr p.payload)
      (fun q hq => ⟨hpos q (.tail _ hq), hp q (.tail _ hq)⟩) ⟨hpos p (.head _), hp p (.head _)⟩
    simp only [List.isEmpty_cons, Bool.not_false, Bool.true_and] at h
    split at h
    · rename_i he
      exact hs _ hlow he v hv
    · obtain ⟨n, hnmem, he⟩ := List.any_eq_true.mp h
      exact hs _ (hlow.diff (hneg n hnmem)) he v (Descr.mem_meaning_diff hv (hn n hnmem))

/-! ## Maps -/

omit hs

/-- The fields merged so far hold of the map: each key has a value, in its descriptor. -/
def MergedHolds (cx : TyCtx) (calls : Calls) (r : Nat) (fields : MapKey → Option Val)
    (merged : List (MapKey × Descr)) : Prop :=
  ∀ p ∈ merged, Below cx calls r p.2 ∧ ∃ v, fields p.1 = some v ∧ v ∈ p.2.meaning cx calls

theorem mergeField_holds {fields : MapKey → Option Val} {merged : List (MapKey × Descr)}
    {field : MapKey × Ty} (h : MergedHolds cx calls r fields merged)
    (hlow : Below cx calls r (cx.descr field.2))
    (hv : ∃ v, fields field.1 = some v ∧ v ∈ cx.meaning calls field.2) :
    MergedHolds cx calls r fields (mergeField cx merged field) := by
  rw [mergeField]
  split
  · intro p hp
    obtain ⟨⟨k, d⟩, hkd, rfl⟩ := List.mem_map.mp hp
    obtain ⟨hd, v, hkv, hmem⟩ := h (k, d) hkd
    dsimp only
    split
    · rename_i hk
      obtain ⟨v', hkv', hmem'⟩ := hv
      obtain rfl : v' = v := by
        rw [← hk] at hkv'
        exact Option.some.inj (hkv'.symm.trans hkv)
      exact ⟨hd.intersect hlow, v', hkv, Descr.meaning_intersect.mpr ⟨hmem, hmem'⟩⟩
    · exact ⟨hd, v, hkv, hmem⟩
  · intro p hp
    rcases List.mem_append.mp hp with hp | hp
    · exact h p hp
    · rw [List.mem_singleton.mp hp]
      exact ⟨hlow, hv⟩

theorem foldl_mergeField_holds {tag : MapTag} {fields : MapKey → Option Val} (qs : List MapSig)
    (hqs : ∀ q ∈ qs, (∀ p ∈ q.fields, Below cx calls r (cx.descr p.2)) ∧
      q.Holds (cx.meaning calls) tag fields) : ∀ merged, MergedHolds cx calls r fields merged →
      MergedHolds cx calls r fields
        (qs.foldl (fun m q => q.fields.foldl (mergeField cx) m) merged) := by
  induction qs with
  | nil => exact fun merged h => h
  | cons q qs ih =>
    intro merged h
    refine ih (fun q hq => hqs q (.tail _ hq)) _ ?_
    obtain ⟨hlow, -, hq⟩ := hqs q (.head _)
    -- the fields of one signature
    have hfields : ∀ (fs : List (MapKey × Ty)) (merged : List (MapKey × Descr)),
        (∀ p ∈ fs, p ∈ q.fields) → MergedHolds cx calls r fields merged →
        MergedHolds cx calls r fields (fs.foldl (mergeField cx) merged) := by
      intro fs
      induction fs with
      | nil => exact fun merged _ h => h
      | cons f fs ihf =>
        intro merged hfs h
        have hf := hfs f (.head _)
        exact ihf _ (fun p hp => hfs p (.tail _ hp)) (mergeField_holds h (hlow f hf) (hq f hf))
    exact hfields q.fields merged (fun _ h => h) h

include hs

theorem mapClauseEmpty_sound {c : Conj MapSig}
    (hpos : ∀ p ∈ c.pos, ∀ f ∈ p.fields, Below cx calls r (cx.descr f.2))
    (hneg : ∀ n ∈ c.neg, ∀ f ∈ n.fields, Below cx calls r (cx.descr f.2))
    (h : mapClauseEmpty cx empty c = true) (tag : MapTag) (fields : MapKey → Option Val) :
    ¬c.Holds (MapSig.Holds (cx.meaning calls) tag fields) := by
  rintro ⟨hp, hn⟩
  rcases c with ⟨_ | ⟨p, ps⟩, ns⟩
  · cases h
  rw [mapClauseEmpty] at h
  dsimp only at h
  have htag := (hp p (.head _)).1
  split at h
  · rename_i hany
    obtain ⟨q, hq, hne⟩ := List.any_eq_true.mp hany
    rw [decide_eq_true_eq] at hne
    exact hne ((hp q (.tail _ hq)).1.trans htag.symm)
  · have hstart : MergedHolds cx calls r fields (p.fields.map fun f => (f.1, cx.descr f.2)) := by
      intro f hf
      obtain ⟨⟨k, t⟩, hkt, rfl⟩ := List.mem_map.mp hf
      exact ⟨hpos p (.head _) _ hkt, (hp p (.head _)).2 _ hkt⟩
    have hmerged := foldl_mergeField_holds ps
      (fun q hq => ⟨hpos q (.tail _ hq), hp q (.tail _ hq)⟩) _ hstart
    split at h
    · rename_i hany
      obtain ⟨⟨k, d⟩, hkd, he⟩ := List.any_eq_true.mp hany
      obtain ⟨hd, v, -, hv⟩ := hmerged _ hkd
      exact hs d hd he v hv
    · obtain ⟨n, hnmem, hcov⟩ := List.any_eq_true.mp h
      simp only [Bool.and_eq_true, decide_eq_true_eq, List.all_eq_true] at hcov
      obtain ⟨⟨hntag, -⟩, hcov⟩ := hcov
      refine hn n hnmem ⟨hntag.trans htag, fun f hf => ?_⟩
      have hf' := hcov f hf
      split at hf'
      · rename_i d hd
        have hmem : (f.1, d) ∈ ps.foldl (fun m q => q.fields.foldl (mergeField cx) m)
            (p.fields.map fun f => (f.1, cx.descr f.2)) := by
          obtain ⟨l₁, l₂, hl, -⟩ := List.lookup_eq_some_iff.mp hd
          rw [hl]
          exact List.mem_append_right _ (.head _)
        obtain ⟨hlow, v, hkv, hv⟩ := hmerged _ hmem
        refine ⟨v, hkv, ?_⟩
        by_contra hout
        exact hs _ (hlow.diff (hneg n hnmem f hf)) hf' v (Descr.mem_meaning_diff hv hout)
      · cases hf'

/-! ## Functions -/

omit hs

theorem litsDisjoint_sound (hs : SoundBelow cx calls r empty) {a b : ClosureLit}
    (ha : ∀ t ∈ a.captures, Below cx calls r (cx.descr t))
    (hb : ∀ t ∈ b.captures, Below cx calls r (cx.descr t))
    (h : litsDisjoint cx empty a b = true) {f : Nat} {captures : List Val}
    (hfa : a.Holds (cx.meaning calls) f captures) (hfb : b.Holds (cx.meaning calls) f captures) :
    False := by
  simp only [litsDisjoint, Bool.or_eq_true, Bool.not_eq_true', decide_eq_true_eq] at h
  rcases h with (h | h) | h
  · cases ha : a.fnId with
    | none => simp [ha, closureBrandsMeet] at h
    | some g =>
      cases hb : b.fnId with
      | none => simp [ha, hb, closureBrandsMeet] at h
      | some g' =>
        rw [ha, hb] at h
        simp only [closureBrandsMeet, decide_eq_false_iff_not] at h
        exact h ((hfa.1 g ha).trans (hfb.1 g' hb).symm)
  · have hla := length_of_mem_listProd hfa.2
    have hlb := length_of_mem_listProd hfb.2
    rw [List.length_map] at hla hlb
    exact h (hla.symm.trans hlb)
  · obtain ⟨⟨x, y⟩, hxy, he⟩ := List.any_eq_true.mp h
    obtain ⟨hx, hy⟩ := List.of_mem_zip hxy
    obtain ⟨v, hvx, hvy⟩ := exists_mem_of_mem_zip hfa.2 hfb.2 hxy
    exact hs _ ((ha x hx).intersect (hb y hy)) he v (Descr.meaning_intersect.mpr ⟨hvx, hvy⟩)

theorem somePairDisjoint_sound (hs : SoundBelow cx calls r empty) {f : Nat} {captures : List Val} :
    ∀ lits : List ClosureLit, (∀ l ∈ lits, (∀ t ∈ l.captures, Below cx calls r (cx.descr t)) ∧
        l.Holds (cx.meaning calls) f captures) → somePairDisjoint cx empty lits = false := by
  intro lits
  induction lits with
  | nil => exact fun _ => rfl
  | cons a lits ih =>
    intro hlits
    obtain ⟨hlow, ha⟩ := hlits a (.head _)
    have hrest := fun l hl => hlits l (.tail _ hl)
    rw [somePairDisjoint, ih hrest, Bool.or_false, List.any_eq_false]
    intro b hb hd
    exact litsDisjoint_sound hs hlow (hrest b hb).1 hd ha (hrest b hb).2

theorem litCovered_sound (hs : SoundBelow cx calls r empty) {p n : ClosureLit}
    (hp : ∀ t ∈ p.captures, Below cx calls r (cx.descr t))
    (hn : ∀ t ∈ n.captures, Below cx calls r (cx.descr t))
    (h : litCovered cx empty p n = true) {f : Nat} {captures : List Val}
    (hf : p.Holds (cx.meaning calls) f captures) : n.Holds (cx.meaning calls) f captures := by
  simp only [litCovered, Bool.and_eq_true, decide_eq_true_eq, List.all_eq_true] at h
  obtain ⟨⟨hfn, hlen⟩, hcov⟩ := h
  constructor
  · intro g hg
    cases hpf : p.fnId with
    | none => simp [hpf, hg, closureBrandInside] at hfn
    | some g' =>
      simp only [hpf, hg, closureBrandInside, decide_eq_true_eq] at hfn
      exact hfn ▸ hf.1 g' hpf
  · refine listProd_of_zip hlen hf.2 fun x y hxy v hv => ?_
    obtain ⟨hx, hy⟩ := List.of_mem_zip hxy
    by_contra hout
    exact hs _ ((hp x hx).diff (hn y hy)) (hcov (x, y) hxy) v (Descr.mem_meaning_diff hv hout)

/-- A query that is also sound for the descriptors without function clauses at rank `r`. -/
def SoundAt (cx : TyCtx) (calls : Calls) (r : Nat) (empty : Descr → Bool) : Prop :=
  ∀ d : Descr, d.rank ≤ r → d.funcs = [] → empty d = true → ∀ v, v ∉ d.meaning cx calls

/-- What the argument tuples picked by a mask add up to. -/
structure PickedInputs (cx : TyCtx) (calls : Calls) (r : Nat) (args : List Val) (d : Descr) :
    Prop where
  rank_le : d.rank ≤ r
  funcs : d.funcs = []
  slot : d.looksEmpty = true ∨ d.brands = .any
  notMem : Val.mk none (.tuple args) ∉ d.meaning cx calls

theorem PickedInputs.union {args : List Val} {d : Descr} {s : ArrowSig}
    (h : PickedInputs cx calls r args d) (hs : ∀ t ∈ s.args, t < r)
    (hout : args ∉ listProd (s.args.map (cx.meaning calls))) :
    PickedInputs cx calls r args (d.union (arrowInput s)) := by
  refine ⟨?_, funcs_union_arrowInput h.funcs, slot_union_arrowInput h.slot, ?_⟩
  · have hinput : (arrowInput s).EachSig (.naming (· < r)) := .tupleOf hs
    exact (Descr.rank_union_le _ _).trans (Nat.max_le.mpr
      ⟨h.rank_le, Descr.rank_le_iff_eachSig.mpr hinput⟩)
  · rw [Descr.meaning_union (slotsAgree_arrowInput h.slot)]
    rintro (hmem | hmem)
    · exact h.notMem hmem
    · exact hout (Descr.mem_tupleOf.mp hmem)

/-- One call of a closure: it respects an arrow when the mask of the positive arrows that do not
accept the arguments is covered. -/
theorem maskCovered_sound (hs : SoundBelow cx calls r empty) (hin : SoundAt cx calls r empty)
    {p : List ArrowSig} {neg : ArrowSig} {mask : Nat}
    (hp : ∀ s ∈ p, Below cx calls r (cx.descr s.ret) ∧ ∀ t ∈ s.args, t < r)
    (hneg : Below cx calls r (cx.descr neg.ret) ∧ ∀ t ∈ neg.args, t < r)
    {args : List Val} {res : Val} (hmask : ∀ q ∈ p.zipIdx, mask.testBit q.2 = true ↔
      args ∉ listProd (q.1.args.map (cx.meaning calls)))
    (hres : ∀ s ∈ p, args ∈ listProd (s.args.map (cx.meaning calls)) → res ∈ cx.meaning calls s.ret)
    (h : maskCovered cx empty p neg mask = true)
    (hargs : args ∈ listProd (neg.args.map (cx.meaning calls))) :
    res ∈ cx.meaning calls neg.ret := by
  have hpick : ∀ q ∈ p.zipIdx, q.1 ∈ p := by
    intro q hq
    obtain ⟨-, hlt, heq⟩ := List.mem_zipIdx hq
    rw [heq]
    exact List.getElem_mem _
  have hinputs : ∀ (qs : List (ArrowSig × Nat)) (d : Descr), (∀ q ∈ qs, q ∈ p.zipIdx) →
      PickedInputs cx calls r args d → PickedInputs cx calls r args (qs.foldl
        (fun d q => if mask.testBit q.2 then d.union (arrowInput q.1) else d) d) := by
    intro qs
    induction qs with
    | nil => exact fun d _ hd => hd
    | cons q qs ih =>
      intro d hqs hd
      refine ih _ (fun q hq => hqs q (.tail _ hq)) ?_
      have hq := hqs q (.head _)
      dsimp only
      split
      · rename_i hbit
        exact hd.union (hp _ (hpick q hq)).2 ((hmask q hq).mp hbit)
      · exact hd
  have houtputs : ∀ (qs : List (ArrowSig × Nat)) (d : Descr), (∀ q ∈ qs, q ∈ p.zipIdx) →
      (Below cx calls r d ∧ res ∈ d.meaning cx calls) →
      Below cx calls r (qs.foldl (fun d q =>
          if mask.testBit q.2 then d else d.intersect (cx.descr q.1.ret)) d) ∧
        res ∈ (qs.foldl (fun d q =>
          if mask.testBit q.2 then d else d.intersect (cx.descr q.1.ret)) d).meaning cx calls := by
    intro qs
    induction qs with
    | nil => exact fun d _ hd => hd
    | cons q qs ih =>
      intro d hqs hd
      refine ih _ (fun q hq => hqs q (.tail _ hq)) ?_
      have hq := hqs q (.head _)
      dsimp only
      split
      · exact hd
      · rename_i hbit
        have hacc : args ∈ listProd (q.1.args.map (cx.meaning calls)) := by
          by_contra hout
          exact hbit ((hmask q hq).mpr hout)
        exact ⟨hd.1.intersect (hp _ (hpick q hq)).1,
          Descr.meaning_intersect.mpr ⟨hd.2, hres _ (hpick q hq) hacc⟩⟩
  have hr : 0 < r := Nat.zero_lt_of_lt hneg.1.rank_lt
  have hins := hinputs p.zipIdx Descr.none (fun _ h => h)
    ⟨Nat.zero_le _, rfl, .inl rfl, fun hmem =>
      Descr.not_mem_of_looksEmpty rfl _ (Descr.mem_meaning.mp hmem)⟩
  obtain ⟨hlow, houts⟩ := houtputs p.zipIdx Descr.any (fun _ h => h)
    ⟨Below.any hr, Descr.mem_meaning_any res⟩
  rw [maskCovered, Bool.or_eq_true] at h
  rcases h with h | h
  · -- the arguments are in the negative arrow's and in none of the picked ones
    refine absurd (Descr.mem_meaning_diff (Descr.mem_tupleOf.mpr hargs) hins.notMem)
      (hin _ ?_ ?_ h _)
    · rw [Descr.rank_le_iff_eachSig]
      exact .diff (.tupleOf hneg.2) (Descr.rank_le_iff_eachSig.mp hins.rank_le)
    · exact funcs_diff_of_nil rfl
  · by_contra hout
    exact hs _ (hlow.diff hneg.1) h res (Descr.mem_meaning_diff houts hout)

theorem funcClauseEmpty_sound (hs : SoundBelow cx calls r empty) (hin : SoundAt cx calls r empty)
    {c : Conj ArrowSig} (hlow : ∀ s, s ∈ c.pos ∨ s ∈ c.neg → Honest cx calls s ∧
      (Below cx calls r (cx.descr s.ret) ∧ ∀ t ∈ s.args, t < r) ∧
      ∀ l, s.lit = some l → ∀ t ∈ l.captures, Below cx calls r (cx.descr t))
    (h : funcClauseEmpty cx empty c = true) (f : Nat) (captures : List Val) :
    ¬c.Holds (ArrowSig.Holds calls (cx.meaning calls) f captures) := by
  rintro ⟨hp, hn⟩
  -- the closure is one of each positive literal, and has each positive arrow
  have hlits : ∀ l ∈ c.pos.filterMap ArrowSig.lit,
      (∀ t ∈ l.captures, Below cx calls r (cx.descr t)) ∧
        l.Holds (cx.meaning calls) f captures := by
    intro l hl
    obtain ⟨s, hs, hsl⟩ := List.mem_filterMap.mp hl
    have hholds := hp s hs
    rw [ArrowSig.Holds, hsl] at hholds
    exact ⟨(hlow s (.inl hs)).2.2 l hsl, hholds⟩
  have hmaps : ∀ s ∈ c.pos, s.Maps calls (cx.meaning calls) f captures := by
    intro s hs
    have hholds := hp s hs
    rw [ArrowSig.Holds] at hholds
    cases hl : s.lit with
    | none =>
      rw [hl] at hholds
      exact hholds
    | some l =>
      rw [hl] at hholds
      exact (hlow s (.inl hs)).1 l hl f captures hholds
  rw [funcClauseEmpty] at h
  split at h
  · rename_i hany
    obtain ⟨l, hl, hcap⟩ := List.any_eq_true.mp hany
    obtain ⟨t, ht, he⟩ := List.any_eq_true.mp hcap
    obtain ⟨hbelow, -, hcaps⟩ := hlits l hl
    obtain ⟨v, hv⟩ := listProd_nonempty_iff.mp ⟨_, hcaps⟩ _ (List.mem_map_of_mem ht)
    exact hs _ (hbelow t ht) he v hv
  split at h
  · rename_i hpair
    rw [somePairDisjoint_sound hs _ hlits] at hpair
    exact nomatch hpair
  split at h
  · rename_i hany
    obtain ⟨l, hl, hcov⟩ := List.any_eq_true.mp hany
    obtain ⟨s, hsmem, hsl⟩ := List.mem_filterMap.mp hl
    obtain ⟨q, hq, hcov⟩ := List.any_eq_true.mp hcov
    have hholds := litCovered_sound hs (hlits q hq).1 ((hlow s (.inr hsmem)).2.2 l hsl) hcov
      (hlits q hq).2
    apply hn s hsmem
    rw [ArrowSig.Holds, hsl]
    exact hholds
  · obtain ⟨n, hnmem, hmasks⟩ := List.any_eq_true.mp h
    obtain ⟨hnmem, hnlit⟩ := List.mem_filter.mp hnmem
    rw [Option.isNone_iff_eq_none] at hnlit
    apply hn n hnmem
    rw [ArrowSig.Holds, hnlit]
    intro args res hcall hargs
    classical
    let bits : Fin c.pos.length → Bool := fun i =>
      decide (args ∉ listProd ((c.pos.get i).args.map (cx.meaning calls)))
    have hmem := List.mem_range.mpr (Nat.ofBits_lt_two_pow bits)
    refine maskCovered_sound hs hin (fun s hs => (hlow s (.inl hs)).2.1) (hlow n (.inr hnmem)).2.1
      ?_ (fun s hs hacc => hmaps s hs args res hcall hacc) (List.all_eq_true.mp hmasks _ hmem) hargs
    intro q hq
    obtain ⟨-, hlt, heq⟩ := List.mem_zipIdx hq
    simp only [Nat.zero_add, Nat.sub_zero] at hlt heq
    rw [Nat.testBit_ofBits_lt bits q.2 hlt, heq, decide_eq_true_eq]
    rfl

end Axes

/-! ## Descriptors -/

namespace Descr

/-- The literals of a descriptor and of the whole arena are honest. -/
structure HonestIn (cx : TyCtx) (calls : Calls) (d : Descr) : Prop where
  self : d.EachSig (.onArrow (Honest cx calls))
  arena : ∀ t, Each (Honest cx calls) (cx.descr t).funcs

theorem eachSig_onArrow_iff {Q : ArrowSig → Prop} {d : Descr} :
    d.EachSig (.onArrow Q) ↔ Each Q d.funcs := by
  refine ⟨EachSig.funcs, fun h => ⟨?_, ?_, ?_, h, ?_⟩⟩ <;>
    exact fun _ _ => ⟨fun _ _ => trivial, fun _ _ => trivial⟩

theorem HonestIn.below {d : Descr} (h : d.HonestIn cx calls) :
    d.EachSig (.naming fun t => Below cx calls d.rank (cx.descr t)) :=
  eachChild_iff_eachSig.mp fun t ht =>
    ⟨rank_descr_lt cx ht, eachSig_onArrow_iff.mpr (h.arena t)⟩

theorem isEmptyStep_sound {d : Descr} {empty : Descr → Bool} (hd : d.HonestIn cx calls)
    (hs : SoundBelow cx calls d.rank empty) (hin : d.funcs ≠ [] → SoundAt cx calls d.rank empty)
    (h : d.isEmptyStep cx empty = true) (v : Val) : v ∉ d.meaning cx calls := by
  rw [mem_meaning]
  rintro ⟨hslot, hmem⟩
  rw [isEmptyStep, Bool.or_eq_true] at h
  rcases h with h | h
  · rw [admits_of_isNone h] at hslot
    exact nomatch hslot
  have hbelow := hd.below
  simp only [Bool.and_eq_true, List.all_eq_true, BasicBits.isEmpty, FiniteSet.isNone,
    Bool.not_eq_true', decide_eq_true_eq] at h
  obtain ⟨⟨⟨⟨⟨⟨⟨⟨hbasic, hatoms⟩, hopaques⟩, -⟩, htuples⟩, hlists⟩, hres⟩, hfuncs⟩, hmaps⟩ := h
  cases hshape : v.shape with
  | int n => simp [hshape, Shape.In, hbasic] at hmem
  | float x => simp [hshape, Shape.In, hbasic] at hmem
  | binary bs => simp [hshape, Shape.In, hbasic] at hmem
  | atom a => simp [hshape, Shape.In, FiniteSet.contains, hatoms] at hmem
  | opaqueOf tag => simp [hshape, Shape.In, FiniteSet.contains, hopaques] at hmem
  | tuple vs =>
    rw [hshape] at hmem
    obtain ⟨c, hc, hholds⟩ := hmem
    exact tupleClauseEmpty_sound hs (hbelow.tuples c hc).1 (hbelow.tuples c hc).2 (htuples c hc)
      vs hholds
  | list vs =>
    rw [hshape] at hmem
    obtain ⟨c, hc, hholds⟩ := hmem
    exact listClauseEmpty_sound hs (hbelow.lists c hc).1 (hbelow.lists c hc).2 (hlists c hc)
      vs hholds
  | resource w =>
    rw [hshape] at hmem
    obtain ⟨c, hc, hholds⟩ := hmem
    exact resourceClauseEmpty_sound hs (hbelow.resources c hc).1 (hbelow.resources c hc).2
      (hres c hc) w hholds
  | map tag fields =>
    rw [hshape] at hmem
    obtain ⟨c, hc, hholds⟩ := hmem
    exact mapClauseEmpty_sound hs (hbelow.maps c hc).1 (hbelow.maps c hc).2 (hmaps c hc) tag
      fields hholds
  | fn f captures =>
    rw [hshape] at hmem
    obtain ⟨c, hc, hholds⟩ := hmem
    have hrank := (rank_le_iff_eachSig (d := d)).mp le_rfl
    refine funcClauseEmpty_sound hs (hin (List.ne_nil_of_mem hc)) ?_ (hfuncs c hc) f captures
      hholds
    rintro s (hsig | hsig)
    · have hb := (hbelow.funcs c hc).1 s hsig
      exact ⟨(hd.self.funcs c hc).1 s hsig, ⟨hb.1, ((hrank.funcs c hc).1 s hsig).2.1⟩, hb.2.2⟩
    · have hb := (hbelow.funcs c hc).2 s hsig
      exact ⟨(hd.self.funcs c hc).2 s hsig, ⟨hb.1, ((hrank.funcs c hc).2 s hsig).2.1⟩, hb.2.2⟩

/-- What decreases along the queries a descriptor asks. -/
def weight (d : Descr) : Nat := 2 * d.rank + if d.funcs = [] then 0 else 1

theorem isEmptyMemo_sound : ∀ (n : Nat) (inFlight : List Descr) (d : Descr),
    d.HonestIn cx calls → (∀ e ∈ inFlight, d.weight < e.weight) →
    d.isEmptyMemo cx n inFlight = true → ∀ v, v ∉ d.meaning cx calls := by
  intro n
  induction n with
  | zero => exact fun _ _ _ _ h => nomatch h
  | succ n ih =>
    intro inFlight d hd hflight h
    have hfresh : d ∉ inFlight := fun hmem => Nat.lt_irrefl _ (hflight d hmem)
    rw [isEmptyMemo, if_neg hfresh] at h
    have hlight : ∀ e : Descr, e.weight < d.weight → e.HonestIn cx calls →
        e.isEmptyMemo cx n (d :: inFlight) = true → ∀ v, v ∉ e.meaning cx calls := by
      intro e hlt he
      exact ih (d :: inFlight) e he
        (List.forall_mem_cons.mpr ⟨hlt, fun x hx => hlt.trans (hflight x hx)⟩)
    refine isEmptyStep_sound hd (fun e he => hlight e ?_ ⟨he.honest, hd.arena⟩)
      (fun hne e hrank hnil => hlight e ?_ ⟨?_, hd.arena⟩) h
    · have := he.rank_lt
      unfold weight
      split <;> split <;> omega
    · rw [weight, weight, if_pos hnil, if_neg hne]
      omega
    · rw [eachSig_onArrow_iff, hnil]
      exact fun _ h => nomatch h

theorem isEmpty_sound {d : Descr} (hd : d.HonestIn cx calls) (h : d.isEmpty cx = true) (v : Val) :
    v ∉ d.meaning cx calls :=
  isEmptyMemo_sound _ [] d hd (fun _ h => nomatch h) h v

theorem isSubtype_sound {a b : Descr} (ha : a.HonestIn cx calls) (hb : b.HonestIn cx calls)
    (h : a.isSubtype cx b = true) {v : Val} (hv : v ∈ a.meaning cx calls) :
    v ∈ b.meaning cx calls := by
  by_contra hout
  exact isEmpty_sound ⟨ha.self.diff hb.self, ha.arena⟩ h v (mem_meaning_diff hv hout)

end Descr

end Fz.Types
