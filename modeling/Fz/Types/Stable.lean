import Fz.Base.List
import Fz.Types.InternSound
import Fz.Types.Order

/-!
# Queries in a larger arena

The store of types only grows, and a query about types that are in it has the same answer later.
Each axis reads the arena at the types its clauses name, and asks about meets, joins and differences
of their descriptors, which name types of the arena again.
-/

set_option linter.dupNamespace false

namespace Fz.Types

open Base (any_congr_mem all_congr_mem)

namespace TyCtx

/-- The arena holds the descriptors of another one, and a query agrees with another one on the
descriptors that this one knows. -/
structure SameQuery (cx cx' : TyCtx) (empty empty' : Descr → Bool) : Prop where
  extends_ : cx.Extends cx'
  query : ∀ d, cx.Knows d → empty' d = empty d

variable {cx cx' : TyCtx} {empty empty' : Descr → Bool} (h : SameQuery cx cx' empty empty')

include h

namespace SameQuery

theorem descr_eq {t : Ty} (ht : t < cx.arena.length) : cx'.descr t = cx.descr t :=
  h.extends_.descr_eq ht

theorem map_descr {ts : List Ty} (hts : ∀ t ∈ ts, t < cx.arena.length) :
    ts.map cx'.descr = ts.map cx.descr :=
  List.map_congr_left fun t ht => h.descr_eq (hts t ht)

/-! ## Tuples -/

omit h in
theorem knows_splitCoord {t s : List Descr} (ht : ∀ d ∈ t, cx.Knows d) (hs : ∀ d ∈ s, cx.Knows d)
    (i : Nat) : ∀ d ∈ splitCoord t s i, cx.Knows d := by
  induction t generalizing s i with
  | nil => cases s <;> cases i <;> exact fun _ hd => nomatch hd
  | cons d t ih =>
    cases s with
    | nil => cases i <;> exact ht
    | cons e s =>
      obtain ⟨hd, ht⟩ := List.forall_mem_cons.mp ht
      obtain ⟨he, hs⟩ := List.forall_mem_cons.mp hs
      cases i with
      | zero => exact List.forall_mem_cons.mpr ⟨hd.diff he, ht⟩
      | succ i => exact List.forall_mem_cons.mpr ⟨hd.intersect he, ih ht hs i⟩

theorem any_empty {t : List Descr} (ht : ∀ d ∈ t, cx.Knows d) : t.any empty' = t.any empty :=
  any_congr_mem fun d hd => h.query d (ht d hd)

theorem zipWith_intersect {t s : List Descr} (ht : ∀ d ∈ t, cx.Knows d) (hs : ∀ d ∈ s, cx.Knows d) :
    List.zipWith (fun a b => empty' (b.intersect a)) s t =
      List.zipWith (fun a b => empty (b.intersect a)) s t := by
  induction t generalizing s with
  | nil => cases s <;> rfl
  | cons d t ih =>
    cases s with
    | nil => rfl
    | cons e s =>
      obtain ⟨hd, ht⟩ := List.forall_mem_cons.mp ht
      obtain ⟨he, hs⟩ := List.forall_mem_cons.mp hs
      rw [List.zipWith_cons_cons, List.zipWith_cons_cons, h.query _ (hd.intersect he), ih ht hs]

theorem phiTuple_eq {negs : List (List Descr)} {t : List Descr} (ht : ∀ d ∈ t, cx.Knows d)
    (hnegs : ∀ n ∈ negs, ∀ d ∈ n, cx.Knows d) : phiTuple empty' t negs = phiTuple empty t negs := by
  induction negs generalizing t with
  | nil => exact h.any_empty ht
  | cons n negs ih =>
    obtain ⟨hn, hnegs⟩ := List.forall_mem_cons.mp hnegs
    have hsplit : ∀ i, phiTuple empty' (splitCoord t n i) negs =
        phiTuple empty (splitCoord t n i) negs := fun i => ih (knows_splitCoord ht hn i) hnegs
    simp only [phiTuple, h.any_empty ht, h.zipWith_intersect ht hn, ih ht hnegs, hsplit]

omit h in
theorem knows_map_descr (ts : List Ty) : ∀ d ∈ ts.map cx.descr, cx.Knows d := by
  intro d hd
  obtain ⟨t, _, rfl⟩ := List.mem_map.mp hd
  exact cx.knows_descr t

theorem tuple_meet {ps : List TupleSig} {t : List Descr} (ht : ∀ d ∈ t, cx.Knows d)
    (hps : ∀ q ∈ ps, ∀ e ∈ q.elems, e < cx.arena.length) :
    ps.foldl (fun t q => List.zipWith (fun d e => d.intersect (cx'.descr e)) t q.elems) t =
      ps.foldl (fun t q => List.zipWith (fun d e => d.intersect (cx.descr e)) t q.elems) t ∧
    ∀ d ∈ ps.foldl (fun t q => List.zipWith (fun d e => d.intersect (cx.descr e)) t q.elems) t,
      cx.Knows d := by
  induction ps generalizing t with
  | nil => exact ⟨rfl, ht⟩
  | cons q ps ih =>
    obtain ⟨hq, hps⟩ := List.forall_mem_cons.mp hps
    have hzip : List.zipWith (fun d e => d.intersect (cx'.descr e)) t q.elems =
        List.zipWith (fun d e => d.intersect (cx.descr e)) t q.elems := by
      have hmap := congrArg (List.zipWith Descr.intersect t) (h.map_descr hq)
      rwa [List.zipWith_map_right, List.zipWith_map_right] at hmap
    have hknows : ∀ d ∈ List.zipWith (fun d e => d.intersect (cx.descr e)) t q.elems,
        cx.Knows d := by
      intro d hd
      obtain ⟨i, hi, rfl⟩ := List.mem_iff_getElem.mp hd
      rw [List.getElem_zipWith]
      exact (ht _ (List.getElem_mem _)).intersect (cx.knows_descr _)
    rw [List.foldl_cons, List.foldl_cons, hzip]
    exact ih hknows hps

theorem tupleClauseEmpty_eq {c : Conj TupleSig}
    (hpos : ∀ s ∈ c.pos, ∀ t ∈ s.elems, t < cx.arena.length)
    (hneg : ∀ s ∈ c.neg, ∀ t ∈ s.elems, t < cx.arena.length) :
    tupleClauseEmpty cx' empty' c = tupleClauseEmpty cx empty c := by
  obtain ⟨pos, neg⟩ := c
  cases pos with
  | nil => rfl
  | cons p ps =>
    obtain ⟨hp, hps⟩ := List.forall_mem_cons.mp hpos
    obtain ⟨hmeet, hknows⟩ := h.tuple_meet (knows_map_descr p.elems) hps
    have hnegs : (neg.filter fun n => n.elems.length = p.elems.length).map
        (fun n => n.elems.map cx'.descr) =
        (neg.filter fun n => n.elems.length = p.elems.length).map
          (fun n => n.elems.map cx.descr) :=
      List.map_congr_left fun n hn => h.map_descr (hneg n (List.mem_of_mem_filter hn))
    simp only [tupleClauseEmpty, h.map_descr hp, hmeet, hnegs]
    split
    · rfl
    · refine h.phiTuple_eq hknows fun n hn => ?_
      obtain ⟨s, _, rfl⟩ := List.mem_map.mp hn
      exact knows_map_descr s.elems

/-! ## Lists -/

/-- The evidence about the elements names types of the arena. -/
def KnownEvidence (cx : TyCtx) : ElemEvidence → Prop
  | .inhabited d => cx.Knows d
  | _ => True

omit h in
theorem knownEvidence_meet {e : ElemEvidence} (he : KnownEvidence cx e) (elem : Option Ty) :
    KnownEvidence cx (e.meet cx empty elem) := by
  cases elem with
  | none => exact trivial
  | some t =>
    cases e with
    | unconstrained =>
      simp only [ElemEvidence.meet]
      split
      · exact trivial
      · exact cx.knows_descr t
    | empty => exact trivial
    | inhabited d =>
      simp only [ElemEvidence.meet]
      split
      · exact trivial
      · exact Descr.EachSig.intersect he (cx.knows_descr t)

theorem meet_eq {e : ElemEvidence} (he : KnownEvidence cx e) {elem : Option Ty}
    (helem : ∀ t, elem = some t → t < cx.arena.length) :
    e.meet cx' empty' elem = e.meet cx empty elem := by
  cases elem with
  | none => rfl
  | some t =>
    have hdescr := h.descr_eq (helem t rfl)
    cases e with
    | unconstrained => simp only [ElemEvidence.meet, hdescr, h.query _ (cx.knows_descr t)]
    | empty => rfl
    | inhabited d =>
      have hquery := h.query _ (Descr.EachSig.intersect he (cx.knows_descr t))
      simp only [ElemEvidence.meet, hdescr, hquery]

theorem foldl_meet_eq {ps : List ListSig} {e : ElemEvidence} (he : KnownEvidence cx e)
    (hps : ∀ p ∈ ps, ∀ t, p.elem = some t → t < cx.arena.length) :
    ps.foldl (fun e p => e.meet cx' empty' p.elem) e =
      ps.foldl (fun e p => e.meet cx empty p.elem) e ∧
    KnownEvidence cx (ps.foldl (fun e p => e.meet cx empty p.elem) e) := by
  induction ps generalizing e with
  | nil => exact ⟨rfl, he⟩
  | cons p ps ih =>
    obtain ⟨hp, hps⟩ := List.forall_mem_cons.mp hps
    rw [List.foldl_cons, List.foldl_cons, h.meet_eq he hp]
    exact ih (knownEvidence_meet he p.elem) hps

theorem listCuts_eq {elem : Descr} (helem : cx.Knows elem) {ns : List ListSig}
    (hns : ∀ n ∈ ns, ∀ t, n.elem = some t → t < cx.arena.length) (minus : List Descr) :
    listCuts cx' empty' elem ns minus = listCuts cx empty elem ns minus := by
  induction ns generalizing minus with
  | nil => rfl
  | cons n ns ih =>
    obtain ⟨hn, hns⟩ := List.forall_mem_cons.mp hns
    cases hcut : n.elem with
    | none => simp only [listCuts, hcut, ih hns]
    | some t =>
      have hmeet := helem.intersect (cx.knows_descr t)
      simp only [listCuts, hcut, h.descr_eq (hn t hcut), h.query _ hmeet,
        h.query _ (helem.diff hmeet), ih hns]

theorem listDenotation_eq {c : Conj ListSig}
    (hpos : ∀ s ∈ c.pos, ∀ t, s.elem = some t → t < cx.arena.length)
    (hneg : ∀ s ∈ c.neg, ∀ t, s.elem = some t → t < cx.arena.length) :
    listDenotation cx' empty' c = listDenotation cx empty c := by
  have hstart : KnownEvidence cx .unconstrained := trivial
  obtain ⟨hfold, hknown⟩ := h.foldl_meet_eq hstart hpos
  simp only [ listDenotation, hfold]
  generalize c.pos.foldl (fun (e : ElemEvidence) p => e.meet cx empty p.elem) .unconstrained = e
    at hknown
  cases e with
  | unconstrained => simp only [ElemEvidence.fragment, h.listCuts_eq Descr.EachSig.any hneg]
  | empty => rfl
  | inhabited d => simp only [ElemEvidence.fragment, h.listCuts_eq hknown hneg]

/-! ## Resources, functions and maps -/

theorem resourceClauseEmpty_eq {c : Conj ResourceSig}
    (hpos : ∀ s ∈ c.pos, s.payload < cx.arena.length)
    (hneg : ∀ s ∈ c.neg, s.payload < cx.arena.length) :
    resourceClauseEmpty cx' empty' c = resourceClauseEmpty cx empty c := by
  obtain ⟨pos, neg⟩ := c
  have hcut : ∀ {d : Descr}, cx.Knows d →
      (neg.any fun n => empty' (d.diff (cx'.descr n.payload))) =
        neg.any fun n => empty (d.diff (cx.descr n.payload)) := by
    intro d hd
    refine any_congr_mem fun n hn => ?_
    rw [h.descr_eq (hneg n hn), h.query _ (hd.diff (cx.knows_descr _))]
  cases pos with
  | nil =>
    simp only [resourceClauseEmpty, List.isEmpty_nil, Bool.not_true, Bool.false_and,
      hcut Descr.EachSig.any]
  | cons p ps =>
    obtain ⟨hp, hps⟩ := List.forall_mem_cons.mp hpos
    have hfold : ∀ {qs : List ResourceSig} {d : Descr}, cx.Knows d →
        (∀ q ∈ qs, q.payload < cx.arena.length) →
        qs.foldl (fun d q => d.intersect (cx'.descr q.payload)) d =
          qs.foldl (fun d q => d.intersect (cx.descr q.payload)) d ∧
        cx.Knows (qs.foldl (fun d q => d.intersect (cx.descr q.payload)) d) := by
      intro qs
      induction qs with
      | nil => exact fun hd _ => ⟨rfl, hd⟩
      | cons q qs ih =>
        intro d hd hqs
        obtain ⟨hq, hqs⟩ := List.forall_mem_cons.mp hqs
        rw [List.foldl_cons, List.foldl_cons, h.descr_eq hq]
        exact ih (hd.intersect (cx.knows_descr _)) hqs
    obtain ⟨heq, hknows⟩ := hfold (cx.knows_descr p.payload) hps
    simp only [resourceClauseEmpty, h.descr_eq hp, heq, h.query _ hknows, hcut hknows]

theorem litsDisjoint_eq {a b : ClosureLit} (ha : ∀ t ∈ a.captures, t < cx.arena.length)
    (hb : ∀ t ∈ b.captures, t < cx.arena.length) :
    litsDisjoint cx' empty' a b = litsDisjoint cx empty a b := by
  unfold litsDisjoint
  congr 1
  refine any_congr_mem fun ⟨x, y⟩ hp => ?_
  obtain ⟨hx, hy⟩ := List.of_mem_zip hp
  simp only [h.descr_eq (ha _ hx), h.descr_eq (hb _ hy),
    h.query _ ((cx.knows_descr _).intersect (cx.knows_descr _))]

theorem somePairDisjoint_eq {lits : List ClosureLit}
    (hlits : ∀ l ∈ lits, ∀ t ∈ l.captures, t < cx.arena.length) :
    somePairDisjoint cx' empty' lits = somePairDisjoint cx empty lits := by
  induction lits with
  | nil => rfl
  | cons a lits ih =>
    obtain ⟨ha, hlits⟩ := List.forall_mem_cons.mp hlits
    rw [somePairDisjoint, somePairDisjoint, ih hlits,
      any_congr_mem fun b hb => h.litsDisjoint_eq ha (hlits b hb)]

theorem litCovered_eq {p n : ClosureLit} (hp : ∀ t ∈ p.captures, t < cx.arena.length)
    (hn : ∀ t ∈ n.captures, t < cx.arena.length) :
    litCovered cx' empty' p n = litCovered cx empty p n := by
  unfold litCovered
  congr 1
  refine all_congr_mem fun ⟨x, y⟩ hq => ?_
  obtain ⟨hx, hy⟩ := List.of_mem_zip hq
  simp only [h.descr_eq (hp _ hx), h.descr_eq (hn _ hy),
    h.query _ ((cx.knows_descr _).diff (cx.knows_descr _))]

omit h in
theorem knows_arrowInput {s : ArrowSig} (hs : ∀ t ∈ s.args, t < cx.arena.length) :
    cx.Knows (arrowInput s) := Descr.EachSig.tupleOf hs

omit h in
theorem knows_pickedInputs (mask : Nat) {qs : List (ArrowSig × Nat)} {d : Descr} (hd : cx.Knows d)
    (hqs : ∀ x ∈ qs, (SigPred.naming (· < cx.arena.length)).arrow x.1) : cx.Knows (qs.foldl
      (fun d (pi, i) => if mask.testBit i then d.union (arrowInput pi) else d) d) := by
  induction qs generalizing d with
  | nil => exact hd
  | cons x qs ih =>
    obtain ⟨pi, i⟩ := x
    obtain ⟨hx, hqs⟩ := List.forall_mem_cons.mp hqs
    rw [List.foldl_cons]
    refine ih ?_ hqs
    dsimp only
    split
    · exact hd.union (knows_arrowInput hx.2.1)
    · exact hd

theorem pickedOutputs_eq (mask : Nat) {qs : List (ArrowSig × Nat)} {d : Descr} (hd : cx.Knows d)
    (hqs : ∀ x ∈ qs, (SigPred.naming (· < cx.arena.length)).arrow x.1) :
    qs.foldl (fun d (pi, i) => if mask.testBit i then d else d.intersect (cx'.descr pi.ret)) d =
      qs.foldl (fun d (pi, i) => if mask.testBit i then d else d.intersect (cx.descr pi.ret)) d ∧
    cx.Knows (qs.foldl
      (fun d (pi, i) => if mask.testBit i then d else d.intersect (cx.descr pi.ret)) d) := by
  induction qs generalizing d with
  | nil => exact ⟨rfl, hd⟩
  | cons x qs ih =>
    obtain ⟨pi, i⟩ := x
    obtain ⟨hx, hqs⟩ := List.forall_mem_cons.mp hqs
    rw [List.foldl_cons, List.foldl_cons]
    simp only [h.descr_eq hx.1]
    refine ih ?_ hqs
    split
    · exact hd
    · exact hd.intersect (cx.knows_descr _)

theorem maskCovered_eq {p : List ArrowSig} {neg : ArrowSig}
    (hp : ∀ s ∈ p, (SigPred.naming (· < cx.arena.length)).arrow s)
    (hneg : (SigPred.naming (· < cx.arena.length)).arrow neg) (mask : Nat) :
    maskCovered cx' empty' p neg mask = maskCovered cx empty p neg mask := by
  have hpicked : ∀ x ∈ p.zipIdx, (SigPred.naming (· < cx.arena.length)).arrow x.1 := by
    intro x hx
    exact hp x.1 (List.fst_mem_of_mem_zipIdx hx)
  obtain ⟨heq, hknows⟩ := h.pickedOutputs_eq mask Descr.EachSig.any hpicked
  simp only [maskCovered, heq, h.descr_eq hneg.1]
  have hinputs := knows_pickedInputs mask Descr.EachSig.none hpicked
  rw [h.query _ ((knows_arrowInput hneg.2.1).diff hinputs),
    h.query _ (hknows.diff (cx.knows_descr _))]

theorem funcClauseEmpty_eq {c : Conj ArrowSig}
    (hpos : ∀ s ∈ c.pos, (SigPred.naming (· < cx.arena.length)).arrow s)
    (hneg : ∀ s ∈ c.neg, (SigPred.naming (· < cx.arena.length)).arrow s) :
    funcClauseEmpty cx' empty' c = funcClauseEmpty cx empty c := by
  have hlits : ∀ {sigs : List ArrowSig},
      (∀ s ∈ sigs, (SigPred.naming (· < cx.arena.length)).arrow s) →
      ∀ l ∈ sigs.filterMap ArrowSig.lit, ∀ t ∈ l.captures, t < cx.arena.length := by
    intro sigs hsigs l hl
    obtain ⟨s, hs, hlit⟩ := List.mem_filterMap.mp hl
    exact (hsigs s hs).2.2 l hlit
  have hcaptured : (c.pos.filterMap ArrowSig.lit).any
      (fun lit => lit.captures.any fun t => empty' (cx'.descr t)) =
      (c.pos.filterMap ArrowSig.lit).any
        (fun lit => lit.captures.any fun t => empty (cx.descr t)) := by
    refine any_congr_mem fun l hl => any_congr_mem fun t ht => ?_
    rw [h.descr_eq (hlits hpos l hl t ht), h.query _ (cx.knows_descr t)]
  have hcovered : (c.neg.filterMap ArrowSig.lit).any
      (fun n => (c.pos.filterMap ArrowSig.lit).any fun p => litCovered cx' empty' p n) =
      (c.neg.filterMap ArrowSig.lit).any
        (fun n => (c.pos.filterMap ArrowSig.lit).any fun p => litCovered cx empty p n) :=
    any_congr_mem fun n hn => any_congr_mem fun p hp =>
      h.litCovered_eq (hlits hpos p hp) (hlits hneg n hn)
  have hmasks : (c.neg.filter fun n => n.lit.isNone).any
      (fun n => (List.range (2 ^ c.pos.length)).all fun mask =>
        maskCovered cx' empty' c.pos n mask) =
      (c.neg.filter fun n => n.lit.isNone).any
        (fun n => (List.range (2 ^ c.pos.length)).all fun mask =>
          maskCovered cx empty c.pos n mask) :=
    any_congr_mem fun n hn => all_congr_mem fun mask _ =>
      h.maskCovered_eq hpos (hneg n (List.mem_of_mem_filter hn)) mask
  simp only [funcClauseEmpty, hcaptured, hcovered, hmasks, h.somePairDisjoint_eq (hlits hpos)]

omit h in
theorem knows_mergeField {merged : List (MapKey × Descr)} (hm : ∀ x ∈ merged, cx.Knows x.2)
    (field : MapKey × Ty) : ∀ x ∈ mergeField cx merged field, cx.Knows x.2 := by
  intro x hx
  unfold mergeField at hx
  split at hx
  · obtain ⟨y, hy, rfl⟩ := List.mem_map.mp hx
    dsimp only
    split
    · exact (hm y hy).intersect (cx.knows_descr _)
    · exact hm y hy
  · rcases List.mem_append.mp hx with hx | hx
    · exact hm x hx
    · rw [List.mem_singleton.mp hx]
      exact cx.knows_descr _

theorem foldl_mergeField_eq {fields : List (MapKey × Ty)}
    (hfields : ∀ p ∈ fields, p.2 < cx.arena.length) {merged : List (MapKey × Descr)}
    (hm : ∀ x ∈ merged, cx.Knows x.2) :
    fields.foldl (mergeField cx') merged = fields.foldl (mergeField cx) merged ∧
      ∀ x ∈ fields.foldl (mergeField cx) merged, cx.Knows x.2 := by
  induction fields generalizing merged with
  | nil => exact ⟨rfl, hm⟩
  | cons field fields ih =>
    obtain ⟨hfield, hfields⟩ := List.forall_mem_cons.mp hfields
    have hone : mergeField cx' merged field = mergeField cx merged field := by
      simp only [mergeField, h.descr_eq hfield]
    rw [List.foldl_cons, List.foldl_cons, hone]
    exact ih hfields (knows_mergeField hm field)

omit h in
theorem knows_of_lookup {merged : List (MapKey × Descr)} (hm : ∀ x ∈ merged, cx.Knows x.2)
    {k : MapKey} {d : Descr} (hk : merged.lookup k = some d) : cx.Knows d := by
  induction merged with
  | nil => cases hk
  | cons x merged ih =>
    obtain ⟨key, e⟩ := x
    obtain ⟨hx, hm⟩ := List.forall_mem_cons.mp hm
    rw [List.lookup_cons] at hk
    split at hk
    · exact Option.some.inj hk ▸ hx
    · exact ih hm hk

theorem firstFields_eq {fields : List (MapKey × Ty)} (hp : ∀ f ∈ fields, f.2 < cx.arena.length) :
    (fields.map fun (k, t) => (k, cx'.descr t)) = (fields.map fun (k, t) => (k, cx.descr t)) ∧
      ∀ x ∈ fields.map fun (k, t) => (k, cx.descr t), cx.Knows x.2 := by
  constructor
  · refine List.map_congr_left ?_
    rintro ⟨k, t⟩ hx
    simp only [h.descr_eq (hp _ hx)]
  · intro x hx
    obtain ⟨y, _, rfl⟩ := List.mem_map.mp hx
    exact cx.knows_descr _

theorem mapClauseEmpty_eq {c : Conj MapSig}
    (hpos : ∀ s ∈ c.pos, ∀ p ∈ s.fields, p.2 < cx.arena.length)
    (hneg : ∀ s ∈ c.neg, ∀ p ∈ s.fields, p.2 < cx.arena.length) :
    mapClauseEmpty cx' empty' c = mapClauseEmpty cx empty c := by
  obtain ⟨pos, neg⟩ := c
  cases pos with
  | nil => rfl
  | cons p ps =>
    obtain ⟨hp, hps⟩ := List.forall_mem_cons.mp hpos
    obtain ⟨hfirst, hknows⟩ := h.firstFields_eq hp
    have hfold : ∀ {qs : List MapSig} {merged : List (MapKey × Descr)},
        (∀ q ∈ qs, ∀ x ∈ q.fields, x.2 < cx.arena.length) → (∀ x ∈ merged, cx.Knows x.2) →
        qs.foldl (fun m q => q.fields.foldl (mergeField cx') m) merged =
          qs.foldl (fun m q => q.fields.foldl (mergeField cx) m) merged ∧
        ∀ x ∈ qs.foldl (fun m q => q.fields.foldl (mergeField cx) m) merged, cx.Knows x.2 := by
      intro qs
      induction qs with
      | nil => exact fun _ hm => ⟨rfl, hm⟩
      | cons q qs ih =>
        intro merged hqs hm
        obtain ⟨hq, hqs⟩ := List.forall_mem_cons.mp hqs
        obtain ⟨heq, hm'⟩ := h.foldl_mergeField_eq hq hm
        rw [List.foldl_cons, List.foldl_cons, heq]
        exact ih hqs hm'
    obtain ⟨hmerged, hm⟩ := hfold hps hknows
    simp only [mapClauseEmpty, hfirst, hmerged]
    generalize ps.foldl (fun m q => q.fields.foldl (mergeField cx) m) _ = merged at hm
    rw [any_congr_mem fun x hx => h.query _ (hm x hx)]
    congr 2
    refine any_congr_mem fun n hn => ?_
    congr 1
    refine all_congr_mem ?_
    rintro ⟨k, t⟩ hx
    simp only [h.descr_eq (hneg n hn _ hx)]
    cases hlookup : merged.lookup k with
    | none => rfl
    | some d => exact h.query _ ((knows_of_lookup hm hlookup).diff (cx.knows_descr _))

/-! ## Descriptors -/

theorem isEmptyStep_eq {d : Descr} (hd : cx.Knows d) :
    d.isEmptyStep cx' empty' = d.isEmptyStep cx empty := by
  have htuples : d.tuples.all (tupleClauseEmpty cx' empty') =
      d.tuples.all (tupleClauseEmpty cx empty) :=
    all_congr_mem fun c hc => h.tupleClauseEmpty_eq (hd.tuples c hc).1 (hd.tuples c hc).2
  have hlists : d.lists.all (listClauseEmpty cx' empty') =
      d.lists.all (listClauseEmpty cx empty) := by
    refine all_congr_mem fun c hc => ?_
    rw [listClauseEmpty, listClauseEmpty, h.listDenotation_eq (hd.lists c hc).1 (hd.lists c hc).2]
  have hresources : d.resources.all (resourceClauseEmpty cx' empty') =
      d.resources.all (resourceClauseEmpty cx empty) :=
    all_congr_mem fun c hc => h.resourceClauseEmpty_eq (hd.resources c hc).1 (hd.resources c hc).2
  have hfuncs : d.funcs.all (funcClauseEmpty cx' empty') = d.funcs.all (funcClauseEmpty cx empty) :=
    all_congr_mem fun c hc => h.funcClauseEmpty_eq (hd.funcs c hc).1 (hd.funcs c hc).2
  have hmaps : d.maps.all (mapClauseEmpty cx' empty') = d.maps.all (mapClauseEmpty cx empty) :=
    all_congr_mem fun c hc => h.mapClauseEmpty_eq (hd.maps c hc).1 (hd.maps c hc).2
  rw [Descr.isEmptyStep, Descr.isEmptyStep, htuples, hlists, hresources, hfuncs, hmaps]

end SameQuery

omit h

theorem Extends.sameQuery (h : cx.Extends cx') (n : Nat) (inFlight : List Descr) :
    SameQuery cx cx' (Descr.isEmptyMemo cx n inFlight) (Descr.isEmptyMemo cx' n inFlight) := by
  induction n generalizing inFlight with
  | zero => exact ⟨h, fun _ _ => rfl⟩
  | succ n ih =>
    refine ⟨h, fun d hd => ?_⟩
    rw [Descr.isEmptyMemo, Descr.isEmptyMemo, (ih (d :: inFlight)).isEmptyStep_eq hd]

theorem Extends.isSubtype_descr (h : cx.Extends cx') {a b : Descr} (ha : cx.Knows a)
    (hb : cx.Knows b) : a.isSubtype cx' b = a.isSubtype cx b :=
  (h.sameQuery _ []).query _ (ha.diff hb)

theorem Extends.isSubtype_eq (h : cx.Extends cx') {a b : Ty} (ha : a < cx.arena.length)
    (hb : b < cx.arena.length) : cx'.isSubtype a b = cx.isSubtype a b := by
  rw [isSubtype, isSubtype, h.descr_eq ha, h.descr_eq hb,
    h.isSubtype_descr (cx.knows_descr a) (cx.knows_descr b)]

end TyCtx

theorem Types.union_grows (types : Types) (order : ClauseOrder) (rounds : Nat) {a b : Ty}
    (ha : a < types.cx.arena.length) (hb : b < types.cx.arena.length) :
    ∃ t s, types.union order rounds a b = .ok (t, s) ∧ t < s.cx.arena.length ∧
      types.cx.Extends s.cx := by
  unfold union
  split
  · exact ⟨a, ⟨types, []⟩, rfl, ha, List.prefix_rfl⟩
  · split
    · exact ⟨b, ⟨types, []⟩, rfl, hb, List.prefix_rfl⟩
    · split
      · exact ⟨a, ⟨types, []⟩, rfl, ha, List.prefix_rfl⟩
      · have hknows : types.cx.Knows ((types.cx.descr a).union (types.cx.descr b)) :=
          (types.cx.knows_descr a).union (types.cx.knows_descr b)
        obtain ⟨t, s, hrun, hlt, hext, _⟩ := types.intern_spec order rounds hknows
        exact ⟨t, s, hrun, hlt, hext⟩

end Fz.Types
