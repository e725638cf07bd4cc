import Fz.Types.PointsExact

/-!
# Arrow emptiness is exact

A clause of arrows without closure literals is empty exactly when no finite relation respects all
its positive arrows and none of its negative ones.  A relation that fails a negative arrow has a
call with arguments of that arrow and a result outside it, and every positive arrow that accepts the
arguments has the result.  The loop over the subsets of the positive arrows decides whether there is
such a call (`masks_iff`): the subset to look at is the one of the arrows that do not accept the
arguments.  The calls for the negative arrows together are a relation.
-/

namespace Fz.Types

open Fz.Base

variable {cx : TyCtx} {r : Nat} {empty : Descr → Bool}

/-- The argument lists of an arrow. -/
def ArrowSig.inputs (cx : TyCtx) (s : ArrowSig) : Set (List Point) :=
  listProd (s.args.map cx.points)

/-- An arrow without a closure literal over named types of rank below `r`. -/
structure ArrowBelow (cx : TyCtx) (r : Nat) (s : ArrowSig) : Prop where
  litFree : s.lit = none
  ret : NamedBelow cx r (cx.descr s.ret)
  args : ∀ t ∈ s.args, NamedBelow cx r (cx.descr t)
  args_lt : ∀ t ∈ s.args, t < r

/-! ## Picking arrows -/

/-- A join of argument tuples: those of `inputs`, under any brand. -/
structure JoinOf (cx : TyCtx) (r : Nat) (inputs : Set (List Point)) (d : Descr) : Prop where
  simple : Simple cx d
  rank_le : d.rank ≤ r
  funcs : d.funcs = []
  slot : d.looksEmpty = true ∨ d.brands = .any
  mem_iff : ∀ p, p ∈ d.points cx ↔ ∃ vs, p.shape = .tuple vs ∧ vs ∈ inputs

theorem simple_arrowInput {s : ArrowSig} (hs : ArrowBelow cx r s) : Simple cx (arrowInput s) :=
  .tupleOf fun t ht => ⟨(hs.args t ht).slot, (hs.args t ht).simple⟩

theorem rank_arrowInput_le {s : ArrowSig} (hs : ∀ t ∈ s.args, t < r) : (arrowInput s).rank ≤ r :=
  Descr.rank_le_iff_eachSig.mpr (.tupleOf hs)

theorem JoinOf.none : JoinOf cx r ∅ Descr.none where
  simple := .none
  rank_le := Nat.zero_le _
  funcs := rfl
  slot := .inl rfl
  mem_iff p := by
    have hnone : Descr.none.points cx = ∅ := Descr.points_of_looksEmpty rfl
    simp [hnone]

theorem JoinOf.union {inputs : Set (List Point)} {d : Descr} {s : ArrowSig}
    (h : JoinOf cx r inputs d) (hs : ArrowBelow cx r s) :
    JoinOf cx r (inputs ∪ s.inputs cx) (d.union (arrowInput s)) where
  simple := h.simple.union (simple_arrowInput hs)
  rank_le := (Descr.rank_union_le _ _).trans (Nat.max_le.mpr
    ⟨h.rank_le, rank_arrowInput_le hs.args_lt⟩)
  funcs := funcs_union_arrowInput h.funcs
  slot := slot_union_arrowInput h.slot
  mem_iff p := by
    rw [Descr.points_union (slotsAgree_arrowInput h.slot), Set.mem_union, h.mem_iff,
      arrowInput, Descr.mem_points_tupleOf, ← exists_or]
    exact exists_congr fun vs => and_or_left.symm

theorem joinOf_picked {p : List ArrowSig} (hp : ∀ s ∈ p, ArrowBelow cx r s) (mask : Nat) :
    ∀ (qs : List (ArrowSig × Nat)) (inputs : Set (List Point)) (d : Descr),
      (∀ q ∈ qs, q.1 ∈ p) → JoinOf cx r inputs d →
      JoinOf cx r (inputs ∪ {vs | ∃ q ∈ qs, mask.testBit q.2 = true ∧ vs ∈ q.1.inputs cx})
        (qs.foldl (fun d (pi, i) => if mask.testBit i then d.union (arrowInput pi) else d) d) := by
  intro qs
  induction qs with
  | nil =>
    intro inputs d _ h
    simpa using h
  | cons q qs ih =>
    intro inputs d hqs h
    have hrest := fun q hq => hqs q (.tail _ hq)
    rw [List.foldl_cons]
    dsimp only
    split
    · rename_i hbit
      have hnext := ih _ _ hrest (h.union (hp _ (hqs q (.head _))))
      rw [Set.union_assoc] at hnext
      refine cast ?_ hnext
      congr 2
      ext vs
      simp [hbit]
    · rename_i hbit
      refine cast ?_ (ih _ _ hrest h)
      congr 2
      ext vs
      simp [hbit]

theorem meet_unpicked {p : List ArrowSig} (hp : ∀ s ∈ p, ArrowBelow cx r s) (mask : Nat) :
    ∀ (qs : List (ArrowSig × Nat)) (d : Descr), (∀ q ∈ qs, q.1 ∈ p) → SimpleBelow cx r d →
      SimpleBelow cx r (qs.foldl (fun d (pi, i) =>
          if mask.testBit i then d else d.intersect (cx.descr pi.ret)) d) ∧
        ∀ v, v ∈ (qs.foldl (fun d (pi, i) =>
          if mask.testBit i then d else d.intersect (cx.descr pi.ret)) d).points cx ↔
          v ∈ d.points cx ∧ ∀ q ∈ qs, mask.testBit q.2 = false → v ∈ cx.points q.1.ret := by
  intro qs
  induction qs with
  | nil =>
    intro d _ hd
    exact ⟨hd, by simp⟩
  | cons q qs ih =>
    intro d hqs hd
    have hrest := fun q hq => hqs q (.tail _ hq)
    rw [List.foldl_cons]
    dsimp only
    split
    · rename_i hbit
      obtain ⟨hlow, hmem⟩ := ih d hrest hd
      refine ⟨hlow, fun v => ?_⟩
      rw [hmem, List.forall_mem_cons, hbit]
      simp
    · rename_i hbit
      obtain ⟨hlow, hmem⟩ := ih _ hrest (hd.intersect (hp _ (hqs q (.head _))).ret.toSimpleBelow)
      refine ⟨hlow, fun v => ?_⟩
      rw [Bool.not_eq_true] at hbit
      rw [hmem, List.forall_mem_cons, hbit, Descr.points_intersect, Set.mem_inter_iff, and_assoc]
      simp only [forall_const]
      rfl

/-! ## Masks -/

theorem maskCovered_iff (hex : ExactBelow cx r empty) (hat : ExactAt cx r empty)
    {p : List ArrowSig} {neg : ArrowSig} (hp : ∀ s ∈ p, ArrowBelow cx r s)
    (hneg : ArrowBelow cx r neg) (mask : Nat) : maskCovered cx empty p neg mask = true ↔
      (∀ args ∈ neg.inputs cx, ∃ q ∈ p.zipIdx, mask.testBit q.2 = true ∧ args ∈ q.1.inputs cx) ∨
      ∀ v, (∀ q ∈ p.zipIdx, mask.testBit q.2 = false → v ∈ cx.points q.1.ret) →
        v ∈ cx.points neg.ret := by
  have hpick : ∀ q ∈ p.zipIdx, q.1 ∈ p := by
    intro q hq
    obtain ⟨-, hlt, heq⟩ := List.mem_zipIdx hq
    rw [heq]
    exact List.getElem_mem _
  have hr : 0 < r := Nat.zero_lt_of_lt hneg.ret.rank_lt
  have hjoin := joinOf_picked hp mask p.zipIdx _ _ hpick .none
  obtain ⟨hlow, hmeet⟩ := meet_unpicked hp mask p.zipIdx Descr.any hpick (.any hr)
  rw [Set.empty_union] at hjoin
  rw [maskCovered, Bool.or_eq_true]
  refine or_congr ?_ ?_
  · rw [hat _ ((simple_arrowInput hneg).diff hjoin.simple)
        ((Descr.rank_diff_le _ _).trans (Nat.max_le.mpr
          ⟨rank_arrowInput_le hneg.args_lt, hjoin.rank_le⟩)) (funcs_diff_of_nil rfl),
      Descr.points_diff_eq_empty_iff]
    constructor
    · intro hsub args hargs
      have hmem := hsub (Descr.mem_points_tupleOf (p := .mk none (.tuple args)).mpr
        ⟨args, rfl, hargs⟩)
      obtain ⟨vs, hvs, hin⟩ := (hjoin.mem_iff _).mp hmem
      cases hvs
      exact hin
    · intro h v hv
      obtain ⟨vs, hvs, hin⟩ := Descr.mem_points_tupleOf.mp hv
      exact (hjoin.mem_iff v).mpr ⟨vs, hvs, h vs hin⟩
  · rw [hex.diff_iff hlow hneg.ret.toSimpleBelow]
    refine forall_congr' fun v => imp_congr ?_ Iff.rfl
    rw [hmeet, Descr.points_any]
    exact and_iff_right (Set.mem_univ v)

/-- All masks are covered when every call with arguments of the negative arrow that the positive
arrows allow has a result of it. -/
theorem masks_iff (hex : ExactBelow cx r empty) (hat : ExactAt cx r empty)
    {p : List ArrowSig} {neg : ArrowSig} (hp : ∀ s ∈ p, ArrowBelow cx r s)
    (hneg : ArrowBelow cx r neg) :
    ((List.range (2 ^ p.length)).all fun mask => maskCovered cx empty p neg mask) = true ↔
      ∀ args res, args ∈ neg.inputs cx →
        (∀ s ∈ p, args ∈ s.inputs cx → res ∈ cx.points s.ret) → res ∈ cx.points neg.ret := by
  rw [List.all_eq_true]
  constructor
  · intro h args res hargs hres
    classical
    let bits : Fin p.length → Bool := fun i => decide (args ∉ (p.get i).inputs cx)
    have hbit : ∀ q ∈ p.zipIdx, q.1 ∈ p ∧
        ((Nat.ofBits bits).testBit q.2 = true ↔ args ∉ q.1.inputs cx) := by
      intro q hq
      obtain ⟨-, hlt, heq⟩ := List.mem_zipIdx hq
      simp only [Nat.zero_add, Nat.sub_zero] at hlt heq
      rw [Nat.testBit_ofBits_lt bits q.2 hlt, heq, decide_eq_true_eq]
      exact ⟨List.getElem_mem hlt, Iff.rfl⟩
    have hmask := h (Nat.ofBits bits) (List.mem_range.mpr (Nat.ofBits_lt_two_pow bits))
    rw [maskCovered_iff hex hat hp hneg] at hmask
    rcases hmask with hin | hout
    · obtain ⟨q, hq, hpicked, hacc⟩ := hin args hargs
      exact absurd hacc ((hbit q hq).2.mp hpicked)
    · refine hout res fun q hq hunpicked => ?_
      obtain ⟨hmem, hiff⟩ := hbit q hq
      refine hres q.1 hmem ?_
      by_contra hno
      rw [hiff.mpr hno] at hunpicked
      exact nomatch hunpicked
  · intro h mask _
    rw [maskCovered_iff hex hat hp hneg]
    by_contra hne
    push Not at hne
    obtain ⟨⟨args, hargs, hout⟩, res, hres, hno⟩ := hne
    refine hno (h args res hargs fun s hs hacc => ?_)
    obtain ⟨i, hi, rfl⟩ := List.getElem_of_mem hs
    have hq : (p[i], i) ∈ p.zipIdx := List.mem_zipIdx_iff_getElem?.mpr (List.getElem?_eq_getElem hi)
    have hunpicked : mask.testBit i = false := by
      rw [← Bool.not_eq_true]
      exact fun hbit => hout (p[i], i) hq hbit hacc
    exact hres (p[i], i) hq hunpicked

/-! ## Clauses -/

theorem exists_graph {ns : List ArrowSig} {P : List Point × Point → Prop}
    (h : ∀ n ∈ ns, ∃ call, P call ∧ call.1 ∈ n.inputs cx ∧ call.2 ∉ cx.points n.ret) :
    ∃ graph : List (List Point × Point), (∀ call ∈ graph, P call) ∧
      ∀ n ∈ ns, ¬n.Respects cx.points graph := by
  induction ns with
  | nil => exact ⟨[], fun _ h => (nomatch h), fun _ h => (nomatch h)⟩
  | cons n ns ih =>
    obtain ⟨call, hcall, hin, hout⟩ := h n (.head _)
    obtain ⟨graph, hgraph, hrest⟩ := ih fun m hm => h m (.tail _ hm)
    refine ⟨call :: graph, List.forall_mem_cons.mpr ⟨hcall, hgraph⟩,
      List.forall_mem_cons.mpr ⟨fun hres => hout (hres call (.head _) hin), fun m hm hres => ?_⟩⟩
    exact hrest m hm fun call' hc => hres call' (.tail _ hc)

theorem funcs_empty_iff (hex : ExactBelow cx r empty) (hat : ExactAt cx r empty)
    {c : Conj ArrowSig} (hpos : ∀ s ∈ c.pos, ArrowBelow cx r s)
    (hneg : ∀ s ∈ c.neg, ArrowBelow cx r s) : funcClauseEmpty cx empty c = true ↔
      ∀ graph, ¬c.Holds (ArrowSig.Respects cx.points graph) := by
  have hlits : ∀ l : List ArrowSig, (∀ s ∈ l, ArrowBelow cx r s) →
      l.filterMap ArrowSig.lit = [] := by
    intro l hl
    rw [List.filterMap_eq_nil_iff]
    exact fun s hs => (hl s hs).litFree
  have hfilter : c.neg.filter (fun n => n.lit.isNone) = c.neg := by
    rw [List.filter_eq_self]
    intro n hn
    rw [(hneg n hn).litFree]
    rfl
  rw [funcClauseEmpty, hlits _ hpos, hlits _ hneg, hfilter]
  simp only [List.any_nil, Bool.false_eq_true, ↓reduceIte, somePairDisjoint]
  rw [List.any_eq_true]
  constructor
  · rintro ⟨n, hn, hmasks⟩ graph ⟨hp, hno⟩
    rw [masks_iff hex hat hpos (hneg n hn)] at hmasks
    refine hno n hn fun call hcall hargs => hmasks call.1 call.2 hargs fun s hs hacc => ?_
    exact hp s hs call hcall hacc
  · intro h
    by_contra hne
    push Not at hne
    have hcalls : ∀ n ∈ c.neg, ∃ call : List Point × Point,
        (∀ s ∈ c.pos, call.1 ∈ s.inputs cx → call.2 ∈ cx.points s.ret) ∧
          call.1 ∈ n.inputs cx ∧ call.2 ∉ cx.points n.ret := by
      intro n hn
      have hmasks := hne n hn
      rw [ne_eq, masks_iff hex hat hpos (hneg n hn)] at hmasks
      push Not at hmasks
      obtain ⟨args, res, hargs, hres, hout⟩ := hmasks
      exact ⟨(args, res), hres, hargs, hout⟩
    obtain ⟨graph, hall, hno⟩ := exists_graph hcalls
    exact h graph ⟨fun s hs call hcall => hall call hcall s hs, hno⟩

end Fz.Types
