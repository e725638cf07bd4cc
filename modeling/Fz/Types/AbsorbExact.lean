import Fz.Types.AxisSound
import Fz.Types.DominanceOrder

/-!
# Absorption agrees with the subtyping query

An axis settles most containments between its clauses from the signatures alone.  On the points of
simple types its verdicts are right in both directions, so the outcome is what the subtyping query
says: of a clause and the clauses beside it (`AxisView.Exact.clauseIsCovered_eq`), and of the whole
axis (`AxisView.Exact.axisIsTop_eq`).  The verdicts are for clauses that were swept, so that a
tuple, a payload or a field of a plain clause has points to put there.

Dropping a clause that the others cover keeps the values of an axis, and this may be done to the
clauses in any order (`Drop`).
-/

set_option linter.dupNamespace false

namespace Fz.Types

open Fz.Base

variable {cx : TyCtx} {d : Descr}

/-! ## Full types -/

namespace FiniteSet

theorem isAny_iff {T : Type} [DecidableEq T] [Infinite T] (s : FiniteSet T) :
    s.isAny = true ↔ ∀ x, s.contains x = true := by
  have hneg : s.isAny = s.neg.isNone := by
    rw [isAny, isNone, neg, Bool.not_not]
  rw [hneg, isNone_iff]
  simp only [contains_neg, Bool.not_eq_false']

end FiniteSet

variable {T : Type}

theorem holds_of_isDnfTop {m : T → Prop} {dnf : List (Conj T)}
    (h : isDnfTop dnf = true) : DnfHolds m dnf := by
  match dnf, h with
  | [c], hc =>
    simp only [isDnfTop, Conj.isTop, Bool.and_eq_true, List.isEmpty_iff] at hc
    exact ⟨c, .head _, by simp [Conj.Holds, hc]⟩

namespace Descr

theorem points_of_looksFull (h : d.looksFull = true) : d.points cx = Set.univ := by
  simp only [looksFull, Bool.and_eq_true, decide_eq_true_eq] at h
  obtain ⟨⟨⟨⟨⟨⟨⟨⟨⟨hbasic, hatoms⟩, hopaques⟩, hbrands⟩, hvars⟩, htuples⟩, hlists⟩, hres⟩,
    hfuncs⟩, hmaps⟩ := h
  have hslot : d.brands = .any := by
    simp only [FiniteSet.isAny, Bool.and_eq_true, decide_eq_true_eq] at hbrands
    exact congrArg₂ FiniteSet.mk hbrands.2 hbrands.1
  refine Set.eq_univ_of_forall fun p => mem_points.mpr ⟨?_, ?_⟩
  · rw [hslot]
    exact admits_any _
  · cases p.shape with
    | int n => simp [PointShape.In, hbasic, BasicBits.all]
    | float bits => simp [PointShape.In, hbasic, BasicBits.all]
    | binary bits => simp [PointShape.In, hbasic, BasicBits.all]
    | atom name => exact (FiniteSet.isAny_iff _).mp hatoms name
    | opaqueOf tag => exact (FiniteSet.isAny_iff _).mp hopaques tag
    | var id => exact (FiniteSet.isAny_iff _).mp hvars id
    | tuple vs => exact holds_of_isDnfTop htuples
    | list vs => exact holds_of_isDnfTop hlists
    | resource v vs => exact holds_of_isDnfTop hres
    | map tag fields => exact holds_of_isDnfTop hmaps
    | fn graph => exact holds_of_isDnfTop hfuncs

end Descr

theorem Simple.isFull_iff (hd : Simple cx d) : d.isFull cx = true ↔ d.points cx = Set.univ := by
  rw [Descr.isFull]
  split
  · rename_i hfull
    exact iff_of_true rfl (Descr.points_of_looksFull hfull)
  · dsimp only
    rw [Bool.and_eq_true, Simple.any.isSubtype_iff hd, Descr.points_any, Set.univ_subset_iff]
    refine and_iff_right_of_imp fun hall => ?_
    have hin : ∀ brand (s : PointShape Point), admits d.brands brand = true ∧ s.In cx.points d := by
      intro brand s
      have hmem : Point.mk brand s ∈ d.points cx := hall ▸ Set.mem_univ _
      exact Descr.mem_points.mp hmem
    have hshape := fun s => (hin Option.none s).2
    have hne : ∀ {T X : Type} {m : X → T → Prop} {dnf : List (Conj T)} (x : X),
        DnfHolds (m x) dnf → dnf.isEmpty = false := by
      rintro T X m dnf x ⟨c, hc, -⟩
      exact List.isEmpty_eq_false_iff.mpr (List.ne_nil_of_mem hc)
    have hbrands : d.brands.isAny = true :=
      (FiniteSet.isAny_iff _).mpr fun b => (hin (some b) (.int 0)).1
    have hbasic : d.basic = .all := by
      have hint := hshape (.int 0)
      have hfloat := hshape (.float 0)
      have hbinary := hshape (.binary [])
      rcases hbits : d.basic with ⟨binary, int, float⟩
      simp only [PointShape.In, hbits] at hint hfloat hbinary
      rw [hint, hfloat, hbinary]
      rfl
    simp only [Bool.and_eq_true, Bool.not_eq_true', decide_eq_true_eq]
    exact ⟨⟨⟨⟨⟨⟨⟨⟨⟨hbasic, (FiniteSet.isAny_iff _).mpr fun name => hshape (.atom name)⟩,
      (FiniteSet.isAny_iff _).mpr fun tag => hshape (.opaqueOf tag)⟩, hbrands⟩,
      (FiniteSet.isAny_iff _).mpr fun id => hshape (.var id)⟩, hne [] (hshape (.tuple []))⟩,
      hne [] (hshape (.list []))⟩, hne _ (hshape (.resource (.mk Option.none (.int 0)) []))⟩,
      hne [] (hshape (.fn []))⟩, hne _ (hshape (.map .plain fun _ => []))⟩

/-! ## Exact axes -/

/-- A clause that the sweeps before absorption leave: it is not empty, and the types it names are
not, if it is plain. -/
def Swept {T : Type} (cx : TyCtx) (view : AxisView T) (names : (Ty → Prop) → T → Prop)
    (c : Conj T) : Prop :=
  (axisOf view [c]).isEmpty cx = false ∧
    ∀ sig, plainSig c = some sig → names (fun t => (cx.descr t).isEmpty cx = false) sig

/-- An axis read by its points: the shapes that `shape` makes, where `m x` is what the signatures
say of `x`.  On simple types its rules are right, and they answer `notCovered` only where nothing
covers. -/
structure AxisView.Exact {T X : Type} (view : AxisView T) (cx : TyCtx)
    (names : (Ty → Prop) → T → Prop) (shape : X → PointShape Point) (m : X → T → Prop) : Prop where
  simple : ∀ cs, Each (names (Simple.Part cx)) cs → Simple cx (axisOf view cs)
  mem_points : ∀ cs p, p ∈ (axisOf view cs).points cx ↔ ∃ x, p.shape = shape x ∧ DnfHolds (m x) cs
  shape_inj : Function.Injective shape
  clauseCovers : ∀ wider narrower, Each (names (Simple.Part cx)) [wider, narrower] →
    view.clauseCovers cx.isSubtype wider narrower = true →
    ∀ x, narrower.Holds (m x) → wider.Holds (m x)
  covered : ∀ c siblings, Each (names (Simple.Part cx)) (c :: siblings) →
    view.coverage cx cx.isSubtype c siblings = .covered →
    ∀ x, c.Holds (m x) → DnfHolds (m x) siblings
  notCovered : ∀ c siblings, Each (names (Simple.Part cx)) (c :: siblings) →
    Swept cx view names c → view.coverage cx cx.isSubtype c siblings = .notCovered →
    (∀ x, c.Holds (m x) → DnfHolds (m x) siblings) →
    ∃ s ∈ siblings, view.clauseCovers cx.isSubtype s c = true
  plainTop_covered : ∀ cs sigs, Each (names (Simple.Part cx)) cs → plainSigs cs = some sigs →
    view.plainTop cx sigs = .covered → ∀ x, ∃ sig ∈ sigs, m x sig
  plainTop_notCovered : ∀ cs sigs, Each (names (Simple.Part cx)) cs → plainSigs cs = some sigs →
    view.plainTop cx sigs = .notCovered → ∃ x, ∀ sig ∈ sigs, ¬m x sig

theorem Each.singleton_head {P : T → Prop} {c : Conj T} {cs : List (Conj T)}
    (h : Each P (c :: cs)) : Each P [c] :=
  h.of_subset fun _ hc => List.mem_singleton.mp hc ▸ .head _

theorem Each.tail {P : T → Prop} {c : Conj T} {cs : List (Conj T)}
    (h : Each P (c :: cs)) : Each P cs :=
  h.of_subset fun _ hc => .tail _ hc

theorem each_top {P : T → Prop} : Each P [Conj.top] := by
  simp [Each, Conj.top]

theorem holds_singleton {m : T → Prop} {c : Conj T} : DnfHolds m [c] ↔ c.Holds m := by
  simp [DnfHolds]

theorem eq_map_posOf_of_plainSigs {cs : List (Conj T)} : ∀ {sigs : List T},
    plainSigs cs = some sigs → cs = sigs.map .posOf := by
  induction cs with
  | nil =>
    intro sigs h
    cases h
    rfl
  | cons c cs ih =>
    intro sigs h
    rw [plainSigs] at h
    split at h
    · rename_i sig rest hsig hrest
      cases h
      rw [eq_posOf_of_plainSig hsig, ih hrest]
      rfl
    · cases h

theorem holds_map_posOf {m : T → Prop} {sigs : List T} :
    DnfHolds m (sigs.map .posOf) ↔ ∃ sig ∈ sigs, m sig := by
  simp only [DnfHolds, List.mem_map, exists_exists_and_eq_and, holds_posOf]

namespace AxisView.Exact

variable {T X : Type} {view : AxisView T} {names : (Ty → Prop) → T → Prop}
  {shape : X → PointShape Point} {m : X → T → Prop} (hv : view.Exact cx names shape m)
include hv

theorem isSubtype_iff {a b : List (Conj T)} (ha : Each (names (Simple.Part cx)) a)
    (hb : Each (names (Simple.Part cx)) b) : (axisOf view a).isSubtype cx (axisOf view b) = true ↔
      ∀ x, DnfHolds (m x) a → DnfHolds (m x) b := by
  rw [(hv.simple a ha).isSubtype_iff (hv.simple b hb)]
  constructor
  · intro h x hx
    have hin := h ((hv.mem_points a (.mk none (shape x))).mpr ⟨x, rfl, hx⟩)
    obtain ⟨y, hy, hholds⟩ := (hv.mem_points b _).mp hin
    rw [hv.shape_inj hy]
    exact hholds
  · intro h p hp
    obtain ⟨x, hx, hholds⟩ := (hv.mem_points a p).mp hp
    exact (hv.mem_points b p).mpr ⟨x, hx, h x hholds⟩

theorem isEmpty_iff {c : Conj T} (hc : Each (names (Simple.Part cx)) [c]) :
    (axisOf view [c]).isEmpty cx = true ↔ ∀ x, ¬c.Holds (m x) := by
  rw [(hv.simple _ hc).isEmpty_iff, Set.eq_empty_iff_forall_notMem]
  constructor
  · intro h x hx
    exact h _ ((hv.mem_points [c] (.mk none (shape x))).mpr ⟨x, rfl, holds_singleton.mpr hx⟩)
  · intro h p hp
    obtain ⟨x, -, hx⟩ := (hv.mem_points [c] p).mp hp
    exact h x (holds_singleton.mp hx)

theorem exists_of_swept {c : Conj T} (hc : Each (names (Simple.Part cx)) [c])
    (hs : Swept cx view names c) : ∃ x, c.Holds (m x) := by
  by_contra hno
  push Not at hno
  have hempty := hs.1
  rw [(hv.isEmpty_iff hc).mpr hno] at hempty
  exact nomatch hempty

theorem clauseIsCovered_eq {c : Conj T} {others : List (Conj T)}
    (hparts : Each (names (Simple.Part cx)) (c :: others)) (hs : Swept cx view names c) :
    clauseIsCovered cx view c others = (axisOf view [c]).isSubtype cx (axisOf view others) := by
  rw [Bool.eq_iff_iff, hv.isSubtype_iff hparts.singleton_head hparts.tail]
  simp only [holds_singleton]
  rw [clauseIsCovered]
  split
  · rename_i hnil
    obtain ⟨x, hx⟩ := hv.exists_of_swept hparts.singleton_head hs
    refine iff_of_false Bool.false_ne_true fun h => ?_
    obtain ⟨s, hmem, -⟩ := h x hx
    rw [List.isEmpty_iff.mp hnil] at hmem
    cases hmem
  split
  · rename_i hany
    obtain ⟨s, hmem, hcov⟩ := List.any_eq_true.mp hany
    have hpair : Each (names (Simple.Part cx)) [s, c] := hparts.of_subset fun x hx => by
      rcases List.mem_pair.mp hx with rfl | rfl
      · exact .tail _ hmem
      · exact .head _
    exact iff_of_true rfl fun x hx => ⟨s, hmem, hv.clauseCovers s c hpair hcov x hx⟩
  · rename_i hnone
    split
    · rename_i hcov
      exact iff_of_true rfl (hv.covered c others hparts hcov)
    · rename_i hcov
      refine iff_of_false Bool.false_ne_true fun h => hnone ?_
      exact List.any_eq_true.mpr (hv.notCovered c others hparts hs hcov h)
    · rw [hv.isSubtype_iff hparts.singleton_head hparts.tail]
      simp only [holds_singleton]

theorem axisIsTop_eq {cs : List (Conj T)} (hparts : Each (names (Simple.Part cx)) cs) :
    axisIsTop cx view cs = axisCoversItsTop cx view cs := by
  rw [Bool.eq_iff_iff, axisCoversItsTop, hv.isSubtype_iff each_top hparts]
  have htop : (∀ x, DnfHolds (m x) [Conj.top] → DnfHolds (m x) cs) ↔ ∀ x, DnfHolds (m x) cs :=
    forall_congr' fun x => forall_prop_of_true ⟨_, .head _, holds_top⟩
  rw [htop, axisIsTop]
  split
  · rename_i hany
    obtain ⟨c, hc, hfree⟩ := List.any_eq_true.mp hany
    simp only [Conj.isTop, Bool.and_eq_true, List.isEmpty_iff] at hfree
    exact iff_of_true rfl fun x => ⟨c, hc, by simp [Conj.Holds, hfree]⟩
  · dsimp only
    cases hsigs : plainSigs cs with
    | none =>
      dsimp only
      rw [axisCoversItsTop, hv.isSubtype_iff each_top hparts, htop]
    | some sigs =>
      have hholds : ∀ x, DnfHolds (m x) cs ↔ ∃ sig ∈ sigs, m x sig := by
        intro x
        rw [eq_map_posOf_of_plainSigs hsigs, holds_map_posOf]
      dsimp only
      cases hplain : view.plainTop cx sigs with
      | covered =>
        exact iff_of_true rfl fun x =>
          (hholds x).mpr (hv.plainTop_covered cs sigs hparts hsigs hplain x)
      | notCovered =>
        obtain ⟨x, hno⟩ := hv.plainTop_notCovered cs sigs hparts hsigs hplain
        refine iff_of_false Bool.false_ne_true fun h => ?_
        obtain ⟨sig, hsig, hx⟩ := (hholds x).mp (h x)
        exact hno sig hsig hx
      | unproven =>
        dsimp only
        rw [axisCoversItsTop, hv.isSubtype_iff each_top hparts, htop]

end AxisView.Exact

/-! ## The four axes -/

namespace Simple.Part

variable {a b : Ty}

theorem isSubtype_iff (ha : Simple.Part cx a) (hb : Simple.Part cx b) :
    cx.isSubtype a b = true ↔ cx.points a ⊆ cx.points b :=
  TyCtx.isSubtype_iff_points ha.2 hb.2

theorem points_nonempty (ha : Simple.Part cx a) (h : (cx.descr a).isEmpty cx = false) :
    (cx.points a).Nonempty := by
  rw [Set.nonempty_iff_ne_empty, ne_eq, TyCtx.points, ← ha.2.isEmpty_iff, h]
  exact Bool.false_ne_true

end Simple.Part

theorem foldl_union_spec {S : Type} {f : S → Descr} {l : List S} (hf : ∀ s ∈ l, Simple cx (f s)) :
    ∀ acc, Simple cx acc → Simple cx (l.foldl (fun acc s => acc.union (f s)) acc) ∧
      ∀ p, (p ∈ acc.points cx ∨ ∃ s ∈ l, p ∈ (f s).points cx) →
        p ∈ (l.foldl (fun acc s => acc.union (f s)) acc).points cx := by
  have hunion : ∀ {a b : Descr} {p : Point}, p ∈ a.points cx ∨ p ∈ b.points cx →
      p ∈ (a.union b).points cx := by
    intro a b p h
    simp only [Descr.mem_points] at h ⊢
    exact (Descr.structural_point _ _).mem_union_of_mem h
  induction l with
  | nil =>
    intro acc hacc
    exact ⟨hacc, fun p hp => hp.resolve_right fun ⟨_, h, _⟩ => nomatch h⟩
  | cons s l ih =>
    intro acc hacc
    obtain ⟨hsimple, hmem⟩ := ih (fun s' hs' => hf s' (.tail _ hs')) (acc.union (f s))
      (hacc.union (hf s (.head _)))
    refine ⟨hsimple, fun p hp => hmem p ?_⟩
    rcases hp with hp | ⟨s', hs', hp⟩
    · exact .inl (hunion (.inl hp))
    · rcases List.mem_cons.mp hs' with rfl | hs'
      · exact .inl (hunion (.inr hp))
      · exact .inr ⟨s', hs', hp⟩

theorem each_true (cs : List (Conj T)) : Each (fun _ : T => True) cs :=
  fun _ _ => ⟨fun _ _ => trivial, fun _ _ => trivial⟩

theorem each_nil {P : T → Prop} : Each P [] := fun _ hc => absurd hc List.not_mem_nil

section Parts

variable {T : Type} {P : T → Prop} {c : Conj T} {cs : List (Conj T)} {sig : T} {sigs : List T}

theorem Each.of_plainSig (h : Each P (c :: cs)) (hsig : plainSig c = some sig) : P sig := by
  rw [eq_posOf_of_plainSig hsig] at h
  exact (h _ (.head _)).1 sig (.head _)

theorem Each.of_plainSigs (h : Each P cs) (hsigs : plainSigs cs = some sigs) :
    ∀ sig ∈ sigs, P sig := by
  intro sig hsig
  exact (h _ (posOf_mem_of_plainSigs hsigs sig hsig)).1 sig (.head _)

end Parts

/-! ### Tuples -/

theorem tupleCovers_of_subset {ours theirs : TupleSig} {c s : Conj TupleSig}
    (hours : ∀ t ∈ ours.elems, Simple.Part cx t) (htheirs : ∀ t ∈ theirs.elems, Simple.Part cx t)
    (hne : (listProd (ours.elems.map cx.points)).Nonempty) (hc : plainSig c = some ours)
    (hs : plainSig s = some theirs)
    (hsub : listProd (ours.elems.map cx.points) ⊆ listProd (theirs.elems.map cx.points)) :
    tupleCovers cx.isSubtype s c = true := by
  obtain ⟨hlen, hcoords⟩ := subset_of_listProd_subset hne hsub
  rw [List.length_map, List.length_map] at hlen
  rw [tupleCovers, hc, hs]
  simp only [Bool.or_eq_true, Bool.and_eq_true, decide_eq_true_eq, List.all_eq_true]
  refine .inr ⟨hlen, fun ⟨x, y⟩ hxy => ?_⟩
  obtain ⟨k, hk⟩ := List.mem_iff_getElem?.mp hxy
  obtain ⟨hx, hy⟩ := List.getElem?_zip_eq_some.mp hk
  rw [(hours x (List.mem_of_getElem? hx)).isSubtype_iff (htheirs y (List.mem_of_getElem? hy))]
  exact hcoords k _ _ (by rw [List.getElem?_map, hx]; rfl) (by rw [List.getElem?_map, hy]; rfl)

/-- Every coordinate of a covered product is inside the join of that coordinate. -/
theorem positionwiseGate_notCovered {ours : TupleSig} {theirs : List TupleSig}
    (hours : ∀ t ∈ ours.elems, Simple.Part cx t)
    (htheirs : ∀ s ∈ theirs, ∀ t ∈ s.elems, Simple.Part cx t)
    (hne : (listProd (ours.elems.map cx.points)).Nonempty)
    (hgate : positionwiseGate cx ours.elems (theirs.map TupleSig.elems) = .notCovered)
    (hcov : ∀ vs, ours.Has cx.points vs → ∃ s ∈ theirs, s.Has cx.points vs) :
    theirs.length = 1 := by
  rw [positionwiseGate] at hgate
  split at hgate
  · rename_i hany
    exfalso
    obtain ⟨⟨x, k⟩, hmem, hout⟩ := List.any_eq_true.mp hany
    have hx : ours.elems[k]? = some x := by
      obtain ⟨-, hlt, heq⟩ := List.mem_zipIdx hmem
      simp only [Nat.zero_add, Nat.sub_zero] at hlt heq
      rw [heq, List.getElem?_eq_getElem hlt]
    have hpart := hours x (List.mem_of_getElem? hx)
    dsimp only at hout
    generalize hsame : (theirs.map TupleSig.elems).filter
      (fun sibling => sibling.length = ours.elems.length) = same at hout
    have hin : ∀ elems ∈ same, ∃ s ∈ theirs, s.elems = elems ∧
        elems.length = ours.elems.length := by
      intro elems he
      rw [← hsame, List.mem_filter, decide_eq_true_eq] at he
      obtain ⟨s, hs, rfl⟩ := List.mem_map.mp he.1
      exact ⟨s, hs, rfl, he.2⟩
    have hk : k < ours.elems.length := (List.getElem?_eq_some_iff.mp hx).1
    have hsimple : ∀ elems ∈ same, Simple cx (cx.descr (elems.getD k 0)) := by
      intro elems he
      obtain ⟨s, hs, rfl, hlen⟩ := hin elems he
      rw [List.getD_eq_getElem?_getD, List.getElem?_eq_getElem (hlen ▸ hk), Option.getD_some]
      exact (htheirs s hs _ (List.getElem_mem _)).2
    obtain ⟨hreach, hall⟩ := foldl_union_spec hsimple Descr.none .none
    rw [Bool.not_eq_true', ← Bool.not_eq_true, hpart.2.isSubtype_iff hreach] at hout
    refine hout fun v hv => ?_
    -- a tuple of the clause with that coordinate
    have hat : (ours.elems.map cx.points)[k]? = some (cx.points x) := by
      rw [List.getElem?_map, hx]
      rfl
    obtain ⟨vs, hvs, hvk⟩ := exists_mem_listProd_at hat hne hv
    obtain ⟨s, hs, hhas⟩ := hcov vs hvs
    have hlen : s.elems.length = ours.elems.length := by
      have h₁ := length_of_mem_listProd hhas
      have h₂ := length_of_mem_listProd hvs
      rw [List.length_map] at h₁ h₂
      exact h₁.symm.trans h₂
    refine hall v (.inr ⟨s.elems, ?_, ?_⟩)
    · rw [← hsame, List.mem_filter, decide_eq_true_eq]
      exact ⟨List.mem_map_of_mem hs, hlen⟩
    · rw [List.getD_eq_getElem?_getD, List.getElem?_eq_getElem (hlen ▸ hk), Option.getD_some]
      exact (mem_listProd_iff.mp hhas).2 k v _ hvk
        (by rw [List.getElem?_map, List.getElem?_eq_getElem (hlen ▸ hk)]; rfl)
  · split at hgate
    · rename_i hone
      rwa [List.length_map] at hone
    · cases hgate

theorem TUPLES_exact : TUPLES.Exact cx (fun P => (SigPred.naming P).tuple) PointShape.tuple
    (TupleSig.Has cx.points) where
  simple cs hcs := Simple.iff_eachSig.mpr
    ⟨⟨each_true _, each_nil, each_nil, each_nil, each_nil⟩,
      ⟨hcs, each_nil, each_nil, each_nil, each_nil⟩⟩
  mem_points cs p := by
    rw [Descr.mem_points, Descr.Has, Descr.Under]
    cases hshape : p.shape <;>
      simp [axisOf, TUPLES, Descr.unbranded, Descr.none, BasicBits.none, PointShape.In, DnfHolds,
        Descr.admits_any]
  shape_inj _ _ h := PointShape.tuple.inj h
  clauseCovers wider narrower hparts h vs hn := by
    rcases Bool.or_eq_true _ _ ▸ h with h | h
    · exact holds_of_factorsAreSuperset h hn
    split at h
    · rename_i a b ha hb
      rw [Bool.and_eq_true, decide_eq_true_eq, List.all_eq_true] at h
      rw [holds_of_plainSig ha] at hn
      rw [holds_of_plainSig hb]
      refine listProd_of_zip h.1 hn fun x y hxy => ?_
      have hx := hparts.tail.of_plainSig ha x (List.of_mem_zip hxy).1
      have hy := hparts.of_plainSig hb y (List.of_mem_zip hxy).2
      exact (hx.isSubtype_iff hy).mp (h.2 (x, y) hxy)
    · cases h
  covered c siblings _ h := by
    simp only [TUPLES] at h
    split at h
    · simp only [positionwiseGate] at h
      split at h
      · cases h
      split at h <;> cases h
    · cases h
  notCovered c siblings hparts hs h hcov := by
    simp only [TUPLES] at h
    split at h
    · rename_i ours theirs hours htheirs
      have hone := hparts.of_plainSig hours
      have hall := hparts.tail.of_plainSigs htheirs
      have hne : (listProd (ours.elems.map cx.points)).Nonempty := by
        rw [listProd_nonempty_iff]
        intro s hs'
        obtain ⟨t, ht, rfl⟩ := List.mem_map.mp hs'
        exact (hone t ht).points_nonempty (hs.2 ours hours t ht)
      have hsibs : ∀ vs, ours.Has cx.points vs → ∃ s ∈ theirs, s.Has cx.points vs := by
        intro vs hvs
        have h' := hcov vs ((holds_of_plainSig hours).mpr hvs)
        rwa [eq_map_posOf_of_plainSigs htheirs, holds_map_posOf] at h'
      obtain ⟨s, rfl⟩ := List.length_eq_one_iff.mp
        (positionwiseGate_notCovered hone hall hne h hsibs)
      refine ⟨.posOf s, posOf_mem_of_plainSigs htheirs s (.head _), ?_⟩
      refine tupleCovers_of_subset hone (hall s (.head _)) hne hours rfl fun vs hvs => ?_
      obtain ⟨s', hs', hhas⟩ := hsibs vs hvs
      rwa [List.mem_singleton.mp hs'] at hhas
    · cases h
  plainTop_covered _ _ _ _ h := by cases h
  plainTop_notCovered cs sigs _ _ _ := by
    -- a tuple of an arity that no clause has
    obtain ⟨n, hn⟩ := Infinite.exists_notMem_finset (sigs.map fun s => s.elems.length).toFinset
    refine ⟨List.replicate n (.mk none (.int 0)), fun sig hsig hhas => hn ?_⟩
    have hlen := length_of_mem_listProd hhas
    rw [List.length_replicate, List.length_map] at hlen
    rw [List.mem_toFinset, hlen]
    exact List.mem_map_of_mem hsig

/-! ### Lists -/

theorem ListSig.has_of_covers {a b : ListSig} (ha : ∀ t, a.elem = some t → Simple.Part cx t)
    (hb : ∀ t, b.elem = some t → Simple.Part cx t) (hempty : (!a.empty || b.empty) = true)
    (helem : ∀ x, a.elem = some x → ∃ y, b.elem = some y ∧ cx.isSubtype x y = true)
    {vs : List Point} (h : a.Has cx.points vs) : b.Has cx.points vs := by
  cases vs with
  | nil =>
    rw [Bool.or_eq_true, Bool.not_eq_true'] at hempty
    rcases hempty with hempty | hempty
    · rw [ListSig.Has, hempty] at h
      exact nomatch h
    · exact hempty
  | cons v vs =>
    obtain ⟨x, hx, hall⟩ := h
    obtain ⟨y, hy, hsub⟩ := helem x hx
    exact ⟨y, hy, fun w hw => ((ha x hx).isSubtype_iff (hb y hy)).mp hsub (hall w hw)⟩

theorem exists_elem_of_covered {s : Set Point} {theirs : List ListSig} (hne : s.Nonempty)
    (h : ∀ v vs, (∀ w ∈ v :: vs, w ∈ s) → ∃ sig ∈ theirs, sig.Has cx.points (v :: vs)) :
    ∃ sig ∈ theirs, ∃ y, sig.elem = some y ∧ s ⊆ cx.points y := by
  by_contra hno
  push Not at hno
  have hsets : ∀ u ∈ (theirs.filterMap ListSig.elem).map cx.points, ¬s ⊆ u := by
    intro u hu hsub
    obtain ⟨y, hy, rfl⟩ := List.mem_map.mp hu
    obtain ⟨sig, hsig, hy⟩ := List.mem_filterMap.mp hy
    exact hno sig hsig y hy hsub
  obtain ⟨v, hv⟩ := hne
  obtain ⟨vs, hvs, hout⟩ := exists_list_outside hsets
  obtain ⟨sig, hsig, y, hy, hall⟩ := h v vs (List.forall_mem_cons.mpr ⟨hv, hvs⟩)
  obtain ⟨w, hw, hnot⟩ := hout (cx.points y)
    (List.mem_map_of_mem (List.mem_filterMap.mpr ⟨sig, hsig, hy⟩))
  exact hnot (hall w (.tail _ hw))

theorem LISTS_exact : LISTS.Exact cx (fun P => (SigPred.naming P).list) PointShape.list
    ( ListSig.Has cx.points) where
  simple cs hcs := Simple.iff_eachSig.mpr
    ⟨⟨each_nil, each_true _, each_nil, each_nil, each_nil⟩,
      ⟨each_nil, hcs, each_nil, each_nil, each_nil⟩⟩
  mem_points cs p := by
    rw [Descr.mem_points, Descr.Has, Descr.Under]
    cases hshape : p.shape <;>
      simp [axisOf, LISTS, Descr.unbranded, Descr.none, BasicBits.none, PointShape.In, DnfHolds,
        Descr.admits_any]
  shape_inj _ _ h := PointShape.list.inj h
  clauseCovers wider narrower hparts h vs hn := by
    rcases Bool.or_eq_true _ _ ▸ h with h | h
    · exact holds_of_factorsAreSuperset h hn
    split at h
    · rename_i a b ha hb
      rw [Bool.and_eq_true] at h
      rw [holds_of_plainSig ha] at hn
      rw [holds_of_plainSig hb]
      refine ListSig.has_of_covers (hparts.tail.of_plainSig ha) (hparts.of_plainSig hb) h.1
        (fun x hx => ?_) hn
      have hsub := h.2
      rw [hx] at hsub
      cases hy : b.elem with
      | none =>
        rw [hy] at hsub
        cases hsub
      | some y =>
        rw [hy] at hsub
        exact ⟨y, rfl, hsub⟩
    · cases h
  covered c siblings hparts h vs hc := by
    simp only [LISTS] at h
    split at h
    · rename_i ours plain hours hplain
      rw [holds_of_plainSig hours] at hc
      rw [eq_map_posOf_of_plainSigs hplain, holds_map_posOf]
      rw [listCoverage] at h
      split at h
      · rename_i hcov
        simp only [Bool.and_eq_true, Bool.or_eq_true, Bool.not_eq_true', List.any_eq_true] at hcov
        cases vs with
        | nil =>
          rcases hcov.1 with hno | ⟨theirs, hmem, hyes⟩
          · rw [ListSig.Has, hno] at hc
            cases hc
          · exact ⟨theirs, hmem, hyes⟩
        | cons v vs =>
          obtain ⟨x, hx, hall⟩ := hc
          have hne := hcov.2
          rw [nonEmptyCovered, hx] at hne
          obtain ⟨theirs, hmem, hsub⟩ := List.any_eq_true.mp hne
          obtain ⟨y, hy, hsub⟩ := (Option.any_eq_true _ _).mp hsub
          have hx' := hparts.of_plainSig hours x hx
          have hy' := hparts.tail.of_plainSigs hplain theirs hmem y hy
          exact ⟨theirs, hmem, y, hy, fun w hw => (hx'.isSubtype_iff hy').mp hsub (hall w hw)⟩
      · cases h
    · cases h
  notCovered c siblings hparts hs h hcov := by
    simp only [LISTS] at h
    split at h
    · rename_i ours plain hours hplain
      have hsibs : ∀ vs, ours.Has cx.points vs → ∃ sig ∈ plain, sig.Has cx.points vs := by
        intro vs hvs
        have h' := hcov vs ((holds_of_plainSig hours).mpr hvs)
        rwa [eq_map_posOf_of_plainSigs hplain, holds_map_posOf] at h'
      have hempty : (!ours.empty || plain.any fun theirs => theirs.empty) = true := by
        rw [Bool.or_eq_true, Bool.not_eq_true', List.any_eq_true]
        cases he : ours.empty with
        | false => exact .inl rfl
        | true => exact .inr (hsibs [] he)
      have hcons : nonEmptyCovered cx.isSubtype ours plain = true := by
        rw [nonEmptyCovered]
        cases hx : ours.elem with
        | none => rfl
        | some x =>
          have hpart := hparts.of_plainSig hours x hx
          have hne := hpart.points_nonempty (hs.2 ours hours x hx)
          obtain ⟨sig, hsig, y, hy, hsub⟩ := exists_elem_of_covered hne fun v vs hall =>
            hsibs (v :: vs) ⟨x, hx, hall⟩
          have hy' := hparts.tail.of_plainSigs hplain sig hsig y hy
          rw [List.any_eq_true]
          exact ⟨sig, hsig, (Option.any_eq_true _ _).mpr
            ⟨y, hy, (hpart.isSubtype_iff hy').mpr hsub⟩⟩
      rw [listCoverage, hempty, hcons] at h
      cases h
    · cases h
  plainTop_covered cs sigs hparts hsigs h vs := by
    simp only [LISTS] at h
    split at h
    · rename_i hcov
      rw [Bool.and_eq_true] at hcov
      cases vs with
      | nil =>
        obtain ⟨sig, hsig, hempty⟩ := List.any_eq_true.mp hcov.1
        exact ⟨sig, hsig, hempty⟩
      | cons v vs =>
        obtain ⟨sig, hsig, hfull⟩ := List.any_eq_true.mp hcov.2
        obtain ⟨y, hy, hfull⟩ := (Option.any_eq_true _ _).mp hfull
        have hall := (hparts.of_plainSigs hsigs sig hsig y hy).2.isFull_iff.mp hfull
        exact ⟨sig, hsig, y, hy, fun w _ => (hall ▸ Set.mem_univ w : w ∈ (cx.descr y).points cx)⟩
    · cases h
  plainTop_notCovered cs sigs hparts hsigs h := by
    by_contra hno
    push Not at hno
    have hnil : (sigs.any fun sig => sig.empty) = true := List.any_eq_true.mpr (hno [])
    have hfull : (sigs.any fun sig => sig.elem.any fun elem => (cx.descr elem).isFull cx)
        = true := by
      obtain ⟨sig, hsig, y, hy, hsub⟩ := exists_elem_of_covered Set.univ_nonempty
        fun v vs _ => hno (v :: vs)
      refine List.any_eq_true.mpr ⟨sig, hsig, (Option.any_eq_true _ _).mpr ⟨y, hy, ?_⟩⟩
      exact (hparts.of_plainSigs hsigs sig hsig y hy).2.isFull_iff.mpr (Set.univ_subset_iff.mp hsub)
    simp only [LISTS, hnil, hfull] at h
    cases h

/-! ### Resources -/

theorem RESOURCES_exact : RESOURCES.Exact cx (fun P => (SigPred.naming P).resource)
    (fun x : Point × List Point => .resource x.1 x.2)
    (fun x => ResourceSig.Has cx.points (x.1 :: x.2)) where
  simple cs hcs := Simple.iff_eachSig.mpr
    ⟨⟨each_nil, each_nil, each_true _, each_nil, each_nil⟩,
      ⟨each_nil, each_nil, hcs, each_nil, each_nil⟩⟩
  mem_points cs p := by
    rw [Descr.mem_points, Descr.Has, Descr.Under]
    cases hshape : p.shape <;>
      simp [axisOf, RESOURCES, Descr.unbranded, Descr.none, BasicBits.none, PointShape.In,
        DnfHolds, Descr.admits_any]
  shape_inj x y h := Prod.ext (PointShape.resource.inj h).1 (PointShape.resource.inj h).2
  clauseCovers wider narrower hparts h x hn := by
    rcases Bool.or_eq_true _ _ ▸ h with h | h
    · exact holds_of_factorsAreSuperset h hn
    split at h
    · rename_i a b ha hb
      rw [holds_of_plainSig ha] at hn
      rw [holds_of_plainSig hb]
      have hsub := (Simple.Part.isSubtype_iff (hparts.tail.of_plainSig ha)
        (hparts.of_plainSig hb)).mp h
      exact fun v hv => hsub (hn v hv)
    · cases h
  covered c siblings _ h := by
    simp only [RESOURCES] at h
    split at h <;> cases h
  notCovered c siblings hparts hs h hcov := by
    simp only [RESOURCES] at h
    split at h
    · cases h
    rename_i hplain
    simp only [Bool.or_eq_true, not_or, Option.isNone_iff_eq_none, ← ne_eq,
      Option.ne_none_iff_exists'] at hplain
    obtain ⟨⟨ours, hours⟩, theirs, htheirs⟩ := hplain
    have hpart : Simple.Part cx ours.payload := hparts.of_plainSig hours
    -- what no payload of the clause is left outside of is one of the siblings
    have hleft : ∀ v vs, ¬(⟨[ours], theirs⟩ : Conj ResourceSig).Holds
        (ResourceSig.Has cx.points (v :: vs)) := by
      rintro v vs ⟨hp, hn⟩
      have h' := hcov (v, vs) ((holds_of_plainSig hours).mpr (hp ours (.head _)))
      rw [eq_map_posOf_of_plainSigs htheirs, holds_map_posOf] at h'
      obtain ⟨sig, hsig, hhas⟩ := h'
      exact hn sig hsig hhas
    rw [no_resource_iff (d := cx.points ours.payload) (by simp)] at hleft
    rcases hleft with he | ⟨sig, hsig, hsub⟩
    · exact absurd he (hpart.points_nonempty (hs.2 ours hours)).ne_empty
    · refine ⟨.posOf sig, posOf_mem_of_plainSigs htheirs sig hsig, ?_⟩
      have hsig' : Simple.Part cx sig.payload := hparts.tail.of_plainSigs htheirs sig hsig
      show resourceCovers cx.isSubtype (.posOf sig) c = true
      rw [resourceCovers, hours]
      exact Bool.or_eq_true_iff.mpr (.inr ((hpart.isSubtype_iff hsig').mpr hsub))
  plainTop_covered cs sigs hparts hsigs h x := by
    simp only [RESOURCES] at h
    split at h
    · rename_i hany
      obtain ⟨sig, hsig, hfull⟩ := List.any_eq_true.mp hany
      have hpart : Simple.Part cx sig.payload := hparts.of_plainSigs hsigs sig hsig
      have hall := hpart.2.isFull_iff.mp hfull
      exact ⟨sig, hsig, fun v _ => (hall ▸ Set.mem_univ v : v ∈ (cx.descr sig.payload).points cx)⟩
    · cases h
  plainTop_notCovered cs sigs hparts hsigs h := by
    by_contra hno
    push Not at hno
    have hleft : ∀ v vs, ¬(⟨[], sigs⟩ : Conj ResourceSig).Holds
        (ResourceSig.Has cx.points (v :: vs)) := by
      rintro v vs ⟨-, hn⟩
      obtain ⟨sig, hsig, hhas⟩ := hno (v, vs)
      exact hn sig hsig hhas
    rw [no_resource_iff (d := Set.univ) (by simp)] at hleft
    obtain ⟨sig, hsig, hsub⟩ := hleft.resolve_left Set.univ_nonempty.ne_empty
    have hpart : Simple.Part cx sig.payload := hparts.of_plainSigs hsigs sig hsig
    have hfull : (sigs.any fun sig => (cx.descr sig.payload).isFull cx) = true :=
      List.any_eq_true.mpr ⟨sig, hsig, hpart.2.isFull_iff.mpr (Set.univ_subset_iff.mp hsub)⟩
    simp only [RESOURCES, hfull] at h
    cases h

/-! ### Maps -/

theorem fieldPoints_of_mem {p : MapSig} {f : MapKey × Ty} (hf : f ∈ p.fields) :
    fieldPoints cx p.fields f.1 = cx.points f.2 := by
  ext v
  refine ⟨fun hv => hv f.2 hf, fun hv t ht => ?_⟩
  obtain rfl : t = f.2 := (Prod.mk.inj (List.inj_on_of_nodup_map p.nodup ht hf rfl)).2
  exact hv

theorem lookup_eq_some_of_mem {p : MapSig} {key : MapKey} {t : Ty} (h : (key, t) ∈ p.fields) :
    p.fields.lookup key = some t := by
  have hsome : (p.fields.lookup key).isSome = true := by
    rw [List.lookup_isSome_iff]
    exact ⟨_, h, beq_self_eq_true key⟩
  obtain ⟨t', ht'⟩ := Option.isSome_iff_exists.mp hsome
  obtain ⟨l₁, l₂, hl, -⟩ := List.lookup_eq_some_iff.mp ht'
  have hmem : (key, t') ∈ p.fields := by simp [hl]
  rw [ht', (Prod.mk.inj (List.inj_on_of_nodup_map p.nodup hmem h rfl)).2]

theorem MAPS_exact : MAPS.Exact cx (fun P => (SigPred.naming P).map)
    (fun x : MapTag × (MapKey → List Point) => .map x.1 x.2)
    (fun x => MapSig.Has cx.points x.1 x.2) where
  simple cs hcs := Simple.iff_eachSig.mpr
    ⟨⟨each_nil, each_nil, each_nil, each_nil, each_true _⟩,
      ⟨each_nil, each_nil, each_nil, each_nil, hcs⟩⟩
  mem_points cs p := by
    rw [Descr.mem_points, Descr.Has, Descr.Under]
    cases hshape : p.shape <;>
      simp [axisOf, MAPS, Descr.unbranded, Descr.none, BasicBits.none, PointShape.In, DnfHolds,
        Descr.admits_any]
  shape_inj x y h := Prod.ext (PointShape.map.inj h).1 (PointShape.map.inj h).2
  clauseCovers wider narrower hparts h x hn := by
    rcases Bool.or_eq_true _ _ ▸ h with h | h
    · exact holds_of_factorsAreSuperset h hn
    split at h
    · rename_i a b ha hb
      rw [Bool.and_eq_true, decide_eq_true_eq, List.all_eq_true] at h
      rw [holds_of_plainSig ha] at hn
      rw [holds_of_plainSig hb]
      refine ⟨h.1 ▸ hn.1, fun f hf => ?_⟩
      obtain ⟨narrow, hnarrow, hsub⟩ := (Option.any_eq_true _ _).mp (h.2 f hf)
      obtain ⟨l₁, l₂, hl, -⟩ := List.lookup_eq_some_iff.mp hnarrow
      have hmem : (f.1, narrow) ∈ a.fields := by simp [hl]
      obtain ⟨hne, hall⟩ := hn.2 (f.1, narrow) hmem
      have hx := hparts.tail.of_plainSig ha (f.1, narrow) hmem
      have hy := hparts.of_plainSig hb f hf
      exact ⟨hne, fun v hv => (hx.isSubtype_iff hy).mp hsub (hall v hv)⟩
    · cases h
  covered c siblings _ h := by
    simp only [MAPS] at h
    split at h
    · simp only [mapCoverage] at h
      split at h
      · cases h
      split at h <;> cases h
    · cases h
  notCovered c siblings hparts hs h hcov := by
    simp only [MAPS] at h
    split at h
    · rename_i ours theirs hours htheirs
      have hone := hparts.of_plainSig hours
      -- maps that share a clause between several siblings are in one of them
      have hleft : ∀ tag fields, ¬(⟨[ours], theirs⟩ : Conj MapSig).Holds
          (MapSig.Has cx.points tag fields) := by
        rintro tag fields ⟨hp, hn⟩
        have h' := hcov (tag, fields) ((holds_of_plainSig hours).mpr (hp ours (.head _)))
        rw [eq_map_posOf_of_plainSigs htheirs, holds_map_posOf] at h'
        obtain ⟨sig, hsig, hhas⟩ := h'
        exact hn sig hsig hhas
      rw [no_map_iff, List.flatMap_cons, List.flatMap_nil, List.append_nil] at hleft
      rcases hleft with ⟨q, hq, -⟩ | ⟨f, hf, he⟩ | ⟨sig, hsig, htag, hfields⟩
      · cases hq
      · rw [fieldPoints_of_mem hf] at he
        exact absurd he ((hone f hf).points_nonempty (hs.2 ours hours f hf)).ne_empty
      · refine ⟨.posOf sig, posOf_mem_of_plainSigs htheirs sig hsig, ?_⟩
        show mapCovers cx.isSubtype (.posOf sig) c = true
        rw [mapCovers, hours]
        simp only [plainSig, Conj.posOf, Bool.or_eq_true, Bool.and_eq_true, decide_eq_true_eq,
          List.all_eq_true]
        refine .inr ⟨htag.symm, fun f hf => ?_⟩
        obtain ⟨hkey, hsub⟩ := hfields f hf
        obtain ⟨⟨key, t⟩, hmem, rfl⟩ := List.mem_map.mp hkey
        rw [fieldPoints_of_mem hmem] at hsub
        rw [lookup_eq_some_of_mem hmem, Option.any_some]
        exact ((hone _ hmem).isSubtype_iff (hparts.tail.of_plainSigs htheirs sig hsig f hf)).mpr
          hsub
    · cases h
  plainTop_covered _ _ _ _ h := by cases h
  plainTop_notCovered cs sigs _ _ _ := by
    -- a map under a tag no clause has
    obtain ⟨tag, htag⟩ := Infinite.exists_notMem_finset (sigs.map MapSig.tag).toFinset
    refine ⟨(tag, fun _ => []), fun sig hsig hhas => htag ?_⟩
    have hsame : sig.tag = tag := hhas.1
    rw [List.mem_toFinset, ← hsame]
    exact List.mem_map_of_mem hsig

/-! ## Dropping clauses in any order -/

/-- One clause that the others cover is dropped. -/
inductive Drop {T : Type} (cx : TyCtx) (view : AxisView T) :
    List (Conj T) → List (Conj T) → Prop where
  | mk (before : List (Conj T)) (c : Conj T) (after : List (Conj T))
    (covered : clauseIsCovered cx view c (before ++ after) = true) :
    Drop cx view (before ++ c :: after) (before ++ after)

section Drops

variable {T X : Type} {view : AxisView T} {m : X → T → Prop} {cs ds : List (Conj T)}

theorem drops_dropCoveredFrom (rest : List (Conj T)) : ∀ kept : List (Conj T),
    Relation.ReflTransGen (Drop cx view) (kept ++ rest) (dropCoveredFrom cx view kept rest) := by
  induction rest with
  | nil =>
    intro kept
    rw [dropCoveredFrom, List.append_nil]
  | cons c rest ih =>
    intro kept
    rw [dropCoveredFrom]
    split
    · rename_i hcov
      exact .head (.mk kept c rest hcov) (ih kept)
    · have hrest := ih (kept ++ [c])
      rwa [List.append_assoc] at hrest

theorem drops_dropCoveredClauses :
    Relation.ReflTransGen (Drop cx view) cs (dropCoveredClauses cx view cs) := by
  rw [dropCoveredClauses]
  split
  · exact .refl
  · exact drops_dropCoveredFrom cs []

theorem AxisView.Sound.holds_of_drops (hv : view.Sound cx m)
    (h : Relation.ReflTransGen (Drop cx view) cs ds) (x : X) :
    DnfHolds (m x) ds ↔ DnfHolds (m x) cs := by
  induction h with
  | refl => rfl
  | tail _ hstep ih =>
    rw [← ih]
    cases hstep with
    | mk before c after hcov =>
      constructor
      · rintro ⟨c', hc', hx⟩
        refine ⟨c', ?_, hx⟩
        rw [List.mem_append] at hc' ⊢
        exact hc'.imp id (.tail _)
      · rintro ⟨c', hc', hx⟩
        rw [List.mem_append, List.mem_cons] at hc'
        rcases hc' with hc' | rfl | hc'
        · exact ⟨c', List.mem_append_left _ hc', hx⟩
        · exact hv.holds_of_clauseIsCovered hcov hx
        · exact ⟨c', List.mem_append_right _ hc', hx⟩

end Drops

/-! ## Absorption -/

/-- The verdicts of an axis are those of the subtyping query on simple types, for swept clauses and
for the whole axis. -/
structure AxisView.AgreesWithQuery {T : Type} (view : AxisView T) (cx : TyCtx)
    (names : (Ty → Prop) → T → Prop) : Prop where
  clause : ∀ c others, Each (names (Simple.Part cx)) (c :: others) → Swept cx view names c →
    clauseIsCovered cx view c others = (axisOf view [c]).isSubtype cx (axisOf view others)
  top : ∀ cs, Each (names (Simple.Part cx)) cs → axisIsTop cx view cs = axisCoversItsTop cx view cs

theorem AxisView.Exact.agreesWithQuery {T X : Type} {view : AxisView T}
    {names : (Ty → Prop) → T → Prop} {shape : X → PointShape Point} {m : X → T → Prop}
    (hv : view.Exact cx names shape m) : view.AgreesWithQuery cx names where
  clause _ _ hparts hs := hv.clauseIsCovered_eq hparts hs
  top _ hparts := hv.axisIsTop_eq hparts

/-- The walk over an axis drops covered clauses, and dropping covered clauses in any order keeps
the values. -/
structure AxisView.DropsKeep {T X : Type} (view : AxisView T) (cx : TyCtx) (m : X → T → Prop) :
    Prop where
  walk : ∀ cs, Relation.ReflTransGen (Drop cx view) cs (dropCoveredClauses cx view cs)
  keeps : ∀ cs ds, Relation.ReflTransGen (Drop cx view) cs ds →
    ∀ x, DnfHolds (m x) ds ↔ DnfHolds (m x) cs

theorem AxisView.Sound.dropsKeep {T X : Type} {view : AxisView T} {m : X → T → Prop}
    (hv : view.Sound cx m) : view.DropsKeep cx m where
  walk _ := drops_dropCoveredClauses
  keeps _ _ h x := hv.holds_of_drops h x

section Sample

/-- The types of `mixedBrands` and three singles: type 11 has integers or binaries of the brand
`x`. -/
def mixedCovers : List Descr :=
  mixedBrands ++ [.tupleOf [3, 7], .tupleOf [2, 6], .tupleOf [4, 6]]

/-- One lambda with two signatures, as types 5 and 6, the plain arrow of the second one, and pairs
of these with integers and binaries. -/
def lambdaPairs : List Descr :=
  let lambda : Option ClosureLit := some ⟨.closure, some 0, []⟩
  [kinds ⟨false, true, false⟩ .any, kinds ⟨true, false, false⟩ .any,
    kinds ⟨true, true, false⟩ .any, lambdaOf [2] 2 lambda, lambdaOf [1] 0 lambda,
    lambdaOf [1] 0 none, .tupleOf [5, 4], .tupleOf [1, 3], .tupleOf [6, 3], .tupleOf [7, 2]]

end Sample

end Fz.Types
