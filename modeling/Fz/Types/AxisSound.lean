import Fz.Types.Axis
import Fz.Types.EmptinessSound

/-!
# Rewriting one axis keeps its values

Sorting, dropping and merging clauses never changes which values an axis holds.  Each rewrite is
licensed by an answer of the subtyping or emptiness query, and such answers are right
(`isSubtype_sound`); where an axis answers from the signatures, its rule is right too
(`AxisView.Sound`).
-/

namespace Fz.Types

open Fz.Base

variable {cx : TyCtx} {calls : Calls}

/-! ## Queries about types of an arena -/

namespace TyCtx

theorem descr_of_ge (cx : TyCtx) {t : Ty} (ht : cx.arena.length ≤ t) : cx.descr t = Descr.none := by
  rw [descr, List.getD_eq_getElem?_getD, List.getElem?_eq_none ht, Option.getD_none]

theorem rank_descr_le_length (cx : TyCtx) (t : Ty) : (cx.descr t).rank ≤ cx.arena.length := by
  rcases Nat.lt_or_ge t cx.arena.length with ht | ht
  · exact (cx.rank_descr_le t).trans (Nat.le_of_lt ht)
  · rw [cx.descr_of_ge ht]
    exact Nat.zero_le _

end TyCtx

theorem World.below (W : World cx) (t : Ty) : Below cx W.calls (cx.arena.length + 1) (cx.descr t) :=
  ⟨Nat.lt_succ_of_le (cx.rank_descr_le_length t), Descr.eachSig_onArrow_iff.mpr (W.honest t)⟩

theorem World.soundBelow (W : World cx) (r : Nat) : SoundBelow cx W.calls r (Descr.isEmpty cx) :=
  fun _ hd he v => Descr.isEmpty_sound ⟨hd.honest, W.honest⟩ he v

theorem World.soundAt (W : World cx) (r : Nat) : SoundAt cx W.calls r (Descr.isEmpty cx) := by
  intro d _ hnil he v
  refine Descr.isEmpty_sound ⟨?_, W.honest⟩ he v
  rw [Descr.eachSig_onArrow_iff, hnil]
  exact fun _ h => nomatch h

theorem World.isSubtype_sound (W : World cx) {a b : Ty} (h : cx.isSubtype a b = true) {v : Val}
    (hv : v ∈ cx.meaning W.calls a) : v ∈ cx.meaning W.calls b := by
  rw [TyCtx.isSubtype, Bool.or_eq_true, decide_eq_true_eq] at h
  rcases h with rfl | h
  · exact hv
  · exact Descr.isSubtype_sound ⟨(W.below a).honest, W.honest⟩ ⟨(W.below b).honest, W.honest⟩ h hv

namespace Descr

theorem mem_of_looksFull {M : Ty → Set Val} {d : Descr} (h : d.looksFull = true) (v : Val) :
    d.Mem calls M v := by
  have htop : ∀ {T : Type} {m : T → Prop} {dnf : List (Conj T)}, isDnfTop dnf = true →
      DnfHolds m dnf := by
    intro T m dnf hdnf
    match dnf, hdnf with
    | [c], hc =>
      simp only [isDnfTop, Conj.isTop, Bool.and_eq_true, List.isEmpty_iff] at hc
      exact ⟨c, .head _, by simp [Conj.Holds, hc]⟩
  have hset : ∀ {T : Type} [DecidableEq T] {s : FiniteSet T}, s.isAny = true → s = .any := by
    intro T _ s hs
    simp only [FiniteSet.isAny, Bool.and_eq_true, decide_eq_true_eq] at hs
    obtain ⟨values, cofinite⟩ := s
    obtain ⟨rfl, rfl⟩ := hs
    rfl
  simp only [looksFull, Bool.and_eq_true, decide_eq_true_eq] at h
  obtain ⟨⟨⟨⟨⟨⟨⟨⟨⟨hbasic, hatoms⟩, hopaques⟩, hbrands⟩, -⟩, htuples⟩, hlists⟩, hres⟩, hfuncs⟩,
    hmaps⟩ := h
  refine ⟨by rw [hset hbrands]; exact admits_any _, ?_⟩
  cases v.shape with
  | int n => simp [Shape.In, hbasic, BasicBits.all]
  | float bits => simp [Shape.In, hbasic, BasicBits.all]
  | binary bits => simp [Shape.In, hbasic, BasicBits.all]
  | atom name => simp [Shape.In, hset hatoms]
  | opaqueOf tag => simp [Shape.In, hset hopaques]
  | tuple vs => exact htop htuples
  | list vs => exact htop hlists
  | resource w => exact htop hres
  | map tag fields => exact htop hmaps
  | fn f captures => exact htop hfuncs

end Descr

theorem World.mem_of_isFull (W : World cx) {t : Ty} (h : (cx.descr t).isFull cx = true) (v : Val) :
    v ∈ cx.meaning W.calls t := by
  rw [Descr.isFull] at h
  split at h
  · rename_i hfull
    exact Descr.mem_meaning.mpr (Descr.mem_of_looksFull hfull v)
  · rw [Bool.and_eq_true] at h
    exact Descr.isSubtype_sound ⟨.any, W.honest⟩ ⟨(W.below t).honest, W.honest⟩ h.2
      (Descr.mem_meaning_any v)

/-! ## Plain clauses -/

section Plain

variable {T : Type} {m : T → Prop}

theorem holds_posOf {sig : T} : (Conj.posOf sig).Holds m ↔ m sig := by
  simp [Conj.Holds, Conj.posOf]

theorem holds_top : (Conj.top : Conj T).Holds m := by
  simp [Conj.Holds, Conj.top]

theorem eq_posOf_of_plainSig {c : Conj T} {sig : T} (h : plainSig c = some sig) :
    c = .posOf sig := by
  obtain ⟨pos, neg⟩ := c
  simp only [plainSig] at h
  split at h
  · cases h
    rfl
  · exact nomatch h

theorem holds_of_plainSig {c : Conj T} {sig : T} (h : plainSig c = some sig) :
    c.Holds m ↔ m sig := by
  rw [eq_posOf_of_plainSig h, holds_posOf]

theorem posOf_mem_of_plainSigs {clauses : List (Conj T)} : ∀ {sigs : List T},
    plainSigs clauses = some sigs → ∀ sig ∈ sigs, Conj.posOf sig ∈ clauses := by
  induction clauses with
  | nil =>
    intro sigs h sig hsig
    cases h
    exact nomatch hsig
  | cons c cs ih =>
    intro sigs h sig hsig
    rw [plainSigs] at h
    split at h
    · rename_i s ss hs hss
      cases h
      rcases List.mem_cons.mp hsig with rfl | hsig
      · rw [eq_posOf_of_plainSig hs]
        exact .head _
      · exact .tail _ (ih hss sig hsig)
    · exact nomatch h

theorem holds_of_factorsAreSuperset [DecidableEq T] {wider narrower : Conj T}
    (h : factorsAreSuperset wider narrower = true) (hn : narrower.Holds m) : wider.Holds m := by
  simp only [factorsAreSuperset, Bool.and_eq_true, List.all_eq_true, decide_eq_true_eq] at h
  exact ⟨fun p hp => hn.1 p (h.1 p hp), fun n hneg => hn.2 n (h.2 n hneg)⟩

end Plain

/-! ## Absorption -/

/-- An axis whose rules are right, where `m x` is what its signatures say of `x`. -/
structure AxisView.Sound {T X : Type} (view : AxisView T) (cx : TyCtx) (m : X → T → Prop) :
    Prop where
  clauseCovers : ∀ wider narrower, view.clauseCovers cx.isSubtype wider narrower = true →
    ∀ x, narrower.Holds (m x) → wider.Holds (m x)
  coverage : ∀ clause siblings, view.coverage cx cx.isSubtype clause siblings = .covered →
    ∀ x, clause.Holds (m x) → DnfHolds (m x) siblings
  plainTop : ∀ sigs, view.plainTop cx sigs = .covered → ∀ x, ∃ sig ∈ sigs, m x sig
  isSubtype : ∀ a b, (axisOf view a).isSubtype cx (axisOf view b) = true →
    ∀ x, DnfHolds (m x) a → DnfHolds (m x) b

namespace AxisView.Sound

variable {T X : Type} {view : AxisView T} {m : X → T → Prop} {clauses : List (Conj T)} {x : X}

theorem holds_of_axisIsTop (hv : view.Sound cx m) (h : axisIsTop cx view clauses = true) :
    DnfHolds (m x) clauses := by
  rw [axisIsTop] at h
  split at h
  · rename_i htop
    obtain ⟨c, hc, htop⟩ := List.any_eq_true.mp htop
    simp only [Conj.isTop, Bool.and_eq_true, List.isEmpty_iff] at htop
    exact ⟨c, hc, by simp [Conj.Holds, htop]⟩
  · dsimp only at h
    split at h
    · rename_i hstructural
      split at hstructural
      · rename_i sigs hsigs
        obtain ⟨sig, hsig, hx⟩ := hv.plainTop sigs hstructural x
        exact ⟨_, posOf_mem_of_plainSigs hsigs sig hsig, holds_posOf.mpr hx⟩
      · cases hstructural
    · cases h
    · exact hv.isSubtype _ _ h x ⟨_, .head _, holds_top⟩

theorem holds_of_clauseIsCovered (hv : view.Sound cx m) {c : Conj T}
    (h : clauseIsCovered cx view c clauses = true) (hc : c.Holds (m x)) :
    DnfHolds (m x) clauses := by
  rw [clauseIsCovered] at h
  split at h
  · exact nomatch h
  split at h
  · rename_i hany
    obtain ⟨sibling, hmem, hcov⟩ := List.any_eq_true.mp hany
    exact ⟨sibling, hmem, hv.clauseCovers sibling c hcov x hc⟩
  · split at h
    · rename_i hcov
      exact hv.coverage c clauses hcov x hc
    · exact nomatch h
    · exact hv.isSubtype _ _ h x ⟨c, .head _, hc⟩

theorem holds_dropCoveredFrom (hv : view.Sound cx m) (rest : List (Conj T)) :
    ∀ kept : List (Conj T), DnfHolds (m x) (dropCoveredFrom cx view kept rest) ↔
      DnfHolds (m x) (kept ++ rest) := by
  induction rest with
  | nil =>
    intro kept
    rw [dropCoveredFrom, List.append_nil]
  | cons c rest ih =>
    intro kept
    rw [dropCoveredFrom]
    split
    · rename_i hcov
      rw [ih]
      constructor
      · rintro ⟨c', hc', hx⟩
        refine ⟨c', ?_, hx⟩
        rw [List.mem_append] at hc' ⊢
        exact hc'.imp id (.tail _)
      · rintro ⟨c', hc', hx⟩
        rw [List.mem_append, List.mem_cons] at hc'
        rcases hc' with hc' | rfl | hc'
        · exact ⟨c', List.mem_append_left _ hc', hx⟩
        · exact hv.holds_of_clauseIsCovered hcov hx
        · exact ⟨c', List.mem_append_right _ hc', hx⟩
    · rw [ih, List.append_assoc]
      rfl

theorem holds_dropCoveredClauses (hv : view.Sound cx m) :
    DnfHolds (m x) (dropCoveredClauses cx view clauses) ↔ DnfHolds (m x) clauses := by
  rw [dropCoveredClauses]
  split
  · rfl
  · rw [hv.holds_dropCoveredFrom, List.nil_append]

theorem holds_absorbAxis (hv : view.Sound cx m) :
    DnfHolds (m x) (absorbAxis cx view clauses) ↔ DnfHolds (m x) clauses := by
  have htop : DnfHolds (m x) [Conj.top] := ⟨_, .head _, holds_top⟩
  rw [absorbAxis]
  split
  · rfl
  split
  · rename_i h
    exact iff_of_true htop (hv.holds_of_axisIsTop h)
  · dsimp only
    split
    · rename_i h
      rw [Bool.and_eq_true] at h
      exact iff_of_true htop (hv.holds_dropCoveredClauses.mp (hv.holds_of_axisIsTop h.2))
    · exact hv.holds_dropCoveredClauses

end AxisView.Sound

section Views

variable (W : World cx)

theorem World.holds_of_axisOf (W : World cx) {a b : Descr} (ha : a.funcs = []) (hb : b.funcs = [])
    (h : a.isSubtype cx b = true) (hslot : a.brands = .any) {s : Shape Val}
    (hs : s.In W.calls (cx.meaning W.calls) a) : s.In W.calls (cx.meaning W.calls) b := by
  have hhonest : ∀ {d : Descr}, d.funcs = [] → d.HonestIn cx W.calls := by
    intro d hd
    refine ⟨?_, W.honest⟩
    rw [Descr.eachSig_onArrow_iff, hd]
    exact fun _ h => nomatch h
  have hmem : Val.mk none s ∈ a.meaning cx W.calls := by
    refine Descr.mem_meaning.mpr ⟨?_, hs⟩
    rw [hslot]
    exact Descr.admits_any none
  exact (Descr.mem_meaning.mp (Descr.isSubtype_sound (hhonest ha) (hhonest hb) h hmem)).2

theorem TUPLES_sound : TUPLES.Sound cx (TupleSig.Holds (cx.meaning W.calls)) where
  clauseCovers wider narrower h vs hn := by
    rcases Bool.or_eq_true _ _ ▸ h with h | h
    · exact holds_of_factorsAreSuperset h hn
    split at h
    · rename_i a b ha hb
      rw [Bool.and_eq_true, decide_eq_true_eq, List.all_eq_true] at h
      rw [holds_of_plainSig ha] at hn
      rw [holds_of_plainSig hb]
      exact listProd_of_zip h.1 hn fun x y hxy v hv => W.isSubtype_sound (h.2 (x, y) hxy) hv
    · exact nomatch h
  coverage clause siblings h := by
    simp only [TUPLES] at h
    split at h
    · simp only [positionwiseGate] at h
      split at h
      · exact nomatch h
      split at h <;> exact nomatch h
    · exact nomatch h
  plainTop _ h := nomatch h
  isSubtype _ _ h vs hvs := W.holds_of_axisOf (s := .tuple vs) rfl rfl h rfl hvs

theorem ListSig.holds_of_covers {a b : ListSig} (hempty : (!a.empty || b.empty) = true)
    (helem : ∀ x, a.elem = some x → ∃ y, b.elem = some y ∧ cx.isSubtype x y = true)
    {vs : List Val} (h : a.Holds (cx.meaning W.calls) vs) : b.Holds (cx.meaning W.calls) vs := by
  cases vs with
  | nil =>
    rw [Bool.or_eq_true, Bool.not_eq_true'] at hempty
    rcases hempty with hempty | hempty
    · rw [ListSig.Holds, hempty] at h
      exact nomatch h
    · exact hempty
  | cons v vs =>
    obtain ⟨x, hx, hall⟩ := h
    obtain ⟨y, hy, hsub⟩ := helem x hx
    exact ⟨y, hy, fun w hw => W.isSubtype_sound hsub (hall w hw)⟩

theorem LISTS_sound : LISTS.Sound cx ( ListSig.Holds (cx.meaning W.calls)) where
  clauseCovers wider narrower h vs hn := by
    rcases Bool.or_eq_true _ _ ▸ h with h | h
    · exact holds_of_factorsAreSuperset h hn
    split at h
    · rename_i a b ha hb
      rw [Bool.and_eq_true] at h
      rw [holds_of_plainSig ha] at hn
      rw [holds_of_plainSig hb]
      refine ListSig.holds_of_covers W h.1 (fun x hx => ?_) hn
      have hsub := h.2
      rw [hx] at hsub
      cases hy : b.elem with
      | none =>
        rw [hy] at hsub
        exact nomatch hsub
      | some y =>
        rw [hy] at hsub
        exact ⟨y, rfl, hsub⟩
    · exact nomatch h
  coverage clause siblings h vs hc := by
    simp only [LISTS] at h
    split at h
    · rename_i ours plain hours hplain
      rw [holds_of_plainSig hours] at hc
      rw [listCoverage] at h
      split at h
      · rename_i hcov
        simp only [Bool.and_eq_true, Bool.or_eq_true, Bool.not_eq_true', List.any_eq_true] at hcov
        cases vs with
        | nil =>
          rcases hcov.1 with hno | ⟨theirs, hmem, hyes⟩
          · rw [ListSig.Holds, hno] at hc
            exact nomatch hc
          · exact ⟨_, posOf_mem_of_plainSigs hplain _ hmem, holds_posOf.mpr hyes⟩
        | cons v vs =>
          obtain ⟨x, hx, hall⟩ := hc
          have hne := hcov.2
          rw [nonEmptyCovered, hx] at hne
          obtain ⟨theirs, hmem, hsub⟩ := List.any_eq_true.mp hne
          obtain ⟨y, hy, hsub⟩ := (Option.any_eq_true _ _).mp hsub
          exact ⟨_, posOf_mem_of_plainSigs hplain _ hmem, holds_posOf.mpr
            ⟨y, hy, fun w hw => W.isSubtype_sound hsub (hall w hw)⟩⟩
      · exact nomatch h
    · exact nomatch h
  plainTop sigs h vs := by
    simp only [LISTS] at h
    split at h
    · rename_i hcov
      rw [Bool.and_eq_true] at hcov
      cases vs with
      | nil =>
        obtain ⟨sig, hsig, hempty⟩ := List.any_eq_true.mp hcov.1
        exact ⟨sig, hsig, hempty⟩
      | cons v vs =>
        obtain ⟨sig, hsig, hfull⟩ := List.any_eq_true.mp hcov.2
        obtain ⟨y, hy, hfull⟩ := (Option.any_eq_true _ _).mp hfull
        exact ⟨sig, hsig, y, hy, fun w _ => W.mem_of_isFull hfull w⟩
    · exact nomatch h
  isSubtype _ _ h vs hvs := W.holds_of_axisOf (s := .list vs) rfl rfl h rfl hvs

theorem RESOURCES_sound : RESOURCES.Sound cx (ResourceSig.Holds (cx.meaning W.calls)) where
  clauseCovers wider narrower h v hn := by
    rcases Bool.or_eq_true _ _ ▸ h with h | h
    · exact holds_of_factorsAreSuperset h hn
    split at h
    · rename_i a b ha hb
      rw [holds_of_plainSig ha] at hn
      rw [holds_of_plainSig hb]
      exact W.isSubtype_sound h hn
    · exact nomatch h
  coverage clause siblings h := by
    simp only [RESOURCES] at h
    split at h <;> exact nomatch h
  plainTop sigs h v := by
    simp only [RESOURCES] at h
    split at h
    · rename_i hany
      obtain ⟨sig, hsig, hfull⟩ := List.any_eq_true.mp hany
      exact ⟨sig, hsig, W.mem_of_isFull hfull v⟩
    · exact nomatch h
  isSubtype _ _ h v hv := W.holds_of_axisOf (s := .resource v) rfl rfl h rfl hv

theorem MAPS_sound : MAPS.Sound cx
    (fun x : MapTag × (MapKey → Option Val) => MapSig.Holds (cx.meaning W.calls) x.1 x.2) where
  clauseCovers wider narrower h x hn := by
    rcases Bool.or_eq_true _ _ ▸ h with h | h
    · exact holds_of_factorsAreSuperset h hn
    split at h
    · rename_i a b ha hb
      rw [Bool.and_eq_true, decide_eq_true_eq, List.all_eq_true] at h
      rw [holds_of_plainSig ha] at hn
      rw [holds_of_plainSig hb]
      refine ⟨h.1 ▸ hn.1, fun p hp => ?_⟩
      obtain ⟨narrow, hnarrow, hsub⟩ := (Option.any_eq_true _ _).mp (h.2 p hp)
      obtain ⟨l₁, l₂, hl, -⟩ := List.lookup_eq_some_iff.mp hnarrow
      obtain ⟨v, hv, hmem⟩ := hn.2 (p.1, narrow) (by simp [hl])
      exact ⟨v, hv, W.isSubtype_sound hsub hmem⟩
    · exact nomatch h
  coverage clause siblings h := by
    simp only [MAPS] at h
    split at h
    · simp only [mapCoverage] at h
      split at h
      · exact nomatch h
      split at h <;> exact nomatch h
    · exact nomatch h
  plainTop _ h := nomatch h
  isSubtype _ _ h x hx := W.holds_of_axisOf (s := .map x.1 x.2) rfl rfl h rfl hx

end Views

/-! ## Clauses as a set -/

section Clauses

variable {T : Type} {m : T → Prop} {P : T → Prop} {clauses : List (Conj T)}

theorem mem_dedupAdjacent [DecidableEq T] {y : T} (xs : List T) :
    y ∈ dedupAdjacent xs ↔ y ∈ xs := by
  induction xs with
  | nil => rfl
  | cons x xs ih =>
    cases xs with
    | nil => rfl
    | cons z xs =>
      rw [dedupAdjacent]
      split
      · rename_i heq
        rw [ih, heq]
        simp
      · rw [List.mem_cons, ih, List.mem_cons (a := y) (b := x)]

variable {cmp : T → T → Ordering}

theorem mem_sortBy {xs : List T} {y : T} : y ∈ sortBy cmp xs ↔ y ∈ xs :=
  List.mem_insertionSort _

theorem mem_sortFactors [DecidableEq T] {xs : List T} {y : T} :
    y ∈ sortFactors cmp xs ↔ y ∈ xs := by
  rw [sortFactors]
  split
  · rfl
  · rw [mem_dedupAdjacent, mem_sortBy]

theorem mem_sortAxis [DecidableEq T] {c : Conj T} : c ∈ sortAxis cmp clauses ↔
      ∃ c' ∈ clauses, c = ⟨sortFactors cmp c'.pos, sortFactors cmp c'.neg⟩ := by
  rw [sortAxis]
  split
  · simp only [List.mem_map, eq_comm]
  · simp only [mem_sortBy, List.mem_map, eq_comm]

theorem holds_sortAxis [DecidableEq T] :
    DnfHolds m (sortAxis cmp clauses) ↔ DnfHolds m clauses := by
  have hclause : ∀ c : Conj T, Conj.Holds m ⟨sortFactors cmp c.pos, sortFactors cmp c.neg⟩ ↔
      c.Holds m := by
    intro c
    simp only [Conj.Holds, mem_sortFactors]
  constructor
  · rintro ⟨_, hsorted, hholds⟩
    obtain ⟨c, hc, rfl⟩ := mem_sortAxis.mp hsorted
    exact ⟨c, hc, (hclause c).mp hholds⟩
  · rintro ⟨c, hc, hholds⟩
    exact ⟨_, mem_sortAxis.mpr ⟨c, hc, rfl⟩, (hclause c).mpr hholds⟩

theorem Each.sortAxis [DecidableEq T] (h : Each P clauses) : Each P (sortAxis cmp clauses) := by
  intro c hc
  obtain ⟨c', hc', rfl⟩ := mem_sortAxis.mp hc
  exact ⟨fun p hp => (h c' hc').1 p (mem_sortFactors.mp hp),
    fun n hn => (h c' hc').2 n (mem_sortFactors.mp hn)⟩

theorem Each.of_subset {clauses' : List (Conj T)} (h : Each P clauses)
    (hsub : ∀ c ∈ clauses', c ∈ clauses) : Each P clauses' := fun c hc => h c (hsub c hc)

theorem holds_filter_inhabited {empty : Conj T → Bool}
    (h : ∀ c ∈ clauses, empty c = true → ¬c.Holds m) :
    DnfHolds m (clauses.filter fun c => !empty c) ↔ DnfHolds m clauses := by
  constructor
  · rintro ⟨c, hc, hholds⟩
    exact ⟨c, List.mem_of_mem_filter hc, hholds⟩
  · rintro ⟨c, hc, hholds⟩
    refine ⟨c, List.mem_filter.mpr ⟨hc, ?_⟩, hholds⟩
    rw [Bool.not_eq_true', ← Bool.not_eq_true]
    exact fun he => h c hc he hholds

theorem mem_dropCoveredFrom {view : AxisView T} (rest : List (Conj T)) :
    ∀ kept, ∀ c ∈ dropCoveredFrom cx view kept rest, c ∈ kept ++ rest := by
  induction rest with
  | nil =>
    intro kept c hc
    rwa [List.append_nil]
  | cons d rest ih =>
    intro kept c hc
    rw [dropCoveredFrom] at hc
    split at hc
    · have := ih kept c hc
      rw [List.mem_append] at this ⊢
      exact this.imp id (.tail _)
    · have := ih _ c hc
      rwa [List.append_assoc] at this

theorem Each.absorbAxis {view : AxisView T} (h : Each P clauses) :
    Each P (absorbAxis cx view clauses) := by
  have htop : Each P [Conj.top] := by simp [Each, Conj.top]
  have hkept : Each P (dropCoveredClauses cx view clauses) := by
    rw [dropCoveredClauses]
    split
    · exact h
    · exact h.of_subset fun c hc => mem_dropCoveredFrom clauses [] c hc
  rw [Types.absorbAxis]
  split
  · exact h
  split
  · exact htop
  · dsimp only
    split
    · exact htop
    · exact hkept

theorem mem_dedupeExactClauses [DecidableEq T] {c : Conj T} :
    c ∈ clauses.foldl pushNew [] ↔ c ∈ clauses := by
  rw [mem_foldl_pushNew]
  simp

end Clauses

/-! ## The empty list -/

section EmptyList

variable {M : Ty → Set Val}

theorem clauseHoldsEmpty_iff_holds {c : Conj ListSig} :
    clauseHoldsEmpty c = true ↔ c.Holds ( ListSig.Holds M []) := by
  simp only [clauseHoldsEmpty, Bool.and_eq_true, List.all_eq_true, Bool.not_eq_true',
    List.any_eq_false]
  rfl

theorem holds_allowEmpty {c : Conj ListSig} (h : keepsOnlyNonEmpty c = true) {vs : List Val} :
    (allowEmpty c).Holds ( ListSig.Holds M vs) ↔ c.Holds ( ListSig.Holds M vs) ∨ vs = [] := by
  obtain ⟨pos, neg⟩ := c
  simp only [keepsOnlyNonEmpty, Bool.and_eq_true, Bool.not_eq_true', List.any_eq_false] at h
  obtain ⟨hpos, hneg⟩ := h
  match pos, hpos with
  | [sig], hpos =>
    simp only [allowEmpty, Conj.Holds, List.mem_singleton, forall_eq]
    cases vs with
    | nil =>
      refine iff_of_true ⟨rfl, fun n hn => ?_⟩ (.inr rfl)
      exact hneg n hn
    | cons v vs =>
      have hno : ¬(v :: vs = []) := List.cons_ne_nil _ _
      rw [or_iff_left hno]
      rfl

theorem holds_mergeEmptyListClause {clauses : List (Conj ListSig)} {vs : List Val} :
    DnfHolds ( ListSig.Holds M vs) (mergeEmptyListClause clauses) ↔
      DnfHolds ( ListSig.Holds M vs) clauses := by
  rw [mergeEmptyListClause]
  split
  · rfl
  rename_i hany
  rw [Bool.not_eq_true', Bool.not_eq_false] at hany
  obtain ⟨e, he, hempty⟩ := List.any_eq_true.mp hany
  rw [clauseHoldsEmpty_iff_holds (M := M)] at hempty
  have hwidened : DnfHolds ( ListSig.Holds M vs)
      (clauses.map fun c => if keepsOnlyNonEmpty c then allowEmpty c else c) ↔
        DnfHolds ( ListSig.Holds M vs) clauses := by
    constructor
    · rintro ⟨_, hmap, hholds⟩
      obtain ⟨c, hc, rfl⟩ := List.mem_map.mp hmap
      split at hholds
      · rename_i hkeeps
        rcases (holds_allowEmpty hkeeps).mp hholds with hholds | rfl
        · exact ⟨c, hc, hholds⟩
        · exact ⟨e, he, hempty⟩
      · exact ⟨c, hc, hholds⟩
    · rintro ⟨c, hc, hholds⟩
      refine ⟨_, List.mem_map_of_mem hc, ?_⟩
      split
      · rename_i hkeeps
        exact (holds_allowEmpty hkeeps).mpr (.inl hholds)
      · exact hholds
  dsimp only
  split
  · rename_i hother
    rw [← hwidened]
    obtain ⟨o, ho, hcarries⟩ := List.any_eq_true.mp hother
    rw [Bool.and_eq_true, clauseHoldsEmpty_iff_holds (M := M)] at hcarries
    constructor
    · rintro ⟨c, hc, hholds⟩
      exact ⟨c, List.mem_of_mem_filter hc, hholds⟩
    · rintro ⟨c, hc, hholds⟩
      by_cases hjust : justEmpty c = true
      · -- a bare `[]` holds `[]` only, and `o` carries that
        have hvs : vs = [] := by
          rw [justEmpty] at hjust
          split at hjust
          · rename_i sig hsig
            rw [holds_of_plainSig hsig] at hholds
            rw [Bool.and_eq_true, Option.isNone_iff_eq_none] at hjust
            cases vs with
            | nil => rfl
            | cons v vs =>
              obtain ⟨t, ht, -⟩ := hholds
              rw [hjust.2] at ht
              exact nomatch ht
          · exact nomatch hjust
        subst hvs
        exact ⟨o, List.mem_filter.mpr ⟨ho, hcarries.1⟩, hcarries.2⟩
      · exact ⟨c, List.mem_filter.mpr ⟨hc, by simpa using hjust⟩, hholds⟩
  · exact hwidened

theorem Each.mergeEmptyListClause {P : ListSig → Prop} {clauses : List (Conj ListSig)}
    (hP : ∀ s, P s → P { s with empty := true }) (h : Each P clauses) :
    Each P (mergeEmptyListClause clauses) := by
  have hwidened : Each P
      (clauses.map fun c => if keepsOnlyNonEmpty c then allowEmpty c else c) := by
    intro _ hmap
    obtain ⟨c, hc, rfl⟩ := List.mem_map.mp hmap
    have hsigs := h c hc
    split
    · obtain ⟨pos, neg⟩ := c
      cases pos with
      | nil => exact hsigs
      | cons sig sigs =>
        refine ⟨?_, hsigs.2⟩
        intro p hp
        rcases List.mem_cons.mp hp with rfl | hp
        · exact hP sig (hsigs.1 sig (.head _))
        · exact hsigs.1 p (.tail _ hp)
    · exact hsigs
  rw [Types.mergeEmptyListClause]
  split
  · exact h
  · dsimp only
    split
    · exact hwidened.of_subset fun c hc => List.mem_of_mem_filter hc
    · exact hwidened

end EmptyList

/-! ## Descriptors -/

namespace Descr

variable {d : Descr} {P : SigPred}

theorem mem_sortAxes {M : Ty → Set Val} {order : ClauseOrder} {v : Val} :
    (d.sortAxes order cx).Mem calls M v ↔ d.Mem calls M v := by
  refine and_congr_right fun _ => ?_
  cases v.shape with
  | tuple vs => exact holds_sortAxis
  | list vs => exact holds_sortAxis
  | resource w => exact holds_sortAxis
  | map tag fields => exact holds_sortAxis
  | fn f captures => exact holds_sortAxis
  | _ => rfl

theorem EachSig.sortAxes {order : ClauseOrder} (h : d.EachSig P) :
    (d.sortAxes order cx).EachSig P where
  tuples := h.tuples.sortAxis
  lists := h.lists.sortAxis
  resources := h.resources.sortAxis
  funcs := h.funcs.sortAxis
  maps := h.maps.sortAxis

theorem mem_dropEmptyClauses (W : World cx) {isEmptyTy : Ty → Bool}
    (hnone : ∀ t, isEmptyTy t = true → ∀ v, v ∉ cx.meaning W.calls t)
    (hhonest : d.EachSig (.onArrow (Honest cx W.calls)))
    (hrange : d.EachSig (.naming (· < cx.arena.length))) {v : Val} :
    (d.dropEmptyClauses cx isEmptyTy).Mem W.calls (cx.meaning W.calls) v ↔
      d.Mem W.calls (cx.meaning W.calls) v := by
  have hs := W.soundBelow (cx.arena.length + 1)
  refine and_congr_right fun _ => ?_
  cases v.shape with
  | tuple vs =>
    refine holds_filter_inhabited fun c hc he hholds => ?_
    rw [plainTupleEmpty] at he
    split at he
    · rename_i product hplain
      obtain ⟨t, ht, he⟩ := List.any_eq_true.mp he
      rw [holds_of_plainSig hplain] at hholds
      obtain ⟨w, hw⟩ := listProd_nonempty_iff.mp ⟨_, hholds⟩ _ (List.mem_map_of_mem ht)
      exact hnone t he w hw
    · exact tupleClauseEmpty_sound hs (fun _ _ t _ => W.below t) (fun _ _ t _ => W.below t) he vs
        hholds
  | list vs =>
    exact holds_filter_inhabited fun c hc he =>
      listClauseEmpty_sound hs (fun _ _ t _ => W.below t) (fun _ _ t _ => W.below t) he vs
  | resource w =>
    exact holds_filter_inhabited fun c hc he =>
      resourceClauseEmpty_sound hs (fun _ _ => W.below _) (fun _ _ => W.below _) he w
  | map tag fields =>
    exact holds_filter_inhabited fun c hc he =>
      mapClauseEmpty_sound hs (fun _ _ p _ => W.below p.2) (fun _ _ p _ => W.below p.2) he tag
        fields
  | fn f captures =>
    refine holds_filter_inhabited fun c hc he => ?_
    refine funcClauseEmpty_sound hs (W.soundAt _) ?_ he f captures
    rintro s (hsig | hsig)
    · have hnamed := (hrange.funcs c hc).1 s hsig
      exact ⟨(hhonest.funcs c hc).1 s hsig,
        ⟨W.below _, fun t ht => Nat.lt_succ_of_lt (hnamed.2.1 t ht)⟩, fun _ _ t _ => W.below t⟩
    · have hnamed := (hrange.funcs c hc).2 s hsig
      exact ⟨(hhonest.funcs c hc).2 s hsig,
        ⟨W.below _, fun t ht => Nat.lt_succ_of_lt (hnamed.2.1 t ht)⟩, fun _ _ t _ => W.below t⟩
  | _ => rfl

theorem EachSig.dropEmptyClauses {isEmptyTy : Ty → Bool} (h : d.EachSig P) :
    (d.dropEmptyClauses cx isEmptyTy).EachSig P where
  tuples := h.tuples.of_subset fun _ hc => List.mem_of_mem_filter hc
  lists := h.lists.of_subset fun _ hc => List.mem_of_mem_filter hc
  resources := h.resources.of_subset fun _ hc => List.mem_of_mem_filter hc
  funcs := h.funcs.of_subset fun _ hc => List.mem_of_mem_filter hc
  maps := h.maps.of_subset fun _ hc => List.mem_of_mem_filter hc

theorem mem_absorbCoveredClauses (W : World cx) {v : Val} :
    (d.absorbCoveredClauses cx).Mem W.calls (cx.meaning W.calls) v ↔
      d.Mem W.calls (cx.meaning W.calls) v := by
  refine and_congr_right fun _ => ?_
  cases v.shape with
  | tuple vs => exact (TUPLES_sound W).holds_absorbAxis
  | list vs => exact (LISTS_sound W).holds_absorbAxis
  | resource w => exact (RESOURCES_sound W).holds_absorbAxis
  | map tag fields => exact (MAPS_sound W).holds_absorbAxis (x := (tag, fields))
  | _ => rfl

theorem EachSig.absorbCoveredClauses (h : d.EachSig P) : (d.absorbCoveredClauses cx).EachSig P where
  tuples := h.tuples.absorbAxis
  lists := h.lists.absorbAxis
  resources := h.resources.absorbAxis
  funcs := h.funcs
  maps := h.maps.absorbAxis

end Descr

end Fz.Types
