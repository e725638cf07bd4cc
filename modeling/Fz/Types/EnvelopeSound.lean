import Fz.Types.Instances
import Fz.Types.SubtypeOrder
import Mathlib.Data.List.ReduceOption

/-!
# Test envelopes cover instances

Both runs are read in the arena they end in.  What `instantiate` makes of a type is within the
bounds of the type, and the envelope of a type is around its upper bound; at the negative positions
it is the other way round.  So the envelope has every value of every instance
(`envelope_covers_instances`).

The bounds of a type are those of the types it names, clause by clause.  A clause that loses a
positive factor on the way has no values of the polarity at stake, and a negative factor that is
lost took none away.
-/

set_option linter.dupNamespace false

namespace Fz.Types

open Fz.Base

variable {cx cx' : TyCtx} {d : Descr}

/-! ## Interning -/

theorem holds_of_holds_filter {T : Type} {m : T → Prop} {f : Conj T → Bool} {cs : List (Conj T)}
    (h : DnfHolds m (cs.filter f)) : DnfHolds m cs := by
  obtain ⟨c, hc, hholds⟩ := h
  exact ⟨c, List.mem_of_mem_filter hc, hholds⟩

/-- Sorting and dropping add no values, whether the literals are honest or not. -/
theorem Descr.mem_of_mem_settle (W : World cx) {order : ClauseOrder} {isEmptyTy : Ty → Bool}
    {v : Val} (h : v ∈ (d.settle order cx isEmptyTy).meaning cx W.calls) :
    v ∈ d.meaning cx W.calls := by
  rw [Descr.mem_meaning] at h ⊢
  rw [Descr.settle] at h
  split at h
  · exact absurd h (Descr.not_mem_of_looksEmpty rfl v)
  have habsorbed : (((d.sortAxes order cx).dropEmptyClauses cx isEmptyTy).absorbCoveredClauses
      cx).Mem W.calls (cx.meaning W.calls) v := by
    refine h.imp id fun hin => ?_
    cases hshape : v.shape with
    | fn f captures =>
      rw [hshape] at hin
      obtain ⟨c, hc, hholds⟩ := hin
      exact ⟨c, mem_dedupeExactClauses.mp hc, hholds⟩
    | _ =>
      rw [hshape] at hin
      exact hin
  rw [Descr.mem_absorbCoveredClauses W] at habsorbed
  have hsorted : (d.sortAxes order cx).Mem W.calls (cx.meaning W.calls) v := by
    refine habsorbed.imp id fun hin => ?_
    cases hshape : v.shape with
    | tuple vs =>
      rw [hshape] at hin
      exact holds_of_holds_filter hin
    | list vs =>
      rw [hshape] at hin
      exact holds_of_holds_filter hin
    | resource w =>
      rw [hshape] at hin
      exact holds_of_holds_filter hin
    | map tag fields =>
      rw [hshape] at hin
      exact holds_of_holds_filter hin
    | fn f captures =>
      rw [hshape] at hin
      exact holds_of_holds_filter hin
    | _ =>
      rw [hshape] at hin
      exact hin
  exact Descr.mem_sortAxes.mp hsorted

theorem wp_internNormal_descr {s : Interning} {n : Nat} (hd : Depth s.cx n d) :
    wp (internNormal d) (fun t s' => s.cx.Extends s'.cx ∧ (∀ r ∈ s.rewrites, r ∈ s'.rewrites) ∧
      t < s'.cx.arena.length ∧ s'.cx.descr t = d) (fun _ => False) s := by
  rw [internNormal, wp_bind, wp_get]
  split
  · rename_i t ht
    exact ⟨List.prefix_rfl, fun _ h => h, TyCtx.lookup_spec ht⟩
  · rw [dif_pos (TyCtx.knows_iff.mp hd.knows), wp_bind, wp_set]
    refine ⟨List.prefix_append s.cx.arena [d], fun _ h => h, ?_, ?_⟩
    · show s.cx.arena.length < (s.cx.arena ++ [d]).length
      rw [List.length_append]
      exact Nat.lt_succ_self _
    · show (s.cx.arena ++ [d]).getD s.cx.arena.length Descr.none = d
      rw [List.getD_eq_getElem?_getD, getElem?_append_length, Option.getD_some]

/-- Interning adds no values, whether the literals are honest or not. -/
theorem wp_internAt_sub (order : ClauseOrder) (rounds n : Nat) {s : Interning}
    (hd : Depth s.cx n d) : wp (internAt order rounds (n + 1) d)
      (fun t s' => InFinal s' fun cx W => ∀ v ∈ cx.meaning W.calls t, v ∈ d.meaning cx W.calls)
      (fun _ => False) s := by
  have hlookup : ∀ {t : Ty}, s.cx.lookup d = some t →
      InFinal s fun cx W => ∀ v ∈ cx.meaning W.calls t, v ∈ d.meaning cx W.calls := by
    intro t ht cx hcx W _ v hv
    obtain ⟨hlt, hdescr⟩ := TyCtx.lookup_spec ht
    rw [TyCtx.meaning, hcx.descr_eq hlt, hdescr] at hv
    exact hv
  rw [internAt, wp_bind, wp_get]
  cases n with
  | zero =>
    obtain ⟨t, ht⟩ := lookup_any s
    rw [← show d = Descr.any from hd] at ht
    rw [ht]
    exact hlookup ht
  | succ n =>
    split
    · rename_i t ht
      exact hlookup ht
    have hI := interns_internAt order rounds n
    rw [wp_bind]
    refine (wp_normalizeTupleAxis hI (Descr.EachSig.tuples hd)).imp ?_
    rintro tuples s₁ ⟨hgrows₁, htuples⟩
    rw [wp_bind]
    have hlists : ListsAt s.cx n d.lists := Descr.EachSig.lists hd
    refine (wp_normalizeListClauses hI (hlists.of_extends hgrows₁.extends_)).imp ?_
    rintro lists s₂ ⟨hgrows₂, hlists', hlmeaning⟩
    rw [wp_bind, wp_get]
    have hd₂ : d.EachSig (.naming (TyDepth s₂.cx n)) :=
      hd.of_extends (hgrows₁.trans hgrows₂).extends_
    have hnormal : Depth s₂.cx (n + 1) { d with tuples := tuples, lists := lists } :=
      ⟨htuples.depth.of_extends hgrows₂.extends_, hlists', hd₂.resources, hd₂.funcs, hd₂.maps⟩
    have hsame : InFinal s₂ fun cx W => ∀ v, v ∈ ({ d with tuples := tuples, lists := lists } :
        Descr).meaning cx W.calls → v ∈ d.meaning cx W.calls := by
      intro cx hcx W hW v
      rw [Descr.mem_meaning, Descr.mem_meaning]
      refine fun h => ⟨h.1, ?_⟩
      have hin := h.2
      cases hshape : v.shape with
      | tuple vs =>
        rw [hshape] at hin
        exact ((htuples.meaning.grows hgrows₂) cx hcx W hW vs).mp hin
      | list vs =>
        rw [hshape] at hin
        exact (hlmeaning cx hcx W hW vs).mp hin
      | _ =>
        rw [hshape] at hin
        exact hin
    generalize ({ d with tuples := tuples, lists := lists } : Descr) = normal at *
    refine (wp_internNormal_descr (n := n + 1) (Descr.EachSig.settle hnormal)).imp ?_
    rintro t s₃ ⟨hext₃, hrewrites, hlt, hdescr⟩ cx hcx W hW v hv
    have hext := hext₃.trans hcx
    refine hsame cx hext W (fun r hr => hW r (hrewrites r hr)) v ?_
    rw [TyCtx.meaning, hcx.descr_eq hlt, hdescr,
      hext.meaning_eq (Descr.EachSig.settle hnormal.knows)] at hv
    rw [hext.meaning_eq hnormal.knows]
    exact Descr.mem_of_mem_settle (W.restrict hext) hv

/-! ## Runs -/

theorem Grows.mono {funcs funcs' : List (Conj ArrowSig)} {s s' : Interning}
    (h : Grows funcs s s') (hsub : ∀ c ∈ funcs, c ∈ funcs') : Grows funcs' s s' where
  extends_ := h.extends_
  none_eq := h.none_eq
  rewrites := h.rewrites
  steps := h.steps
  arrows Q hf hs := h.arrows Q (fun c hc => hf c (hsub c hc)) hs

/-- A later store of a run, whatever was interned on the way. -/
def Later (s s' : Interning) : Prop := ∃ funcs, Grows funcs s s'

namespace Later

variable {s s' s'' : Interning}

theorem refl (s : Interning) : Later s s := ⟨[], .refl s⟩

theorem trans (h : Later s s') (h' : Later s' s'') : Later s s'' := by
  obtain ⟨funcs, h⟩ := h
  obtain ⟨funcs', h'⟩ := h'
  exact ⟨funcs ++ funcs', (h.mono fun _ => List.mem_append_left _).trans
    (h'.mono fun _ => List.mem_append_right _)⟩

theorem extends_ (h : Later s s') : s.cx.Extends s'.cx := h.choose_spec.extends_

theorem lt (h : Later s s') {t : Ty} (ht : t < s.cx.arena.length) : t < s'.cx.arena.length :=
  Nat.lt_of_lt_of_le ht h.extends_.length_le

theorem rewrites (h : Later s s') : ∀ r ∈ s.rewrites, r ∈ s'.rewrites := h.choose_spec.rewrites

end Later

theorem InFinal.later {s s' : Interning} {R : ∀ cx, World cx → Prop} (h : InFinal s R)
    (hl : Later s s') : InFinal s' R :=
  h.grows hl.choose_spec

theorem Interning.any_spec (s : Interning) :
    s.any < s.cx.arena.length ∧ s.cx.descr s.any = Descr.any := by
  refine ⟨(List.getElem?_eq_some_iff.mp s.any_eq).1, ?_⟩
  rw [TyCtx.descr, List.getD_eq_getElem?_getD, s.any_eq, Option.getD_some]

/-- What interning a descriptor in the middle of a run comes to. -/
structure InternedDescr (d : Descr) (t : Ty) (s' : Interning) : Prop where
  lt : t < s'.cx.arena.length
  sub : InFinal s' fun cx W => ∀ v ∈ cx.meaning W.calls t, v ∈ d.meaning cx W.calls
  keeps : InFinal s' fun cx W => Each (Honest cx W.calls) d.funcs →
    ∀ v ∈ d.meaning cx W.calls, v ∈ cx.meaning W.calls t

section Runs

variable (order : ClauseOrder) (rounds : Nat)

theorem wp_internDescr {s : Interning} (hd : s.cx.Knows d) :
    wp (internDescr order rounds d) (fun t s' => Later s s' ∧ InternedDescr d t s')
      (fun _ => False) s := by
  have hdepth : Depth s.cx (d.rank + 1) d := .of_knows hd le_rfl
  refine ((interns_internAt order rounds (d.rank + 1) s d hdepth).and
    (wp_internAt_sub order rounds (d.rank + 1) hdepth)).imp ?_
  rintro t s' ⟨h, hsub⟩
  exact ⟨⟨_, h.grows⟩, h.depth.1, hsub,
    fun cx hcx W hW hhonest v hv => (h.meaning cx hcx W hW hhonest v).mpr hv⟩

end Runs

/-! ## The walk -/

section Walk

variable {P : Ty → Prop} {Q : Ty → Ty → Interning → Prop} {f : Ty → InternM Ty} {s : Interning}

/-- A function that replaces the types with a property, in all later stores. -/
def Replaces (P : Ty → Prop) (Q : Ty → Ty → Interning → Prop) (f : Ty → InternM Ty)
    (s : Interning) : Prop :=
  ∀ t, P t → ∀ s', Later s s' → wp (f t) (fun u s'' => Later s' s'' ∧ Q t u s'') (fun _ => False) s'

/-- What holds of a type and its replacement holds in later stores. -/
def Lasts {α β : Type} (Q : α → β → Interning → Prop) : Prop :=
  ∀ t u s s', Later s s' → Q t u s → Q t u s'

theorem wp_mapM_later {α β : Type} {g : α → InternM β} {R : α → β → Interning → Prop} (hR : Lasts R)
    {xs : List α} (hg : ∀ x ∈ xs, ∀ s', Later s s' →
      wp (g x) (fun y s'' => Later s' s'' ∧ R x y s'') (fun _ => False) s') :
    wp (xs.mapM g) (fun ys s' => Later s s' ∧ List.Forall₂ (fun x y => R x y s') xs ys)
      (fun _ => False) s :=
  wp_mapM (Q := R) Later.refl Later.trans (fun {x y a b} hl h => hR x y a b hl h) xs s hg

theorem wp_mapAxis {T : Type} {K : T → Prop} {g : T → InternM T} {R : T → T → Interning → Prop}
    (hR : Lasts R) (hg : ∀ x, K x → ∀ s', Later s s' →
      wp (g x) (fun y s'' => Later s' s'' ∧ R x y s'') (fun _ => False) s')
    {cs : List (Conj T)} (hcs : Each K cs) : wp (cs.mapM (mapConj g)) (fun cs' s' => Later s s' ∧
      List.Forall₂ (Conj.Rel fun x y => R x y s') cs cs') (fun _ => False) s := by
  refine wp_mapM_later (R := fun (c c' : Conj T) s' => c.Rel (fun x y => R x y s') c')
    (fun _ _ _ _ hl h => h.imp fun _ _ => hR _ _ _ _ hl) fun c hc s₁ h₁ => ?_
  rw [mapConj, wp_bind]
  refine (wp_mapM_later hR fun x hx s₂ h₂ => hg x ((hcs c hc).1 x hx) s₂ (h₁.trans h₂)).imp ?_
  rintro pos s₂ ⟨h₂, hpos⟩
  rw [wp_bind]
  refine (wp_mapM_later hR fun x hx s₃ h₃ =>
    hg x ((hcs c hc).2 x hx) s₃ ((h₁.trans h₂).trans h₃)).imp ?_
  rintro neg s₃ ⟨h₃, hneg⟩
  exact ⟨h₂.trans h₃, hpos.imp fun _ _ => hR _ _ _ _ h₃, hneg⟩

variable (hQ : Lasts Q) (hf : Replaces P Q f s)

include hf

theorem wp_mapListSig {x : ListSig} (hx : ∀ t, x.elem = some t → P t) {s' : Interning}
    (h : Later s s') : wp (mapListSig f x) (fun y s'' => Later s' s'' ∧ x.Replaced (Q · · s'') y)
      (fun _ => False) s' := by
  rw [mapListSig]
  split
  · rename_i helem
    refine ⟨.refl s', rfl, ?_⟩
    rw [helem]
    exact .none
  · rename_i t helem
    rw [wp_bind]
    refine (hf t (hx t helem) s' h).imp ?_
    rintro u s₁ ⟨h₁, hu⟩
    refine ⟨h₁, rfl, ?_⟩
    rw [helem]
    exact .some hu

theorem wp_mapResourceSig {x : ResourceSig} (hx : P x.payload) {s' : Interning} (h : Later s s') :
    wp (mapResourceSig f x) (fun y s'' => Later s' s'' ∧ x.Replaced (Q · · s'') y)
      (fun _ => False) s' := by
  rw [mapResourceSig, wp_bind]
  exact hf x.payload hx s' h

include hQ

theorem wp_mapTupleSig {x : TupleSig} (hx : ∀ t ∈ x.elems, P t) {s' : Interning} (h : Later s s') :
    wp (mapTupleSig f x) (fun y s'' => Later s' s'' ∧ x.Replaced (Q · · s'') y)
      (fun _ => False) s' := by
  rw [mapTupleSig, wp_bind]
  exact wp_mapM_later (R := Q) hQ fun t ht s₁ h₁ => hf t (hx t ht) s₁ (h.trans h₁)

theorem wp_mapArrowSig {x : ArrowSig} (hx : (SigPred.naming P).arrow x) {s' : Interning}
    (h : Later s s') : wp (mapArrowSig f x) (fun y s'' => Later s' s'' ∧ x.Replaced (Q · · s'') y)
      (fun _ => False) s' := by
  rw [mapArrowSig, wp_bind]
  refine (wp_mapM_later (R := Q) hQ fun t ht s₁ h₁ => hf t (hx.2.1 t ht) s₁ (h.trans h₁)).imp ?_
  rintro args s₁ ⟨h₁, hargs⟩
  rw [wp_bind]
  refine (hf x.ret hx.1 s₁ (h.trans h₁)).imp ?_
  rintro ret s₂ ⟨h₂, hret⟩
  exact ⟨h₁.trans h₂, hargs.imp fun _ _ => hQ _ _ _ _ h₂, hret, rfl⟩

theorem wp_mapMapSig {x : MapSig} (hx : ∀ p ∈ x.fields, P p.2) {s' : Interning} (h : Later s s') :
    wp (mapMapSig f x) (fun y s'' => Later s' s'' ∧ x.Replaced (Q · · s'') y)
      (fun _ => False) s' := by
  rw [mapMapSig, wp_bind]
  refine (wp_mapM_later (R := fun (field : MapKey × Ty) u s' => Q field.2 u s')
    (fun field u => hQ field.2 u)
    fun field hfield s₁ h₁ => hf field.2 (hx field hfield) s₁ (h.trans h₁)).imp ?_
  rintro values s₁ ⟨h₁, hvalues⟩
  exact ⟨h₁, MapSig.replaced_withValues hvalues⟩

/-- The walk replaces the types of a descriptor one by one. -/
theorem wp_mapRecursiveInputsWith {d : Descr} (hd : d.EachSig (.naming P)) :
    wp (mapRecursiveInputsWith f d) (fun d' s' => Later s s' ∧ d.Replaced (Q · · s') d' ∧
      d'.vars = d.vars) (fun _ => False) s := by
  rw [mapRecursiveInputsWith, wp_bind]
  refine (wp_mapAxis (R := fun x y s' => TupleSig.Replaced (Q · · s') x y)
    (fun _ _ _ _ hl h => h.imp fun _ _ => hQ _ _ _ _ hl)
    (fun x hx s' h => wp_mapTupleSig hQ hf hx h) hd.tuples).imp ?_
  rintro tuples s₁ ⟨h₁, htuples⟩
  rw [wp_bind]
  refine (wp_mapAxis (R := fun x y s' => ListSig.Replaced (Q · · s') x y)
    (fun _ _ _ _ hl h => h.imp fun _ _ => hQ _ _ _ _ hl)
    (fun x hx s' h => wp_mapListSig hf hx (h₁.trans h)) hd.lists).imp ?_
  rintro lists s₂ ⟨h₂, hlists⟩
  rw [wp_bind]
  have h₁₂ := h₁.trans h₂
  refine (wp_mapAxis (R := fun x y s' => ResourceSig.Replaced (Q · · s') x y)
    (fun _ _ _ _ => hQ _ _ _ _)
    (fun x hx s' h => wp_mapResourceSig hf hx (h₁₂.trans h)) hd.resources).imp ?_
  rintro resources s₃ ⟨h₃, hresources⟩
  rw [wp_bind]
  have h₁₃ := h₁₂.trans h₃
  refine (wp_mapAxis (R := fun x y s' => ArrowSig.Replaced (Q · · s') x y)
    (fun _ _ _ _ hl h => h.imp fun _ _ => hQ _ _ _ _ hl)
    (fun x hx s' h => wp_mapArrowSig hQ hf hx (h₁₃.trans h)) hd.funcs).imp ?_
  rintro funcs s₄ ⟨h₄, hfuncs⟩
  rw [wp_bind]
  have h₁₄ := h₁₃.trans h₄
  refine (wp_mapAxis (R := fun x y s' => MapSig.Replaced (Q · · s') x y)
    (fun _ _ _ _ hl h => h.imp fun _ _ => hQ _ _ _ _ hl)
    (fun x hx s' h => wp_mapMapSig hQ hf hx (h₁₄.trans h)) hd.maps).imp ?_
  rintro maps s₅ ⟨h₅, hmaps⟩
  have h₃₅ := h₃.trans (h₄.trans h₅)
  have h₂₅ := h₂.trans h₃₅
  refine ⟨h₁₄.trans h₅, ⟨rfl, rfl, rfl, rfl, ?_, ?_, ?_, ?_, hmaps⟩, rfl⟩
  · exact htuples.imp fun c c' h => h.imp fun _ _ h => h.imp fun _ _ => hQ _ _ _ _ h₂₅
  · exact hlists.imp fun c c' h => h.imp fun _ _ h => h.imp fun _ _ => hQ _ _ _ _ h₃₅
  · exact hresources.imp fun c c' h => h.imp fun _ _ => hQ _ _ _ _ (h₄.trans h₅)
  · exact hfuncs.imp fun c c' h => h.imp fun _ _ h => h.imp fun _ _ => hQ _ _ _ _ h₅

end Walk

/-! ## Instances -/

/-- What replaces a type is within its bounds, and means the same if it has no variables. -/
structure InstanceOf (t i : Ty) (s : Interning) : Prop where
  lt : i < s.cx.arena.length
  within : InFinal s fun cx W => WithinBounds cx W.calls t (cx.meaning W.calls i)
  same : InFinal s fun cx W => (cx.descr t).hasVars cx = false →
    cx.meaning W.calls i = cx.meaning W.calls t

/-- The descriptor that replaces a type, before it is interned. -/
structure DescrInstance (t : Ty) (d : Descr) (s : Interning) : Prop where
  knows : s.cx.Knows d
  within : InFinal s fun cx W => WithinBounds cx W.calls t (d.meaning cx W.calls)
  same : InFinal s fun cx W => (cx.descr t).hasVars cx = false →
    d.meaning cx W.calls = cx.meaning W.calls t
  honest : InFinal s fun cx W => (cx.descr t).hasVars cx = false ∨ GroundArrows cx (cx.descr t) →
    Each (Honest cx W.calls) d.funcs

theorem InstanceOf.lasts : Lasts InstanceOf := fun _ _ _ _ hl h =>
  ⟨hl.lt h.lt, h.within.later hl, h.same.later hl⟩

theorem DescrInstance.interned {t i : Ty} {s s' : Interning} (h : DescrInstance t d s)
    (hl : Later s s') (hi : InternedDescr d i s') : InstanceOf t i s' where
  lt := hi.lt
  within := by
    intro cx hcx W hW n q hground v
    have hwithin := (h.within.later hl) cx hcx W hW n q hground v
    cases q with
    | positive => exact fun hv => hwithin (hi.sub cx hcx W hW v hv)
    | negative =>
      intro hv
      cases n with
      | zero => exact hv.elim
      | succ n =>
        rcases hground with ⟨hq, -⟩ | ⟨harrows, -⟩
        · exact nomatch hq
        · exact hi.keeps cx hcx W hW ((h.honest.later hl) cx hcx W hW (.inr (harrows rfl))) v
            (hwithin hv)
  same := by
    intro cx hcx W hW hvars
    rw [← (h.same.later hl) cx hcx W hW hvars]
    exact Set.Subset.antisymm (hi.sub cx hcx W hW)
      (hi.keeps cx hcx W hW ((h.honest.later hl) cx hcx W hW (.inl hvars)))

theorem substituted_of {P : Descr → Prop} {σ : Sigma} (hnone : P Descr.none)
    (hunion : ∀ a b, P a → P b → P (a.union b)) (hdescr : ∀ t, P (cx.descr t))
    (vars : FiniteSet Nat) : P (substituted cx σ vars) := by
  rw [substituted]
  generalize vars.values.sort (· ≤ ·) = ids
  generalize Descr.none = acc at hnone
  induction ids generalizing acc with
  | nil => exact hnone
  | cons id ids ih =>
    refine ih _ ?_
    dsimp only
    split
    · exact hunion _ _ hnone (hdescr _)
    · exact hnone

theorem ArrowSig.Replaced.honest {Q : Ty → Ty → Prop} {calls : Calls} {s s' : ArrowSig}
    (h : s.Replaced Q s') (hsame : ∀ t ∈ s.ret :: s.args, ∀ u, Q t u →
      cx.meaning calls u = cx.meaning calls t) (hs : Honest cx calls s) : Honest cx calls s' := by
  obtain ⟨hargs, hret, hlit⟩ := h
  have hargs' : s'.args.map (cx.meaning calls) = s.args.map (cx.meaning calls) :=
    map_eq_of_forall₂ hargs fun t ht u htu => hsame t (.tail _ ht) u htu
  intro l hl f captures hholds
  rw [hlit] at hl
  rw [ArrowSig.Maps, hargs', hsame _ (.head _) _ hret]
  exact hs l hl f captures hholds

section Instantiate

variable (order : ClauseOrder) (rounds : Nat) {σ : Sigma}

theorem DescrInstance.of_ground {t : Ty} {s : Interning} (ht : t < s.cx.arena.length) :
    DescrInstance t (s.cx.descr t) s where
  knows := s.cx.knows_descr t
  within := by
    intro cx hcx W _ n q _ v
    rw [← hcx.descr_eq ht]
    exact TyCtx.meaning_within_bound n q t v
  same := by
    intro cx hcx W _ _
    rw [← hcx.descr_eq ht]
    rfl
  honest := fun cx hcx W _ _ => (FromArena.descr s.cx t).honest hcx W

theorem DescrInstance.of_walk {t : Ty} {s s' : Interning} {walked joined : Descr} (hl : Later s s')
    (ht : t < s.cx.arena.length) (hvars : (s.cx.descr t).hasVars s.cx = true)
    (hwalked : (s.cx.descr t).Replaced (InstanceOf · · s') walked)
    (hknows : s.cx.Knows joined) (hfrom : FromArena s.cx joined)
    (hjoined : (s.cx.descr t).vars.values = ∅ → joined = Descr.none) :
    DescrInstance t (walked.union joined) s' := by
  have hstill : ∀ {cx}, s'.cx.Extends cx → (cx.descr t).hasVars cx ≠ false := by
    intro cx hcx
    have hext := hl.extends_.trans hcx
    rw [hext.descr_eq ht, hext.hasVars_eq (s.cx.knows_descr t), hvars]
    exact Bool.noConfusion
  have harrows : ∀ cx, s'.cx.Extends cx → ∀ W : World cx,
      (∀ r ∈ s'.rewrites, r.Sound cx W.calls) → GroundArrows cx (cx.descr t) →
        Each (fun s => ∀ u ∈ s.ret :: s.args, ∀ i, InstanceOf u i s' →
          cx.meaning W.calls i = cx.meaning W.calls u) (cx.descr t).funcs := by
    intro cx hcx W hW hground c hc
    exact ⟨fun s hs u hu i hi => hi.same cx hcx W hW ((hground c hc).1 s hs u hu),
      fun s hs u hu i hi => hi.same cx hcx W hW ((hground c hc).2 s hs u hu)⟩
  refine ⟨?_, fun cx hcx W hW n q hground v => ?_, fun cx hcx W _ h => absurd h (hstill hcx),
    fun cx hcx W hW h => ?_⟩
  · exact (hwalked.naming (fun _ _ h => h.lt) ((s.cx.knows_descr t).of_extends hl.extends_)).union
      (hknows.of_extends hl.extends_)
  · have hext := hl.extends_.trans hcx
    rw [← hext.descr_eq ht] at hwalked hjoined
    cases n with
    | zero => exact TyCtx.within_bound_zero
    | succ n =>
      rw [Descr.mem_meaning]
      rcases hground with ⟨rfl, hne⟩ | ⟨hground, hnaming⟩
      · exact fun _ => .inl ⟨rfl, hne⟩
      have hwithin := hwalked.within W.calls (X := cx.meaning W.calls)
        (fun q u i hi hP v => hi.within cx hcx W hW n q hP v) hnaming
        (fun hq => harrows cx hcx W hW (hground hq)) v
      cases q with
      | positive =>
        intro hv
        rcases Finset.eq_empty_or_nonempty (cx.descr t).vars.values with hempty | hne
        · rw [hjoined hempty, Descr.mem_union_of_looksEmpty (.inr rfl)] at hv
          rcases hv with hv | hv
          · exact .inr (hwithin hv)
          · exact absurd hv (Descr.not_mem_of_looksEmpty rfl v)
        · exact .inl ⟨rfl, hne.ne_empty⟩
      | negative =>
        rintro (⟨hq, -⟩ | hv)
        · exact nomatch hq
        · exact Descr.mem_union_of_mem (.inl (hwithin hv))
  · have hext := hl.extends_.trans hcx
    rw [← hext.descr_eq ht] at hwalked
    have hground := h.resolve_left (hstill hcx)
    have hhonest : Each (Honest cx W.calls) walked.funcs := by
      intro c' hc'
      obtain ⟨c, hc, hpos, hneg⟩ := exists_of_forall₂_right hwalked.funcs hc'
      have hsame := harrows cx hcx W hW hground c hc
      constructor
      · intro x' hx'
        obtain ⟨x, hx, hxx'⟩ := exists_of_forall₂_right hpos hx'
        exact hxx'.honest (hsame.1 x hx) ((W.honest t c hc).1 x hx)
      · intro x' hx'
        obtain ⟨x, hx, hxx'⟩ := exists_of_forall₂_right hneg hx'
        exact hxx'.honest (hsame.2 x hx) ((W.honest t c hc).2 x hx)
    exact (Descr.EachSig.union (Descr.eachSig_onArrow_iff.mpr hhonest)
      (Descr.eachSig_onArrow_iff.mpr (hfrom.honest hext W))).funcs

theorem TyCtx.child_lt (cx : TyCtx) {t u : Ty} (ht : t < cx.arena.length)
    (hu : u ∈ (cx.descr t).children) : u < t := by
  refine cx.children_lt t _ ?_ u hu
  rw [TyCtx.descr, List.getD_eq_getElem?_getD, List.getElem?_eq_getElem ht]
  rfl

/-- Replacing the variables of a type succeeds, by induction on the bound of its id. -/
theorem wp_instantiateAt (n : Nat) : ∀ {t : Ty} {s : Interning}, t < n → t < s.cx.arena.length →
    wp (instantiateAt order rounds σ n t)
      (fun d s' => Later s s' ∧ DescrInstance t d s') (fun _ => False) s := by
  induction n with
  | zero => exact fun h => absurd h (Nat.not_lt_zero _)
  | succ n ih =>
    intro t s htn ht
    rw [instantiateAt, wp_bind, wp_get]
    dsimp only
    split
    · exact ⟨.refl s, .of_ground ht⟩
    rename_i hvars
    rw [Bool.not_eq_true', Bool.not_eq_false] at hvars
    obtain ⟨vars, hbase⟩ : ∃ vars, (if (s.cx.descr t).vars.cofinite then s.cx.descr t else
        { s.cx.descr t with vars := unsubstituted σ (s.cx.descr t).vars }) =
          { s.cx.descr t with vars := vars } := by
      split
      · exact ⟨_, rfl⟩
      · exact ⟨_, rfl⟩
    rw [hbase, wp_bind]
    have hnaming : ({ s.cx.descr t with vars := vars } : Descr).EachSig
        (.naming fun u => u < n ∧ u < s.cx.arena.length) := by
      have hchildren : (s.cx.descr t).EachSig (.naming fun u => u < n ∧ u < s.cx.arena.length) :=
        Descr.eachChild_iff_eachSig.mp fun u hu =>
          ⟨Nat.lt_of_lt_of_le (s.cx.child_lt ht hu) (Nat.le_of_lt_succ htn),
            (s.cx.child_lt ht hu).trans ht⟩
      exact ⟨hchildren.tuples, hchildren.lists, hchildren.resources, hchildren.funcs,
        hchildren.maps⟩
    refine (wp_mapRecursiveInputsWith InstanceOf.lasts (fun u hu s₁ h₁ => ?_) hnaming).imp ?_
    · rw [wp_bind]
      refine (ih hu.1 (h₁.lt hu.2)).imp ?_
      rintro d s₂ ⟨h₂, hd⟩
      refine (wp_internDescr order rounds hd.knows).imp ?_
      rintro i s₃ ⟨h₃, hi⟩
      exact ⟨h₂.trans h₃, hd.interned h₃ hi⟩
    · rintro walked s₁ ⟨h₁, hreplaced, -⟩
      have hjoined : ∀ {P : Descr → Prop}, P Descr.none → (∀ a b, P a → P b → P (a.union b)) →
          (∀ t, P (s.cx.descr t)) → P (if (s.cx.descr t).vars.cofinite then Descr.none
            else substituted s.cx σ (s.cx.descr t).vars) := by
        intro P hnone hunion hdescr
        split
        · exact hnone
        · exact substituted_of hnone hunion hdescr _
      refine ⟨h₁, .of_walk h₁ ht hvars
        ⟨hreplaced.basic, hreplaced.atoms, hreplaced.opaques, hreplaced.brands, hreplaced.tuples,
          hreplaced.lists, hreplaced.resources, hreplaced.funcs, hreplaced.maps⟩
        (hjoined Descr.EachSig.none (fun _ _ => Descr.EachSig.union) s.cx.knows_descr)
        (hjoined (fun Q _ => (Descr.EachSig.none (P := .onArrow Q)).funcs)
          (fun _ _ => FromArena.union) (FromArena.descr s.cx)) fun hempty => ?_⟩
      split
      · rfl
      · rw [substituted, hempty, Finset.sort_empty]
        rfl

theorem wp_instantiate {t : Ty} {s : Interning} (ht : t < s.cx.arena.length) :
    wp (instantiate order rounds σ t) (fun i s' => Later s s' ∧ InstanceOf t i s')
      (fun _ => False) s := by
  rw [instantiate, wp_bind, wp_get]
  split
  · refine ⟨.refl s, ht, fun cx _ W _ n q _ v => ?_, fun _ _ _ _ _ => rfl⟩
    exact TyCtx.meaning_within_bound n q t v
  · rw [wp_bind]
    refine (wp_instantiateAt order rounds (t + 1) (Nat.lt_succ_self t) ht).imp ?_
    rintro d s₁ ⟨h₁, hd⟩
    refine (wp_internDescr order rounds hd.knows).imp ?_
    rintro i s₂ ⟨h₂, hi⟩
    exact ⟨h₁.trans h₂, hd.interned h₂ hi⟩

end Instantiate

/-! ## Envelopes -/

/-- A type around the bounds of another, read to depth `m` and more. -/
structure EnvelopeOf (m : Nat) (q : RuntimeEnvelopePolarity) (t e : Ty) (s : Interning) : Prop where
  lt : e < s.cx.arena.length
  around : InFinal s fun cx W => ∀ k, m ≤ k → ∀ v,
    q.Within (v ∈ cx.bound W.calls k q t) (v ∈ cx.meaning W.calls e)

/-- The descriptor of an envelope, before it is interned. -/
structure DescrEnvelope (m : Nat) (q : RuntimeEnvelopePolarity) (t : Ty) (d : Descr)
    (s : Interning) : Prop where
  knows : s.cx.Knows d
  around : InFinal s fun cx W => ∀ k, m ≤ k → ∀ v,
    q.Within (v ∈ cx.bound W.calls k q t) (v ∈ d.meaning cx W.calls)
  honest : InFinal s fun cx W => Each (Honest cx W.calls) d.funcs

/-- What becomes of a signature holds where the signature is within its bounds, for any `x` that the
axis is asked about. -/
structure SigEnvelope {T X : Type} (K : TyCtx → T → Prop)
    (bnd : (cx : TyCtx) → World cx → RuntimeEnvelopePolarity → T → X → Prop)
    (holds : (cx : TyCtx) → World cx → T → X → Prop) (q : RuntimeEnvelopePolarity) (sig : T)
    (out : Option T) (s : Interning) : Prop where
  known : ∀ sig' ∈ out, K s.cx sig'
  around : InFinal s fun cx W => ∀ x, q.Within (bnd cx W q sig x) (∃ sig' ∈ out, holds cx W sig' x)

theorem EnvelopeOf.lasts {m : Nat} {q : RuntimeEnvelopePolarity} : Lasts (EnvelopeOf m q) :=
  fun _ _ _ _ hl h => ⟨hl.lt h.lt, h.around.later hl⟩

theorem DescrEnvelope.interned {m : Nat} {q : RuntimeEnvelopePolarity} {t e : Ty}
    {s s' : Interning} (h : DescrEnvelope m q t d s) (hl : Later s s') (he : InternedDescr d e s') :
    EnvelopeOf m q t e s' where
  lt := he.lt
  around := by
    intro cx hcx W hW k hk v
    refine ((h.around.later hl) cx hcx W hW k hk v).trans (.of_iff ⟨?_, he.sub cx hcx W hW v⟩)
    exact he.keeps cx hcx W hW ((h.honest.later hl) cx hcx W hW) v

section Axis

variable {T X : Type} {K : TyCtx → T → Prop}
  {bnd : (cx : TyCtx) → World cx → RuntimeEnvelopePolarity → T → X → Prop}
  {holds : (cx : TyCtx) → World cx → T → X → Prop}
  {transform : RuntimeEnvelopePolarity → T → InternM (Option T)} {L : T → Prop} {s : Interning}

theorem SigEnvelope.lasts (hK : ∀ {cx cx'} x, cx.Extends cx' → K cx x → K cx' x)
    {q : RuntimeEnvelopePolarity} : Lasts (SigEnvelope K bnd holds q) :=
  fun _ _ _ _ hl h => ⟨fun x hx => hK x hl.extends_ (h.known x hx), h.around.later hl⟩

/-- The transformation makes envelopes of the signatures with a property, in all later stores. -/
def Envelops (K : TyCtx → T → Prop)
    (bnd : (cx : TyCtx) → World cx → RuntimeEnvelopePolarity → T → X → Prop)
    (holds : (cx : TyCtx) → World cx → T → X → Prop)
    (transform : RuntimeEnvelopePolarity → T → InternM (Option T)) (L : T → Prop)
    (s : Interning) : Prop :=
  ∀ q x, L x → ∀ s', Later s s' → wp (transform q x)
    (fun o s'' => Later s' s'' ∧ SigEnvelope K bnd holds q x o s'') (fun _ => False) s'

variable (hK : ∀ {cx cx'} x, cx.Extends cx' → K cx x → K cx' x)
  (htransform : Envelops K bnd holds transform L s)

include hK htransform

/-- A clause has no envelope when a positive factor has none. -/
theorem wp_runtimePositives (q : RuntimeEnvelopePolarity) : ∀ (sigs : List T) {s' : Interning},
    (∀ x ∈ sigs, L x) → Later s s' →
      wp (runtimePositives (transform q) sigs) (fun o s'' => Later s' s'' ∧
        SigEnvelope (fun cx (l : List T) => ∀ x ∈ l, K cx x)
          (fun cx W q l x => ∀ p ∈ l, bnd cx W q p x)
          (fun cx W l x => ∀ p ∈ l, holds cx W p x) q sigs o s'') (fun _ => False) s' := by
  intro sigs
  induction sigs with
  | nil =>
    refine fun _ _ => ⟨.refl _, fun l hl => ?_, fun cx _ W _ x => .of_iff ?_⟩
    · rw [← Option.some.inj hl]
      exact fun _ h => nomatch h
    · exact ⟨fun _ => ⟨[], rfl, fun _ h => nomatch h⟩, fun _ _ h => nomatch h⟩
  | cons sig sigs ih =>
    intro s' hsigs hl
    have hsplit : ∀ {P : T → Prop}, (∀ p ∈ sig :: sigs, P p) ↔ P sig ∧ ∀ p ∈ sigs, P p :=
      List.forall_mem_cons
    rw [runtimePositives, wp_bind]
    refine (htransform q sig (hsigs sig (.head _)) s' hl).imp ?_
    rintro o s₁ ⟨h₁, ho⟩
    have hnone : ∀ {α : Type} {P : α → Prop}, ¬∃ x ∈ (none : Option α), P x :=
      fun ⟨_, h, _⟩ => nomatch h
    cases o with
    | none =>
      refine ⟨h₁, ⟨fun l hl => (nomatch hl), fun cx hcx W hW x => ?_⟩⟩
      rw [hsplit]
      exact RuntimeEnvelopePolarity.Within.drop (ho.around cx hcx W hW x) hnone hnone
    | some sig' =>
      rw [wp_bind]
      refine (ih (fun x hx => hsigs x (.tail _ hx)) (hl.trans h₁)).imp ?_
      rintro o s₂ ⟨h₂, hrest⟩
      have ho₂ := ho.around.later h₂
      cases o with
      | none =>
        refine ⟨h₁.trans h₂, ⟨fun l hl => (nomatch hl), fun cx hcx W hW x => ?_⟩⟩
        rw [hsplit, and_comm]
        exact RuntimeEnvelopePolarity.Within.drop (hrest.around cx hcx W hW x) hnone hnone
      | some rest =>
        refine ⟨h₁.trans h₂, ⟨fun l hl => ?_, fun cx hcx W hW x => ?_⟩⟩
        · rw [← Option.some.inj hl, List.forall_mem_cons]
          exact ⟨hK sig' h₂.extends_ (ho.known sig' rfl), hrest.known rest rfl⟩
        · rw [hsplit]
          refine RuntimeEnvelopePolarity.Within.trans
            (.and (ho₂ cx hcx W hW x) (hrest.around cx hcx W hW x)) (.of_iff ?_)
          constructor
          · rintro ⟨⟨_, ⟨⟩, h⟩, ⟨_, ⟨⟩, h'⟩⟩
            exact ⟨_, rfl, List.forall_mem_cons.mpr ⟨h, h'⟩⟩
          · rintro ⟨_, ⟨⟩, h⟩
            exact ⟨⟨_, rfl, h sig' (.head _)⟩, ⟨_, rfl, fun p hp => h p (.tail _ hp)⟩⟩

theorem wp_runtimeStructuralConj (q : RuntimeEnvelopePolarity) {c : Conj T} (hc : Each L [c])
    {s' : Interning} (hl : Later s s') :
    wp (runtimeStructuralConj transform q c) (fun o s'' => Later s' s'' ∧
      SigEnvelope (fun cx (c : Conj T) => Each (K cx) [c])
        (fun cx W q c x => (∀ p ∈ c.pos, bnd cx W q p x) ∧ ∀ n ∈ c.neg, ¬bnd cx W q.flipped n x)
        (fun cx W c x => c.Holds fun p => holds cx W p x) q c o s'') (fun _ => False) s' := by
  rw [runtimeStructuralConj, wp_bind]
  have hparts := hc c (.head _)
  refine (wp_runtimePositives hK htransform q c.pos hparts.1 hl).imp ?_
  rintro o s₁ ⟨h₁, hpos⟩
  cases o with
  | none =>
    refine ⟨h₁, ⟨fun l hl => (nomatch hl), fun cx hcx W hW x => ?_⟩⟩
    exact RuntimeEnvelopePolarity.Within.drop (hpos.around cx hcx W hW x)
      (fun ⟨_, h, _⟩ => nomatch h) (fun ⟨_, h, _⟩ => nomatch h)
  | some pos =>
    rw [wp_bind]
    refine (wp_mapM_later (R := SigEnvelope K bnd holds q.flipped) (SigEnvelope.lasts hK)
      fun x hx s₂ h₂ => htransform q.flipped x (hparts.2 x hx) s₂ ((hl.trans h₁).trans h₂)).imp ?_
    rintro outs s₂ ⟨h₂, hneg⟩
    refine ⟨h₁.trans h₂, ⟨fun c' hc' => ?_, fun cx hcx W hW x => ?_⟩⟩
    · rw [← Option.some.inj hc']
      intro c' hc'
      rw [List.mem_singleton.mp hc']
      refine ⟨fun p hp => hK p h₂.extends_ (hpos.known pos rfl p hp), fun n hn => ?_⟩
      obtain ⟨sig, -, hsig⟩ := exists_of_forall₂_right hneg (List.reduceOption_mem_iff.mp hn)
      exact hsig.known n rfl
    · -- a negative factor without an envelope takes nothing away
      have hout : (∀ o ∈ outs, ¬∃ sig ∈ o, holds cx W sig x) ↔
          ∀ n ∈ outs.reduceOption, ¬holds cx W n x := by
        simp only [List.reduceOption_mem_iff]
        exact ⟨fun h n hn hx => h _ hn ⟨n, rfl, hx⟩, fun h o ho ⟨n, hn, hx⟩ => h n (hn ▸ ho) hx⟩
      have hnegs : q.Within (∀ n ∈ c.neg, ¬bnd cx W q.flipped n x)
          (∀ o ∈ outs, ¬∃ sig ∈ o, holds cx W sig x) :=
        .forall₂ hneg.flip fun o _ n ho => .not (ho.around cx hcx W hW x)
      refine RuntimeEnvelopePolarity.Within.trans
        (.and (hpos.around.later h₂ cx hcx W hW x) hnegs) (.of_iff ?_)
      rw [hout]
      constructor
      · rintro ⟨⟨_, ⟨⟩, h⟩, h'⟩
        exact ⟨_, rfl, h, h'⟩
      · rintro ⟨_, ⟨⟩, h, h'⟩
        exact ⟨⟨_, rfl, h⟩, h'⟩

theorem wp_runtimeStructuralAxis (q : RuntimeEnvelopePolarity) {cs : List (Conj T)}
    (hcs : Each L cs) {s' : Interning} (hl : Later s s') :
    wp (runtimeStructuralAxis transform q cs) (fun cs' s'' => Later s' s'' ∧ Each (K s''.cx) cs' ∧
      InFinal s'' fun cx W => ∀ x, q.Within (PolarHolds (fun q sig => bnd cx W q sig x) q cs)
        (DnfHolds (fun sig => holds cx W sig x) cs')) (fun _ => False) s' := by
  rw [runtimeStructuralAxis, wp_bind]
  refine (wp_mapM_later (SigEnvelope.lasts (K := fun cx (c : Conj T) => Each (K cx) [c])
    fun c hext hc => ?_) fun c hc s₁ h₁ => wp_runtimeStructuralConj hK htransform q
      (hcs.of_subset fun c' hc' => List.mem_singleton.mp hc' ▸ hc) (hl.trans h₁)).imp ?_
  · exact hc.imp fun x hx => hK x hext hx
  rintro outs s₁ ⟨h₁, houts⟩
  refine ⟨h₁, fun c' hc' => ?_, fun cx hcx W hW x => ?_⟩
  · obtain ⟨c, -, hof⟩ := exists_of_forall₂_right houts (List.reduceOption_mem_iff.mp hc')
    exact hof.known c' rfl c' (.head _)
  · have hout : (∃ o ∈ outs, ∃ c ∈ o, c.Holds fun p => holds cx W p x) ↔
        DnfHolds (fun sig => holds cx W sig x) outs.reduceOption := by
      simp only [DnfHolds, List.reduceOption_mem_iff]
      constructor
      · rintro ⟨o, ho, c, hc, h⟩
        exact ⟨c, hc ▸ ho, h⟩
      · rintro ⟨c, hc, h⟩
        exact ⟨_, hc, c, rfl, h⟩
    refine RuntimeEnvelopePolarity.Within.trans ?_ (.of_iff hout)
    exact .exists₂ houts.flip fun o _ c hof => hof.around cx hcx W hW x

end Axis

section Signatures

variable {m : Nat} {envelope : RuntimeEnvelopePolarity → Ty → InternM Ty} {P : Ty → Prop}
  {s : Interning}

/-- The function makes envelopes of the types with a property, in all later stores. -/
def EnvelopesTypes (m : Nat) (envelope : RuntimeEnvelopePolarity → Ty → InternM Ty) (P : Ty → Prop)
    (s : Interning) : Prop :=
  ∀ q, Replaces P (EnvelopeOf m q) (envelope q) s

variable (hE : EnvelopesTypes m envelope P s)

include hE

theorem wp_mapM_envelope (q : RuntimeEnvelopePolarity) {ts : List Ty} (hts : ∀ t ∈ ts, P t)
    {s' : Interning} (hl : Later s s') : wp (ts.mapM (envelope q)) (fun es s'' => Later s' s'' ∧
      List.Forall₂ (fun t e => EnvelopeOf m q t e s'') ts es) (fun _ => False) s' :=
  wp_mapM_later EnvelopeOf.lasts fun t ht s₁ h₁ => hE q t (hts t ht) s₁ (hl.trans h₁)

theorem envelops_tuples : Envelops (fun cx (x : TupleSig) => ∀ t ∈ x.elems, t < cx.arena.length)
    (fun cx W q x (kv : {k // m ≤ k} × List Val) => x.Holds (cx.bound W.calls kv.1 q) kv.2)
    (fun cx W x kv => x.Holds (cx.meaning W.calls) kv.2) (runtimeTupleSig envelope)
    (fun x => ∀ t ∈ x.elems, P t) s := by
  intro q x hx s' hl
  rw [runtimeTupleSig, wp_bind]
  refine (wp_mapM_envelope hE q hx hl).imp ?_
  rintro elems s₁ ⟨h₁, helems⟩
  rw [wp_bind, wp_get]
  have hlt : ∀ e ∈ elems, e < s₁.cx.arena.length := fun e he => by
    obtain ⟨t, -, hof⟩ := exists_of_forall₂_right helems he
    exact hof.lt
  have hwithin : ∀ cx, s₁.cx.Extends cx → ∀ W : World cx, (∀ r ∈ s₁.rewrites, r.Sound cx W.calls) →
      ∀ kv : {k // m ≤ k} × List Val, q.Within (x.Holds (cx.bound W.calls kv.1 q) kv.2)
        (kv.2 ∈ listProd (elems.map (cx.meaning W.calls))) := fun cx hcx W hW kv =>
    within_listProd (helems.flip.imp fun e t hof => hof.around cx hcx W hW kv.1 kv.1.2) kv.2
  refine ⟨h₁, ⟨fun x' hx' => ?_, fun cx hcx W hW kv => (hwithin cx hcx W hW kv).trans (.of_iff ?_)⟩⟩
  · split at hx'
    · exact nomatch hx'
    · rw [← Option.some.inj hx']
      exact hlt
  · split
    · rename_i hany
      obtain ⟨e, he, hnone⟩ := List.any_eq_true.mp hany
      rw [decide_eq_true_eq] at hnone
      refine iff_of_false (fun hmem => ?_) fun ⟨_, h, _⟩ => nomatch h
      obtain ⟨v, -, hv⟩ := exists_of_forall₂_right hmem (List.mem_map_of_mem he)
      rw [hnone] at hv
      exact s₁.meaning_none hcx W v hv
    · exact ⟨fun h => ⟨_, rfl, h⟩, fun ⟨_, hsome, h⟩ => by
        rw [← Option.some.inj hsome] at h
        exact h⟩

theorem envelops_resources : Envelops (fun cx (x : ResourceSig) => x.payload < cx.arena.length)
    (fun cx W q x (kv : {k // m ≤ k} × Val) => x.Holds (cx.bound W.calls kv.1 q) kv.2)
    (fun cx W x kv => x.Holds (cx.meaning W.calls) kv.2) (runtimeResourceSig envelope)
    (fun x => P x.payload) s := by
  intro q x hx s' hl
  rw [runtimeResourceSig, wp_bind]
  refine (hE q x.payload hx s' hl).imp ?_
  rintro payload s₁ ⟨h₁, hpayload⟩
  rw [wp_bind, wp_get]
  refine ⟨h₁, ⟨fun x' hx' => ?_, fun cx hcx W hW kv =>
    RuntimeEnvelopePolarity.Within.trans (hpayload.around cx hcx W hW kv.1 kv.1.2 kv.2)
      (.of_iff ?_)⟩⟩
  · split at hx'
    · exact nomatch hx'
    · rw [← Option.some.inj hx']
      exact hpayload.lt
  · split
    · rename_i hnone
      rw [hnone]
      exact iff_of_false (s₁.meaning_none hcx W kv.2) fun ⟨_, h, _⟩ => nomatch h
    · exact ⟨fun h => ⟨_, rfl, h⟩, fun ⟨_, hsome, h⟩ => by
        rw [← Option.some.inj hsome] at h
        exact h⟩

theorem envelops_lists : Envelops
    (fun cx (x : ListSig) => ∀ t, x.elem = some t → t < cx.arena.length)
    (fun cx W q x (kv : {k // m ≤ k} × List Val) => x.Holds (cx.bound W.calls kv.1 q) kv.2)
    (fun cx W x kv => x.Holds (cx.meaning W.calls) kv.2) (runtimeListSig envelope)
    (fun x => ∀ t, x.elem = some t → P t) s := by
  intro q x hx s' hl
  rw [runtimeListSig]
  split
  · rename_i helem
    refine ⟨.refl s', ⟨fun x' hx' => ?_, fun cx _ W _ kv => .of_iff ?_⟩⟩
    · rw [← Option.some.inj hx']
      intro t ht
      cases helem.symm.trans ht
    · have hsame : x.Holds (cx.bound W.calls kv.1 q) kv.2 ↔ x.Holds (cx.meaning W.calls) kv.2 := by
        cases kv.2 with
        | nil => exact Iff.rfl
        | cons v vs => simp only [ListSig.Holds, helem, reduceCtorEq, false_and, exists_false]
      rw [hsame]
      refine ⟨fun h => ⟨_, rfl, h⟩, ?_⟩
      rintro ⟨_, hsome, h⟩
      exact Option.some.inj hsome ▸ h
  · rename_i t helem
    rw [wp_bind]
    refine (hE q t (hx t helem) s' hl).imp ?_
    rintro e s₁ ⟨h₁, he⟩
    rw [wp_bind, wp_get]
    have hwithin : ∀ cx, s₁.cx.Extends cx → ∀ W : World cx,
        (∀ r ∈ s₁.rewrites, r.Sound cx W.calls) → ∀ kv : {k // m ≤ k} × List Val,
          q.Within (x.Holds (cx.bound W.calls kv.1 q) kv.2)
            ( ListSig.Holds (cx.meaning W.calls) kv.2 ⟨x.empty, some e⟩) := by
      intro cx hcx W hW kv
      have hrel : ( ListSig.mk x.empty (some e)).Replaced (fun e t => EnvelopeOf m q t e s₁) x := by
        refine ⟨rfl, ?_⟩
        rw [helem]
        exact .some he
      exact hrel.within (fun _ _ t ht => ht.around cx hcx W hW kv.1 kv.1.2) kv.2
    -- no list of values of the empty type but the empty list
    have hnil : e = s₁.none → ∀ cx, s₁.cx.Extends cx → ∀ W : World cx, ∀ (b : Bool) (vs : List Val),
        ListSig.Holds (cx.meaning W.calls) vs ⟨b, some e⟩ ↔ b = true ∧ vs = [] := by
      rintro rfl cx hcx W b vs
      cases vs with
      | nil => exact (and_iff_left rfl).symm
      | cons v vs =>
        refine iff_of_false ?_ fun h => by cases h.2
        rintro ⟨_, ⟨⟩, hall⟩
        exact s₁.meaning_none hcx W v (hall v (.head _))
    split
    · rename_i hdrop
      rw [Bool.and_eq_true, decide_eq_true_eq, Bool.not_eq_true'] at hdrop
      refine ⟨h₁, ⟨fun _ h => (by cases h), fun cx hcx W hW kv =>
        (hwithin cx hcx W hW kv).trans (.of_iff ?_)⟩⟩
      rw [hnil hdrop.1 cx hcx W, hdrop.2]
      exact iff_of_false (fun h => by cases h.1) (by rintro ⟨_, ⟨⟩, -⟩)
    rename_i hkeep
    split
    · rename_i hnone
      rw [decide_eq_true hnone, Bool.true_and, Bool.not_eq_true', Bool.not_eq_false] at hkeep
      refine ⟨h₁, ⟨fun x' hx' => ?_, fun cx hcx W hW kv =>
        (hwithin cx hcx W hW kv).trans (.of_iff ?_)⟩⟩
      · rw [← Option.some.inj hx']
        exact fun _ h => by cases h
      · rw [hnil hnone cx hcx W, hkeep]
        constructor
        · rintro ⟨-, hvs⟩
          refine ⟨_, rfl, ?_⟩
          rw [hvs]
          rfl
        · rintro ⟨_, ⟨⟩, h⟩
          refine ⟨rfl, ?_⟩
          cases hvs : kv.2 with
          | nil => rfl
          | cons v vs =>
            rw [hvs] at h
            exact h.elim fun _ h => by cases h.1
    · refine ⟨h₁, ⟨fun x' hx' => ?_, fun cx hcx W hW kv =>
        (hwithin cx hcx W hW kv).trans (.of_iff ?_)⟩⟩
      · rw [← Option.some.inj hx']
        rintro _ ⟨⟩
        exact he.lt
      · refine ⟨fun h => ⟨_, rfl, h⟩, ?_⟩
        rintro ⟨_, hsome, h⟩
        exact Option.some.inj hsome ▸ h

theorem envelops_maps : Envelops (fun cx (x : MapSig) => ∀ f ∈ x.fields, f.2 < cx.arena.length)
    (fun cx W q x (kv : {k // m ≤ k} × MapTag × (MapKey → Option Val)) =>
      x.Seen (cx.bound W.calls kv.1 q) q kv.2.1 kv.2.2)
    (fun cx W x kv => x.Holds (cx.meaning W.calls) kv.2.1 kv.2.2)
    (runtimeMapSig envelope .predicate) (fun x => ∀ f ∈ x.fields, P f.2) s := by
  intro q x hx s' hl
  have hstruct : ∀ name, x.tag = .struct name → wp (runtimeMapSig envelope .predicate q x)
      (fun o s'' => Later s' s'' ∧ SigEnvelope
        (fun cx (x : MapSig) => ∀ f ∈ x.fields, f.2 < cx.arena.length)
        (fun cx W q x (kv : {k // m ≤ k} × MapTag × (MapKey → Option Val)) =>
          x.Seen (cx.bound W.calls kv.1 q) q kv.2.1 kv.2.2)
        (fun cx W x kv => x.Holds (cx.meaning W.calls) kv.2.1 kv.2.2) q x o s'')
      (fun _ => False) s' := by
    intro name htag
    cases q with
    | positive =>
      simp only [runtimeMapSig, htag]
      refine ⟨.refl s', ⟨fun x' hx' => ?_, fun cx _ W _ kv => ?_⟩⟩
      · rw [← Option.some.inj hx']
        exact fun _ h => nomatch h
      · rw [MapSig.seen_positive htag, htag]
        exact fun h => ⟨_, rfl, h, fun _ h => nomatch h⟩
    | negative =>
      simp only [runtimeMapSig, htag]
      refine ⟨.refl s', ⟨fun x' hx' => ?_, fun cx _ W _ kv => ?_⟩⟩
      · split at hx'
        · rename_i hnil
          rw [← Option.some.inj hx', List.isEmpty_iff.mp hnil]
          exact fun _ h => nomatch h
        · exact nomatch hx'
      · rintro ⟨x', hx', hholds⟩
        split at hx'
        · rename_i hnil
          rw [← Option.some.inj hx'] at hholds
          rw [MapSig.seen_negative htag]
          exact ⟨hholds.1, List.isEmpty_iff.mp hnil⟩
        · exact nomatch hx'
  cases htag : x.tag with
  | struct name => exact hstruct name htag
  | plain =>
    rw [show runtimeMapSig envelope .predicate q x = (do
        let values ← x.fields.mapM fun field => envelope q field.2
        let store ← get
        pure (if values.any fun t => t = store.none then none else some (x.withValues values))) by
      simp only [runtimeMapSig, htag], wp_bind]
    refine (wp_mapM_later (R := fun (field : MapKey × Ty) e s' => EnvelopeOf m q field.2 e s')
      (fun field e => EnvelopeOf.lasts field.2 e)
      fun field hfield s₁ h₁ => hE q field.2 (hx field hfield) s₁ (hl.trans h₁)).imp ?_
    rintro values s₁ ⟨h₁, hvalues⟩
    rw [wp_bind, wp_get]
    have hrel : x.Replaced (fun t e => EnvelopeOf m q t e s₁) (x.withValues values) :=
      MapSig.replaced_withValues hvalues
    have hwithin : ∀ cx, s₁.cx.Extends cx → ∀ W : World cx,
        (∀ r ∈ s₁.rewrites, r.Sound cx W.calls) →
          ∀ kv : {k // m ≤ k} × MapTag × (MapKey → Option Val),
            q.Within (x.Seen (cx.bound W.calls kv.1 q) q kv.2.1 kv.2.2)
              ((x.withValues values).Holds (cx.meaning W.calls) kv.2.1 kv.2.2) := by
      intro cx hcx W hW kv
      have hback : (x.withValues values).Replaced (fun e t => EnvelopeOf m q t e s₁) x :=
        ⟨rfl, hrel.2.flip.imp fun f f' h => ⟨h.1.symm, h.2⟩⟩
      have h := hback.within (q := q) (X := cx.bound W.calls kv.1 q) (M := cx.meaning W.calls)
        (fun _ _ _ t ht => ht.around cx hcx W hW kv.1 kv.1.2) kv.2.1 kv.2.2
      rw [MapSig.seen_plain (s := x.withValues values) htag] at h
      rw [MapSig.seen_plain htag]
      exact h
    refine ⟨h₁, ⟨fun x' hx' => ?_, fun cx hcx W hW kv =>
      (hwithin cx hcx W hW kv).trans (.of_iff ?_)⟩⟩
    · split at hx'
      · exact nomatch hx'
      · rw [← Option.some.inj hx']
        intro f hf
        obtain ⟨g, -, -, hof⟩ := exists_of_forall₂_right hrel.2 hf
        exact hof.lt
    · split
      · rename_i hany
        obtain ⟨e, he, hnone⟩ := List.any_eq_true.mp hany
        rw [decide_eq_true_eq] at hnone
        refine iff_of_false (fun hmem => ?_) fun ⟨_, h, _⟩ => nomatch h
        obtain ⟨f, hf⟩ : ∃ f ∈ (x.withValues values).fields, f.2 = e := by
          rw [← MapSig.values_withValues hvalues] at he
          exact List.mem_map.mp he
        obtain ⟨v, -, hv⟩ := hmem.2 f hf.1
        rw [hf.2, hnone] at hv
        exact s₁.meaning_none hcx W v hv
      · refine ⟨fun h => ⟨_, rfl, h⟩, ?_⟩
        rintro ⟨_, hsome, h⟩
        exact Option.some.inj hsome ▸ h

/-- The arrow of a construction. -/
structure Construction (l : ClosureLit) (x : ArrowSig) (s : Interning) : Prop where
  naming : (SigPred.naming (· < s.cx.arena.length)).arrow x
  honest : InFinal s fun cx W => Honest cx W.calls x
  holds : InFinal s fun cx W => ∀ f captures, l.Holds (cx.meaning W.calls) f captures →
    x.Holds W.calls (cx.meaning W.calls) f captures

omit hE in
theorem Construction.lasts : Lasts Construction := fun _ _ _ _ hl h =>
  ⟨⟨hl.lt h.naming.1, fun t ht => hl.lt (h.naming.2.1 t ht),
    fun l hlit t ht => hl.lt (h.naming.2.2 l hlit t ht)⟩, h.honest.later hl, h.holds.later hl⟩

/-- The constructions of a clause, their captures enveloped, hold where its literals do. -/
theorem wp_callableIdentityClauses {funcs : List (Conj ArrowSig)}
    (hfuncs : Each (SigPred.naming P).arrow funcs) {s' : Interning} (hl : Later s s') :
    wp (callableIdentityClauses envelope funcs) (fun cs s'' => Later s' s'' ∧
      Each (SigPred.naming (· < s''.cx.arena.length)).arrow cs ∧
      InFinal s'' fun cx W => Each (Honest cx W.calls) cs ∧ ∀ f captures,
        (∃ c ∈ funcs, ∀ p ∈ c.pos, ∀ l, p.lit = some l → l.Holds (cx.meaning W.calls) f captures) →
            DnfHolds (ArrowSig.Holds W.calls (cx.meaning W.calls) f captures) cs)
      (fun _ => False) s' := by
  rw [callableIdentityClauses]
  split
  · refine ⟨.refl s', fun c hc => ?_, fun cx _ W _ => ⟨fun c hc => ?_, fun f captures _ => ?_⟩⟩
    · rw [List.mem_singleton.mp hc]
      exact ⟨fun _ h => (by cases h), fun _ h => by cases h⟩
    · rw [List.mem_singleton.mp hc]
      exact ⟨fun _ h => (by cases h), fun _ h => by cases h⟩
    · exact ⟨_, .head _, fun _ h => (by cases h), fun _ h => by cases h⟩
  -- each literal over the envelopes of its captures
  have hsig : ∀ l : ClosureLit, (∀ t ∈ l.captures, P t) → ∀ s₁, Later s s₁ →
      wp (callableIdentitySig envelope l) (fun x s₂ => Later s₁ s₂ ∧ Construction l x s₂)
        (fun _ => False) s₁ := by
    intro l hl s₁ h₁
    rw [callableIdentitySig, wp_bind]
    refine (wp_mapM_envelope hE .positive hl h₁).imp ?_
    rintro captures s₂ ⟨h₂, hcaps⟩
    rw [wp_bind, wp_get]
    refine ⟨h₂, ⟨s₂.any_spec.1, List.forall_mem_nil _, ?_⟩, fun cx hcx W _ l _ f captures _ => ?_,
      fun cx hcx W hW f captures h => ⟨h.1, ?_⟩⟩
    · rintro _ ⟨⟩ e he
      obtain ⟨t, -, hof⟩ := exists_of_forall₂_right hcaps he
      exact hof.lt
    · intro _ r _ _
      show r ∈ cx.meaning W.calls s₂.any
      rw [TyCtx.meaning, hcx.descr_eq s₂.any_spec.1, s₂.any_spec.2]
      exact Descr.mem_meaning_any r
    · refine within_listProd (q := .positive) (hcaps.flip.imp fun e t hof v hv => ?_) captures h.2
      exact hof.around cx hcx W hW m le_rfl v (TyCtx.meaning_within_bound m .positive t v hv)
  refine (wp_mapM_later (R := fun (c c' : Conj ArrowSig) s => c'.neg = [] ∧
    List.Forall₂ (Construction · · s) (c.pos.filterMap ArrowSig.lit) c'.pos)
    (fun _ _ _ _ hl h => ⟨h.1, h.2.imp fun _ _ => Construction.lasts _ _ _ _ hl⟩)
    fun c hc s₁ h₁ => ?_).imp ?_
  · rw [callableIdentityConj, wp_bind]
    refine (wp_mapM_later Construction.lasts fun l hmem s₂ h₂ => ?_).imp
      fun pos s₂ h => ⟨h.1, rfl, h.2⟩
    obtain ⟨p, hp, hl'⟩ := List.mem_filterMap.mp hmem
    exact hsig l (((hfuncs c hc).1 p hp).2.2 l hl') s₂ ((hl.trans h₁).trans h₂)
  · rintro cs s₁ ⟨h₁, hcs⟩
    have hneg : ∀ {P : ArrowSig → Prop} {c' : Conj ArrowSig}, c'.neg = [] → ∀ n ∈ c'.neg, P n := by
      rintro P c' hnil
      rw [hnil]
      exact fun _ h => by cases h
    refine ⟨h₁, fun c' hc' => ?_, fun cx hcx W hW => ⟨fun c' hc' => ?_, ?_⟩⟩
    · obtain ⟨c, -, hnil, hof⟩ := exists_of_forall₂_right hcs hc'
      refine ⟨fun p hp => ?_, hneg hnil⟩
      obtain ⟨l, -, hp⟩ := exists_of_forall₂_right hof hp
      exact hp.naming
    · obtain ⟨c, -, hnil, hof⟩ := exists_of_forall₂_right hcs hc'
      refine ⟨fun p hp => ?_, hneg hnil⟩
      obtain ⟨l, -, hp⟩ := exists_of_forall₂_right hof hp
      exact hp.honest cx hcx W hW
    · rintro f captures ⟨c, hc, hall⟩
      obtain ⟨c', hc', hnil, hof⟩ := exists_of_forall₂_left hcs hc
      refine ⟨c', hc', fun p hp => ?_, hneg hnil⟩
      obtain ⟨l, hl, hp⟩ := exists_of_forall₂_right hof hp
      obtain ⟨p, hp', hl'⟩ := List.mem_filterMap.mp hl
      exact hp.holds cx hcx W hW f captures (hall p hp' l hl')

theorem wp_envelopeFuncs (q : RuntimeEnvelopePolarity) {t : Ty}
    (hfuncs : Each (SigPred.naming P).arrow (s.cx.descr t).funcs) :
    wp (if RuntimeEnvelopePurpose.predicate = .predicate && q = .positive &&
        !(s.cx.descr t).funcs.isEmpty then callableIdentityClauses envelope (s.cx.descr t).funcs
        else pure (s.cx.descr t).funcs)
      (fun cs s' => Later s s' ∧ Each (SigPred.naming (· < s'.cx.arena.length)).arrow cs ∧
        InFinal s' fun cx W => Each (Honest cx W.calls) cs ∧ ∀ B f captures,
          q.Within ((Shape.fn f captures).Bounded W.calls (cx.meaning W.calls) B q (s.cx.descr t))
            (DnfHolds (ArrowSig.Holds W.calls (cx.meaning W.calls) f captures) cs))
      (fun _ => False) s := by
  have hknows := s.cx.knows_descr t
  have hhonest : InFinal s fun cx W => Each (Honest cx W.calls) (s.cx.descr t).funcs :=
    fun cx hcx W _ => (FromArena.descr s.cx t).honest hcx W
  cases q with
  | negative =>
    rw [if_neg (by rw [Bool.and_eq_true, Bool.and_eq_true, decide_eq_true_eq]; exact
      fun h => nomatch h.1.2)]
    exact ⟨.refl s, hknows.funcs, fun cx hcx W hW => ⟨hhonest cx hcx W hW, fun B f captures => id⟩⟩
  | positive =>
    split
    · refine (wp_callableIdentityClauses hE hfuncs (.refl s)).imp ?_
      rintro cs s₁ ⟨h₁, hnaming, hcs⟩
      refine ⟨h₁, hnaming, fun cx hcx W hW => ?_⟩
      exact ⟨(hcs cx hcx W hW).1, fun B f captures h => (hcs cx hcx W hW).2 f captures h⟩
    · rename_i hnone
      refine ⟨.refl s, hknows.funcs, fun cx hcx W hW => ⟨hhonest cx hcx W hW, ?_⟩⟩
      have hnil : (s.cx.descr t).funcs = [] := by simpa using hnone
      rintro B f captures ⟨c, hc, -⟩
      rw [hnil] at hc
      exact nomatch hc

end Signatures

theorem wp_ite_bind {α β : Type} {c : Prop} [Decidable c] {a b : InternM α} {f : α → InternM β}
    {R : β → Interning → Prop} {E : Fault → Prop} {s : Interning} :
    wp (if c then a >>= f else b >>= f) R E s ↔ wp ((if c then a else b) >>= f) R E s := by
  split
  · exact Iff.rfl
  · exact Iff.rfl

/-- The envelope of a type is around its bounds, by induction on the bound of its id. -/
theorem wp_runtimeEnvelopeAt (order : ClauseOrder) (rounds n : Nat) :
    ∀ (q : RuntimeEnvelopePolarity) {t : Ty} {s : Interning}, t < n → t < s.cx.arena.length →
      wp (runtimeEnvelopeAt order rounds .predicate n q t)
        (fun d s' => Later s s' ∧ DescrEnvelope n q t d s') (fun _ => False) s := by
  induction n with
  | zero => exact fun _ _ _ h => absurd h (Nat.not_lt_zero _)
  | succ n ih =>
    intro q t s htn ht
    rw [runtimeEnvelopeAt, wp_bind, wp_get]
    dsimp only
    split
    · rename_i hany
      rw [Bool.and_eq_true, decide_eq_true_eq, decide_eq_true_eq] at hany
      refine ⟨.refl s, ⟨Descr.EachSig.any, fun cx _ W _ k _ v => ?_, fun cx _ W _ =>
        (Descr.EachSig.any (P := .onArrow _)).funcs⟩⟩
      rw [hany.2]
      exact fun _ => Descr.mem_meaning_any v
    rename_i hany
    split
    · rename_i hvars
      rw [Bool.and_eq_true] at hvars
      refine ⟨.refl s, ⟨Descr.EachSig.none, fun cx _ W _ k _ v => ?_, fun cx _ W _ =>
        (Descr.EachSig.none (P := .onArrow _)).funcs⟩⟩
      cases q with
      | positive => exact absurd (by simpa using hvars.1) (by simpa using hany)
      | negative =>
        exact fun hv => absurd (Descr.mem_meaning.mp hv) (Descr.not_mem_of_looksEmpty rfl v)
    rw [wp_ite_bind]
    have hbounded : ∀ {cx : TyCtx}, s.cx.Extends cx → ∀ calls k v, v ∈ cx.bound calls (k + 1) q t ↔
        admits (s.cx.descr t).brands v.brand = true ∧
          v.shape.Bounded calls (cx.meaning calls) (cx.bound calls k) q (s.cx.descr t) := by
      intro cx hcx calls k v
      rw [← hcx.descr_eq ht]
      refine or_iff_right fun ⟨hq, hvars⟩ => ?_
      rw [hcx.descr_eq ht] at hvars
      rw [hq] at hany
      simp [hvars] at hany
    have hE : EnvelopesTypes n (fun q nested => do
        let d ← runtimeEnvelopeAt order rounds .predicate n q nested
        internDescr order rounds d) (fun u => u < n ∧ u < s.cx.arena.length) s := by
      intro q u hu s₁ h₁
      rw [wp_bind]
      refine (ih q hu.1 (h₁.lt hu.2)).imp ?_
      rintro d s₂ ⟨h₂, hd⟩
      refine (wp_internDescr order rounds hd.knows).imp ?_
      rintro e s₃ ⟨h₃, he⟩
      exact ⟨h₂.trans h₃, hd.interned h₃ he⟩
    have hnaming : (s.cx.descr t).EachSig (.naming fun u => u < n ∧ u < s.cx.arena.length) :=
      Descr.eachChild_iff_eachSig.mp fun u hu =>
        ⟨Nat.lt_of_lt_of_le (s.cx.child_lt ht hu) (Nat.le_of_lt_succ htn),
          (s.cx.child_lt ht hu).trans ht⟩
    generalize (fun q nested => do
      let d ← runtimeEnvelopeAt order rounds .predicate n q nested
      internDescr order rounds d) = envelope at hE ⊢
    have hlt : ∀ {cx cx' : TyCtx} {u : Ty}, cx.Extends cx' → u < cx.arena.length →
        u < cx'.arena.length := fun h hu => Nat.lt_of_lt_of_le hu h.length_le
    rw [wp_bind]
    refine (wp_envelopeFuncs hE q hnaming.funcs).imp ?_
    rintro funcs s₁ ⟨h₁, hfknown, hfuncs⟩
    rw [wp_bind]
    refine (wp_runtimeStructuralAxis (fun x hext hx u hu => hlt hext (hx u hu))
      (envelops_tuples hE) q hnaming.tuples h₁).imp ?_
    rintro tuples s₂ ⟨h₂, htknown, htuples⟩
    have h₁₂ := h₁.trans h₂
    rw [wp_bind]
    refine (wp_runtimeStructuralAxis (fun x hext hx u hu => hlt hext (hx u hu))
      (envelops_lists hE) q hnaming.lists h₁₂).imp ?_
    rintro lists s₃ ⟨h₃, hlknown, hlists⟩
    have h₁₃ := h₁₂.trans h₃
    rw [wp_bind]
    refine (wp_runtimeStructuralAxis (K := fun cx (x : ResourceSig) => x.payload < cx.arena.length)
      (fun x hext hx => hlt hext hx) (envelops_resources hE) q hnaming.resources h₁₃).imp ?_
    rintro resources s₄ ⟨h₄, hrknown, hresources⟩
    have h₁₄ := h₁₃.trans h₄
    rw [wp_bind]
    refine (wp_runtimeStructuralAxis (fun x hext hx f hf => hlt hext (hx f hf))
      (envelops_maps hE) q hnaming.maps h₁₄).imp ?_
    rintro maps s₅ ⟨h₅, hmknown, hmaps⟩
    have h₃₅ := h₄.trans h₅
    have h₂₅ := h₃.trans h₃₅
    have h₁₅ := h₂.trans h₂₅
    refine ⟨h₁₄.trans h₅, ⟨⟨?_, ?_, ?_, ?_, hmknown⟩, fun cx hcx W hW k hk v => ?_,
      fun cx hcx W hW => ?_⟩⟩
    · exact htknown.imp fun x hx u hu => h₂₅.lt (hx u hu)
    · exact hlknown.imp fun x hx u hu => h₃₅.lt (hx u hu)
    · exact hrknown.imp fun x hx => h₅.lt hx
    · exact hfknown.imp fun x hx => ⟨h₁₅.lt hx.1, fun u hu => h₁₅.lt (hx.2.1 u hu),
        fun l hl u hu => h₁₅.lt (hx.2.2 l hl u hu)⟩
    · obtain ⟨k, rfl⟩ : ∃ k', k = k' + 1 := ⟨k - 1, by omega⟩
      have hk' : n ≤ k := Nat.le_of_succ_le_succ hk
      rw [hbounded ((h₁₄.trans h₅).extends_.trans hcx), Descr.mem_meaning]
      refine .and (.of_iff Iff.rfl) ?_
      cases v.shape with
      | int i => exact .of_iff Iff.rfl
      | float bits => exact .of_iff Iff.rfl
      | binary bits => exact .of_iff Iff.rfl
      | atom name => exact .of_iff Iff.rfl
      | opaqueOf tag => exact .of_iff Iff.rfl
      | tuple vs => exact (htuples.later h₂₅) cx hcx W hW (⟨k, hk'⟩, vs)
      | list vs => exact (hlists.later h₃₅) cx hcx W hW (⟨k, hk'⟩, vs)
      | resource w => exact (hresources.later h₅) cx hcx W hW (⟨k, hk'⟩, w)
      | map tag fields => exact hmaps cx hcx W hW (⟨k, hk'⟩, tag, fields)
      | fn f captures =>
        exact ((hfuncs.later h₁₅) cx hcx W hW).2 (cx.bound W.calls k) f captures
    · exact ((hfuncs.later h₁₅) cx hcx W hW).1

/-! ## Both runs -/

section Both

variable (order : ClauseOrder) (rounds : Nat) (σ : Sigma) (t : Ty)

def instanceThenEnvelope : InternM (Ty × Ty) := do
  let i ← instantiate order rounds σ t
  let e ← runtimeTypeTestEnvelope order rounds t
  pure (i, e)

def envelopeThenInstance : InternM (Ty × Ty) := do
  let e ← runtimeTypeTestEnvelope order rounds t
  let i ← instantiate order rounds σ t
  pure (i, e)

end Both

section Covers

variable {order : ClauseOrder} {rounds : Nat} {σ : Sigma} {t : Ty}

theorem wp_runtimeTypeTestEnvelope {s : Interning} (ht : t < s.cx.arena.length) :
    wp (runtimeTypeTestEnvelope order rounds t)
      (fun e s' => Later s s' ∧ EnvelopeOf (t + 1) .positive t e s') (fun _ => False) s := by
  rw [runtimeTypeTestEnvelope, runtimeEnvelope, wp_bind]
  refine (wp_runtimeEnvelopeAt order rounds (t + 1) .positive (Nat.lt_succ_self t) ht).imp ?_
  rintro d s₁ ⟨h₁, hd⟩
  refine (wp_internDescr order rounds hd.knows).imp ?_
  rintro e s₂ ⟨h₂, he⟩
  exact ⟨h₁.trans h₂, hd.interned h₂ he⟩

theorem InstanceOf.subset_envelope {types : Types} {i e : Ty} {s : Interning}
    (hl : Later ⟨types, []⟩ s) (ht : t < types.cx.arena.length)
    (hground : NegativeArrowsGround types.cx (t + 1) .positive t) (hi : InstanceOf t i s)
    (he : EnvelopeOf (t + 1) .positive t e s) (W : World s.cx)
    (hexact : ∀ r ∈ s.rewrites, r.exact s.cx = true) :
    s.cx.meaning W.calls i ⊆ s.cx.meaning W.calls e := by
  intro v hv
  have hsound : ∀ r ∈ s.rewrites, r.Sound s.cx W.calls := hl.choose_spec.sound W hexact
  have hbound : v ∈ s.cx.bound W.calls (t + 1) .positive t :=
    hi.within s.cx List.prefix_rfl W hsound (t + 1) .positive
      (hground.of_extends hl.extends_ (t + 1) ht) v hv
  exact he.around s.cx List.prefix_rfl W hsound (t + 1) le_rfl v hbound

end Covers

section Sample

/-- An argument of type `a` to an integer: type 5 over the variable type 3.  Type 6 are the pairs of
functions that are not both of this type, and type 7 pairs one with an `a`. -/
def functionPairs : List Descr :=
  [kinds ⟨false, true, false⟩ .any, { Descr.unbranded with vars := .lit 0 },
    { Descr.unbranded with funcs := [.top] }, arrowOf [3] 2,
    { Descr.unbranded with tuples := [⟨[⟨[4, 4]⟩], [⟨[5, 5]⟩]⟩] }, .tupleOf [5, 3]]

/-- Integers of the brand `x` and binaries of the brand `y`, with a variable in a place of its own
for each: the two tuples of type 6 are joined when the variable is an integer. -/
def crossedBrands : List Descr :=
  [kinds ⟨false, true, false⟩ .any, { Descr.unbranded with vars := .lit 0 },
    kinds ⟨false, true, false⟩ (.lit "x"), kinds ⟨true, false, false⟩ (.lit "y"),
    (Descr.tupleOf [4, 3, 2]).union (.tupleOf [5, 2, 3])]

/-- The instance of a type with integers for its variable, and its envelope. -/
def integerInstance (ds : List Descr) (t : Ty) : Except Fault (Types × (Ty × Ty) × Interning) := do
  let types ← coreTypes.internAll (storageOrder []) 8 ds
  let r ← instanceThenEnvelope (storageOrder []) 8 [(0, 2)] t ⟨types, []⟩
  pure (types, r)

theorem integerInstance_spec {ds : List Descr} {t : Ty} {p : Types × (Ty × Ty) × Interning → Bool}
    (h : (integerInstance ds t).toOption.any p = true) :
    ∃ types i e s, coreTypes.internAll (storageOrder []) 8 ds = .ok types ∧
      instanceThenEnvelope (storageOrder []) 8 [(0, 2)] t ⟨types, []⟩ = .ok ((i, e), s) ∧
        p (types, (i, e), s) = true := by
  obtain ⟨⟨types, ⟨i, e⟩, s⟩, hrun, hp⟩ := exists_ok_of_any h
  rw [integerInstance] at hrun
  cases htypes : coreTypes.internAll (storageOrder []) 8 ds with
  | error _ =>
    rw [htypes] at hrun
    exact nomatch hrun
  | ok types' =>
    cases hinst : instanceThenEnvelope (storageOrder []) 8 [(0, 2)] t ⟨types', []⟩ with
    | error _ =>
      simp only [htypes, hinst, bind, Except.bind] at hrun
      exact nomatch hrun
    | ok r =>
      simp only [htypes, hinst, bind, Except.bind, pure, Except.pure, Except.ok.injEq,
        Prod.mk.injEq] at hrun
      obtain ⟨rfl, rfl⟩ := hrun
      exact ⟨types', i, e, s, rfl, hinst, hp⟩

/-- A function on integers that gives binaries. -/
def onIntegers : Calls := fun _ _ args r =>
  args = [.mk none (.int 0)] ∧ r = .mk none (.binary [])

def aFunction : Val := .mk none (.fn 0 [])

/-- A binary under the brand of the integers, with two integers. -/
def misbranded : Val :=
  .mk none (.tuple [.mk (some "x") (.binary []), .mk none (.int 0), .mk none (.int 0)])

/-- A world that takes every arrow without a literal as it comes. -/
def World.ofLitFree {cx : TyCtx} (h : litFree cx = true) (calls : Calls) : World cx where
  calls := calls
  honest := by
    intro t
    have hnone : Each (fun s : ArrowSig => s.lit = none) (cx.descr t).funcs := by
      rcases Nat.lt_or_ge t cx.arena.length with ht | ht
      · have hmem : cx.descr t ∈ cx.arena := by
          rw [TyCtx.descr, List.getD_eq_getElem _ _ ht]
          exact List.getElem_mem ht
        intro c hc
        have hall := List.all_eq_true.mp (List.all_eq_true.mp (List.all_eq_true.mp h _ hmem) c hc)
        exact ⟨fun s hs => Option.isNone_iff_eq_none.mp (hall s (List.mem_append_left _ hs)),
          fun s hs => Option.isNone_iff_eq_none.mp (hall s (List.mem_append_right _ hs))⟩
      · rw [cx.descr_of_ge ht]
        exact nofun
    exact hnone.imp fun s hs l hl => nomatch hs.symm.trans hl

end Sample

end Fz.Types
