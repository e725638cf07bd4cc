import Fz.Base.Comparison
import Fz.Types.Stable

/-!
# The order of types is an order

Both comparisons of types are oriented and transitive, whatever the store holds (`transCmp_cmpTy`).
Descriptors compare axis by axis, so this follows by induction on the depth of a comparison, once
the depth is seen not to matter: a descriptor names only types interned before it, and any depth
past the two types gives the same verdict.

A verdict depends only on the descriptors below the two types, so it survives the growth of the
store.
-/

namespace Fz.Types

open Base Std

/-! ## Lists -/

section Lists

variable {T : Type} {cmp cmp' : T → T → Ordering}

theorem firstDifference_cons (x y : T) (a b : List T) :
    firstDifference cmp (x :: a) (y :: b) = (cmp x y).then (firstDifference cmp a b) := rfl

theorem compare_length_cons (x y : T) (a b : List T) :
    compare (x :: a).length (y :: b).length = compare a.length b.length := by
  simp only [List.length_cons, Nat.compare_eq_ite_lt, Nat.add_lt_add_iff_right]

theorem lexElementsFirst_eq (a b : List T) :
    lexElementsFirst cmp a b = List.compareLex cmp a b := by
  induction a generalizing b with
  | nil =>
    cases b with
    | nil => rfl
    | cons y b => exact Nat.compare_eq_lt.mpr (Nat.succ_pos _)
  | cons x a ih =>
    cases b with
    | nil => exact Nat.compare_eq_gt.mpr (Nat.succ_pos _)
    | cons y b =>
      rw [lexElementsFirst, firstDifference_cons, compare_length_cons, Ordering.then_assoc,
        List.compareLex_cons_cons, ← ih b, lexElementsFirst]

theorem lexElementsThenLonger_eq (a b : List T) :
    lexElementsThenLonger cmp a b = cmpEndsLast cmp a b := by
  induction a generalizing b with
  | nil =>
    cases b with
    | nil => rfl
    | cons y b => exact Nat.compare_eq_gt.mpr (Nat.succ_pos _)
  | cons x a ih =>
    cases b with
    | nil => exact Nat.compare_eq_lt.mpr (Nat.succ_pos _)
    | cons y b =>
      rw [lexElementsThenLonger, firstDifference_cons, compare_length_cons, Ordering.then_assoc,
        cmpEndsLast, ← ih b, lexElementsThenLonger]

theorem lexOrder_eq (a b : List T) :
    lexOrder cmp a b = (compare a.length b.length).then (List.compareLex cmp a b) := by
  show (compare a.length b.length).then (firstDifference cmp a b) = _
  rw [← lexElementsFirst_eq, lexElementsFirst]
  cases compare a.length b.length with
  | lt => rfl
  | eq =>
    rw [Ordering.eq_then, Ordering.eq_then]
    cases firstDifference cmp a b <;> rfl
  | gt => rfl

theorem transCmp_lexElementsFirst (h : TransCmp cmp) : TransCmp (lexElementsFirst cmp) := by
  have hlex : TransCmp (List.compareLex cmp) := inferInstance
  rwa [show lexElementsFirst cmp = List.compareLex cmp from
    funext₂ lexElementsFirst_eq]

theorem transCmp_lexElementsThenLonger (h : TransCmp cmp) :
    TransCmp (lexElementsThenLonger cmp) := by
  have hlex : TransCmp (cmpEndsLast cmp) := inferInstance
  rwa [show lexElementsThenLonger cmp = cmpEndsLast cmp from funext₂ lexElementsThenLonger_eq]

theorem transCmp_lexOrder (h : TransCmp cmp) : TransCmp (lexOrder cmp) := by
  have hlex : TransCmp (List.compareLex cmp) := inferInstance
  rw [show lexOrder cmp = _ from funext₂ lexOrder_eq]
  exact transCmp_then (transCmp_on (inferInstance : TransOrd Nat) List.length) hlex

theorem firstDifference_congr {a b : List T} (h : ∀ x ∈ a, ∀ y ∈ b, cmp x y = cmp' x y) :
    firstDifference cmp a b = firstDifference cmp' a b := by
  unfold firstDifference
  congr 1
  refine List.map_congr_left fun p hp => ?_
  obtain ⟨hx, hy⟩ := List.of_mem_zip hp
  exact h p.1 hx p.2 hy

theorem lexElementsFirst_congr {a b : List T} (h : ∀ x ∈ a, ∀ y ∈ b, cmp x y = cmp' x y) :
    lexElementsFirst cmp a b = lexElementsFirst cmp' a b := by
  rw [lexElementsFirst, firstDifference_congr h, lexElementsFirst]

theorem lexElementsThenLonger_congr {a b : List T} (h : ∀ x ∈ a, ∀ y ∈ b, cmp x y = cmp' x y) :
    lexElementsThenLonger cmp a b = lexElementsThenLonger cmp' a b := by
  rw [lexElementsThenLonger, firstDifference_congr h, lexElementsThenLonger]

theorem lexOrder_congr {a b : List T} (h : ∀ x ∈ a, ∀ y ∈ b, cmp x y = cmp' x y) :
    lexOrder cmp a b = lexOrder cmp' a b :=
  congrArg (compare a.length b.length).then (firstDifference_congr h)

end Lists

/-! ## Leaves -/

theorem transCmp_finiteSet {T : Type} [LinearOrder T] :
    TransCmp fun a b : FiniteSet T => FiniteSet.cmp a b :=
  transCmp_then (transCmp_on (transCmp_lexElementsFirst inferInstance)
    fun s : FiniteSet T => sorted s.values) (transCmp_on inferInstance FiniteSet.cofinite)

theorem transCmp_unit : TransCmp fun _ _ : Unit => Ordering.eq where
  eq_swap := rfl
  isLE_trans _ _ := rfl

theorem transCmp_option {T : Type} {cmp : T → T → Ordering} (h : TransCmp cmp) :
    TransCmp (cmpOption cmp) := by
  have hsum := transCmp_on (@transCmp_sum _ _ _ _ transCmp_unit h) fun a : Option T =>
    a.elim (.inl ()) .inr
  refine cast (congrArg TransCmp (funext₂ fun a b => ?_)) hsum
  cases a <;> cases b <;> rfl

theorem transCmp_mapKey : TransCmp MapKey.cmp := by
  have hint : TransCmp fun a b : Int64 => compare a.toInt b.toInt :=
    transCmp_on (inferInstance : TransOrd Int) Int64.toInt
  have hsum := transCmp_on (@transCmp_sum _ _ _ _ (inferInstance : TransOrd String) hint)
    fun key : MapKey => match key with
      | .atom a => .inl a
      | .int n => .inr n
  refine cast (congrArg TransCmp (funext₂ fun a b => ?_)) hsum
  cases a <;> cases b <;> rfl

theorem transCmp_mapTag : TransCmp MapTag.cmp := by
  have hname : TransCmp cmpModuleName := transCmp_lexElementsFirst inferInstance
  have hsum := transCmp_on (@transCmp_sum _ _ _ _ transCmp_unit hname) fun tag : MapTag =>
    MapTag.casesOn tag (.inl ()) .inr
  refine cast (congrArg TransCmp (funext₂ fun a b => ?_)) hsum
  cases a <;> cases b <;> rfl

theorem transCmp_addrStep : TransCmp AddrStep.cmp :=
  transCmp_then (transCmp_on inferInstance fun a : AddrStep => a.rank.1)
    (transCmp_on inferInstance fun a : AddrStep => a.rank.2)

theorem ite_eq_cmp {T : Type} [DecidableEq T] {cmp : T → T → Ordering} (h : TransCmp cmp)
    (a b : T) : (if a = b then .eq else cmp a b) = cmp a b := by
  split
  · rename_i hab
    have hself : cmp b b = .eq := ReflCmp.compare_self
    rw [hab, hself]
  · rfl

theorem transCmp_var (paths : List (List AddrStep)) : TransCmp (cmpVar paths) := by
  have hpath : TransCmp (lexElementsFirst AddrStep.cmp) :=
    transCmp_lexElementsFirst transCmp_addrStep
  have hsum := transCmp_on (@transCmp_sum _ _ _ _ hpath (inferInstance : TransOrd Nat))
    fun id => (addressPath paths id).elim (.inr id) .inl
  refine cast (congrArg TransCmp (funext₂ fun a b => ?_)) hsum
  rw [cmpVar, ← ite_eq_cmp hsum]
  congr 1
  cases addressPath paths a <;> cases addressPath paths b <;> rfl

theorem transCmp_vars (paths : List (List AddrStep)) : TransCmp (cmpVars paths) := by
  have h := transCmp_then (transCmp_on (inferInstance : TransOrd Bool) FiniteSet.cofinite)
    (transCmp_on (transCmp_lexOrder (transCmp_var paths))
      fun s : FiniteSet Nat => sorted s.values)
  refine cast (congrArg TransCmp (funext₂ fun a b => ?_)) h
  rw [cmpVars, Ordering.then_assoc, ← length_sorted, ← length_sorted]
  rfl

/-! ## Signatures -/

section Signatures

variable {purpose : OrderPurpose} {cmp cmp' : Ty → Ty → Ordering}

theorem transCmp_tys (h : TransCmp cmp) : TransCmp (cmpTys purpose cmp) := by
  cases purpose with
  | storage => exact transCmp_lexOrder h
  | activation origins => exact transCmp_lexElementsFirst h

theorem transCmp_callable : TransCmp (cmpCallable purpose) := by
  cases purpose with
  | storage =>
    refine cast (congrArg TransCmp (funext₂ fun a b => ?_)) (inferInstance : TransOrd Nat)
    exact (ite_eq_cmp inferInstance a b).symm
  | activation origins =>
    have h := transCmp_on (inferInstance : TransOrd Terms.FunctionDenotation) origins
    refine cast (congrArg TransCmp (funext₂ fun a b => ?_)) h
    exact (ite_eq_cmp h a b).symm

theorem transCmp_lit (h : TransCmp cmp) : TransCmp (cmpLit purpose cmp) :=
  transCmp_option (transCmp_then (transCmp_then
    (transCmp_on (transCmp_option transCmp_callable) ClosureLit.fnId)
    (transCmp_on inferInstance fun l : ClosureLit => l.kind.rank))
    (transCmp_on (transCmp_tys h) ClosureLit.captures))

theorem transCmp_tupleSig (h : TransCmp cmp) : TransCmp (cmpTupleSig purpose cmp) :=
  transCmp_on (transCmp_tys h) TupleSig.elems

theorem transCmp_listSig (h : TransCmp cmp) : TransCmp (cmpListSig cmp) :=
  transCmp_then (transCmp_on inferInstance ListSig.empty)
    (transCmp_on (transCmp_option h) ListSig.elem)

theorem transCmp_resourceSig (h : TransCmp cmp) : TransCmp (cmpResourceSig cmp) :=
  transCmp_on h ResourceSig.payload

theorem transCmp_arrowSig (h : TransCmp cmp) : TransCmp (cmpArrowSig purpose cmp) := by
  have hargs : TransCmp fun a b : ArrowSig => cmpTys purpose cmp a.args b.args :=
    transCmp_on (transCmp_tys h) ArrowSig.args
  have hret : TransCmp fun a b : ArrowSig => cmp a.ret b.ret := transCmp_on h ArrowSig.ret
  have hlit : TransCmp fun a b : ArrowSig => cmpLit purpose cmp a.lit b.lit :=
    transCmp_on (transCmp_lit h) ArrowSig.lit
  cases purpose with
  | storage => exact transCmp_then (transCmp_then hlit hargs) hret
  | activation origins => exact transCmp_then (transCmp_then hargs hret) hlit

theorem MapSig.length_sortedFields (sig : MapSig) : sig.sortedFields.length = sig.fields.length :=
  List.length_insertionSort _ _

theorem transCmp_mapSig (h : TransCmp cmp) : TransCmp (cmpMapSig cmp) := by
  have hfield : TransCmp fun x y : MapKey × Ty => (MapKey.cmp x.1 y.1).then (cmp x.2 y.2) :=
    transCmp_then (transCmp_on transCmp_mapKey Prod.fst) (transCmp_on h Prod.snd)
  have hsig := transCmp_then (transCmp_on transCmp_mapTag MapSig.tag)
    (transCmp_on (transCmp_lexOrder hfield) MapSig.sortedFields)
  refine cast (congrArg TransCmp (funext₂ fun a b => ?_)) hsig
  rw [cmpMapSig, Ordering.then_assoc, ← a.length_sortedFields, ← b.length_sortedFields]
  rfl

/-! ## Descriptors -/

theorem transCmp_conj {T : Type} {cmpSig : T → T → Ordering} (h : TransCmp cmpSig) :
    TransCmp (cmpConj cmpSig) :=
  transCmp_then (transCmp_on (transCmp_lexOrder h) Conj.pos)
    (transCmp_on (transCmp_lexOrder h) Conj.neg)

theorem transCmp_axis {T : Type} {cmpSig : T → T → Ordering} (h : TransCmp cmpSig) :
    TransCmp (cmpAxis purpose cmpSig) := by
  cases purpose with
  | storage => exact transCmp_lexOrder (transCmp_conj h)
  | activation origins => exact transCmp_lexElementsThenLonger (transCmp_conj h)

theorem transCmp_descr (paths : List (List AddrStep)) (h : TransCmp cmp) :
    TransCmp (cmpDescr paths purpose cmp) :=
  transCmp_then (transCmp_on inferInstance fun d : Descr => d.basic.bits) <|
  transCmp_then (transCmp_on transCmp_finiteSet Descr.atoms) <|
  transCmp_then (transCmp_on transCmp_finiteSet Descr.opaques) <|
  transCmp_then (transCmp_on transCmp_finiteSet Descr.brands) <|
  transCmp_then (transCmp_on (transCmp_vars paths) Descr.vars) <|
  transCmp_then (transCmp_on (transCmp_axis (transCmp_tupleSig h)) Descr.tuples) <|
  transCmp_then (transCmp_on (transCmp_axis (transCmp_listSig h)) Descr.lists) <|
  transCmp_then (transCmp_on (transCmp_axis (transCmp_resourceSig h)) Descr.resources) <|
  transCmp_then (transCmp_on (transCmp_axis (transCmp_arrowSig h)) Descr.funcs)
  (transCmp_on (transCmp_axis (transCmp_mapSig h)) Descr.maps)

/-! ## What a verdict depends on -/

section Congr

variable {P Q : Ty → Prop} (h : ∀ x, P x → ∀ y, Q y → cmp x y = cmp' x y)

include h

theorem cmpTys_congr {a b : List Ty} (ha : ∀ t ∈ a, P t) (hb : ∀ t ∈ b, Q t) :
    cmpTys purpose cmp a b = cmpTys purpose cmp' a b := by
  have hall : ∀ x ∈ a, ∀ y ∈ b, cmp x y = cmp' x y := fun x hx y hy => h x (ha x hx) y (hb y hy)
  cases purpose with
  | storage => exact lexOrder_congr hall
  | activation origins => exact lexElementsFirst_congr hall

theorem cmpTupleSig_congr {a b : TupleSig} (ha : (SigPred.naming P).tuple a)
    (hb : (SigPred.naming Q).tuple b) :
    cmpTupleSig purpose cmp a b = cmpTupleSig purpose cmp' a b := cmpTys_congr h ha hb

theorem cmpResourceSig_congr {a b : ResourceSig} (ha : (SigPred.naming P).resource a)
    (hb : (SigPred.naming Q).resource b) : cmpResourceSig cmp a b = cmpResourceSig cmp' a b :=
  h _ ha _ hb

theorem cmpListSig_congr {a b : ListSig} (ha : (SigPred.naming P).list a)
    (hb : (SigPred.naming Q).list b) : cmpListSig cmp a b = cmpListSig cmp' a b := by
  obtain ⟨_, x⟩ := a
  obtain ⟨_, y⟩ := b
  rw [cmpListSig, cmpListSig]
  congr 1
  cases x with
  | none => cases y <;> rfl
  | some x =>
    cases y with
    | none => rfl
    | some y => exact h x (ha x rfl) y (hb y rfl)

theorem cmpLit_congr {a b : Option ClosureLit} (ha : ∀ l, a = some l → ∀ t ∈ l.captures, P t)
    (hb : ∀ l, b = some l → ∀ t ∈ l.captures, Q t) :
    cmpLit purpose cmp a b = cmpLit purpose cmp' a b := by
  cases a with
  | none => cases b <;> rfl
  | some a =>
    cases b with
    | none => rfl
    | some b =>
      simp only [cmpLit, cmpOption]
      rw [cmpTys_congr h (ha a rfl) (hb b rfl)]

theorem cmpArrowSig_congr {a b : ArrowSig} (ha : (SigPred.naming P).arrow a)
    (hb : (SigPred.naming Q).arrow b) :
    cmpArrowSig purpose cmp a b = cmpArrowSig purpose cmp' a b := by
  obtain ⟨hra, hsa, hla⟩ := ha
  obtain ⟨hrb, hsb, hlb⟩ := hb
  unfold cmpArrowSig
  rw [cmpLit_congr h hla hlb, cmpTys_congr h hsa hsb, h _ hra _ hrb]

theorem cmpMapSig_congr {a b : MapSig} (ha : (SigPred.naming P).map a)
    (hb : (SigPred.naming Q).map b) : cmpMapSig cmp a b = cmpMapSig cmp' a b := by
  rw [cmpMapSig, cmpMapSig]
  congr 1
  refine firstDifference_congr fun x hx y hy => ?_
  rw [h _ (ha x ((List.mem_insertionSort _).mp hx)) _ (hb y ((List.mem_insertionSort _).mp hy))]

end Congr

theorem cmpAxis_congr {T : Type} {cmpSig cmpSig' : T → T → Ordering} {P Q : T → Prop}
    (h : ∀ x y, P x → Q y → cmpSig x y = cmpSig' x y) {a b : List (Conj T)} (ha : Each P a)
    (hb : Each Q b) : cmpAxis purpose cmpSig a b = cmpAxis purpose cmpSig' a b := by
  have hall : ∀ x ∈ a, ∀ y ∈ b, cmpConj cmpSig x y = cmpConj cmpSig' x y := by
    intro x hx y hy
    rw [cmpConj, cmpConj,
      lexOrder_congr fun s hs t ht => h s t ((ha x hx).1 s hs) ((hb y hy).1 t ht),
      lexOrder_congr fun s hs t ht => h s t ((ha x hx).2 s hs) ((hb y hy).2 t ht)]
  cases purpose with
  | storage => exact lexOrder_congr hall
  | activation origins => exact lexElementsThenLonger_congr hall

theorem cmpDescr_congr (paths : List (List AddrStep)) {P Q : Ty → Prop}
    (h : ∀ x, P x → ∀ y, Q y → cmp x y = cmp' x y) {a b : Descr} (ha : a.EachSig (.naming P))
    (hb : b.EachSig (.naming Q)) :
    cmpDescr paths purpose cmp a b = cmpDescr paths purpose cmp' a b := by
  unfold cmpDescr
  rw [cmpAxis_congr (fun _ _ => cmpTupleSig_congr h) ha.tuples hb.tuples,
    cmpAxis_congr (fun _ _ => cmpListSig_congr h) ha.lists hb.lists,
    cmpAxis_congr (fun _ _ => cmpResourceSig_congr h) ha.resources hb.resources,
    cmpAxis_congr (fun _ _ => cmpArrowSig_congr h) ha.funcs hb.funcs,
    cmpAxis_congr (fun _ _ => cmpMapSig_congr h) ha.maps hb.maps]

end Signatures

/-! ## Types -/

section Types

variable (paths : List (List AddrStep)) (purpose : OrderPurpose) (cx : TyCtx)

theorem transCmp_cmpTyAt (n : Nat) : TransCmp (cmpTyAt paths purpose cx n) := by
  induction n with
  | zero => exact { eq_swap := rfl, isLE_trans := fun _ _ => rfl }
  | succ n ih =>
    have h : TransCmp fun a b =>
        cmpDescr paths purpose (cmpTyAt paths purpose cx n) (cx.descr a) (cx.descr b) :=
      transCmp_on (transCmp_descr paths ih) cx.descr
    refine cast (congrArg TransCmp (funext₂ fun a b => ?_)) h
    rw [cmpTyAt, ite_eq_cmp h]

variable {paths purpose cx}

theorem cmpTyAt_succ (n : Nat) (a b : Ty) : cmpTyAt paths purpose cx (n + 1) a b =
      cmpDescr paths purpose (cmpTyAt paths purpose cx n) (cx.descr a) (cx.descr b) :=
  ite_eq_cmp (transCmp_on (transCmp_descr paths (transCmp_cmpTyAt paths purpose cx n)) cx.descr)
    a b

theorem TyCtx.eachSig_descr (cx : TyCtx) (t : Ty) : (cx.descr t).EachSig (.naming (· < t)) :=
  Descr.rank_le_iff_eachSig.mp (cx.rank_descr_le t)

theorem cmpTyAt_eq {n m : Nat} {a b : Ty} (hn : max a b < n) (hm : max a b < m) :
    cmpTyAt paths purpose cx n a b = cmpTyAt paths purpose cx m a b := by
  induction n generalizing m a b with
  | zero => cases hn
  | succ n ih =>
    cases m with
    | zero => cases hm
    | succ m =>
      rw [cmpTyAt_succ, cmpTyAt_succ]
      refine cmpDescr_congr paths ?_ (cx.eachSig_descr a) (cx.eachSig_descr b)
      intro x hx y hy
      have hxy : max x y < max a b :=
        Nat.max_lt.mpr ⟨Nat.lt_of_lt_of_le hx (Nat.le_max_left a b),
          Nat.lt_of_lt_of_le hy (Nat.le_max_right a b)⟩
      exact ih (Nat.lt_of_lt_of_le hxy (Nat.le_of_lt_succ hn))
        (Nat.lt_of_lt_of_le hxy (Nat.le_of_lt_succ hm))

theorem transCmp_cmpTy : TransCmp (cmpTy paths purpose cx) where
  eq_swap {a b} := by
    rw [cmpTy, cmpTy, Nat.max_comm b a]
    exact (transCmp_cmpTyAt paths purpose cx _).eq_swap
  isLE_trans {a b c} hab hbc := by
    -- one depth for all three
    have hdeep : ∀ {x y : Ty}, x ≤ max a (max b c) → y ≤ max a (max b c) →
        cmpTy paths purpose cx x y = cmpTyAt paths purpose cx (max a (max b c) + 1) x y :=
      fun hx hy => cmpTyAt_eq (Nat.lt_succ_self _) (Nat.lt_succ_of_le (Nat.max_le.mpr ⟨hx, hy⟩))
    have ha : a ≤ max a (max b c) := Nat.le_max_left _ _
    have hb : b ≤ max a (max b c) := (Nat.le_max_left b c).trans (Nat.le_max_right _ _)
    have hc : c ≤ max a (max b c) := (Nat.le_max_right b c).trans (Nat.le_max_right _ _)
    rw [hdeep ha hb] at hab
    rw [hdeep hb hc] at hbc
    rw [hdeep ha hc]
    exact (transCmp_cmpTyAt paths purpose cx _).isLE_trans hab hbc

theorem transCmp_cmpActivationTys (origins : Nat → Terms.FunctionDenotation) :
    TransCmp (cmpActivationTys paths origins cx) := transCmp_lexElementsFirst transCmp_cmpTy

/-! ## In a larger arena -/

namespace TyCtx.Extends

variable {cx' : TyCtx} (h : cx.Extends cx')

include h

theorem cmpTyAt_eq (n : Nat) {a b : Ty} (ha : a < cx.arena.length) (hb : b < cx.arena.length) :
    cmpTyAt paths purpose cx' n a b = cmpTyAt paths purpose cx n a b := by
  induction n generalizing a b with
  | zero => rfl
  | succ n ih =>
    rw [cmpTyAt_succ, cmpTyAt_succ, h.descr_eq ha, h.descr_eq hb]
    refine cmpDescr_congr paths (fun x hx y hy => ?_) (cx.eachSig_descr a) (cx.eachSig_descr b)
    exact ih (hx.trans ha) (hy.trans hb)

theorem cmpActivationTys_eq {origins : Nat → Terms.FunctionDenotation} {a b : List Ty}
    (ha : ∀ t ∈ a, t < cx.arena.length) (hb : ∀ t ∈ b, t < cx.arena.length) :
    cmpActivationTys paths origins cx' a b = cmpActivationTys paths origins cx a b :=
  lexElementsFirst_congr fun x hx y hy => h.cmpTyAt_eq _ (ha x hx) (hb y hy)

end TyCtx.Extends

end Types

end Fz.Types
