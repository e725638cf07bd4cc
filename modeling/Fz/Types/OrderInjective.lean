import Fz.Types.OrderLaws

/-!
# The order of types tells types apart

Two types compare equal only if they are the same type.  The comparison reads every field of a
descriptor, and an arena holds a descriptor once, so this follows by induction on the depth of a
comparison.  Each comparison below reads all of what it compares (`Separates`), given what the parts
are: a map lists its fields in the order of their keys, an address has one path, and, for the
activation order, two callables have two origins.

A comparison that is transitive and tells its arguments apart sorts a list to the same list whatever
order it came in.  So a stored axis depends on the factors of its clauses and on how often a clause
occurs, and on nothing else (`sortAxis_eq_of_sameClauses`).
-/

namespace Fz.Types

open Base Std

/-! ## Lists -/

/-- Of the elements with a property, only equal ones compare equal. -/
def Separates {T : Type} (cmp : T → T → Ordering) (P : T → Prop) : Prop :=
  ∀ a b, P a → P b → cmp a b = .eq → a = b

section Lists

variable {T : Type} {cmp : T → T → Ordering} {P : T → Prop}

theorem eq_of_firstDifference (h : Separates cmp P) : ∀ {a b : List T}, a.length = b.length →
    (∀ x ∈ a, P x) → (∀ y ∈ b, P y) → firstDifference cmp a b = .eq → a = b := by
  intro a
  induction a with
  | nil => exact fun hlen _ _ _ => (List.eq_nil_of_length_eq_zero hlen.symm).symm
  | cons x a ih =>
    intro b hlen ha hb heq
    cases b with
    | nil => exact nomatch hlen
    | cons y b =>
      rw [firstDifference_cons, Ordering.then_eq_eq] at heq
      obtain ⟨hx, ha⟩ := List.forall_mem_cons.mp ha
      obtain ⟨hy, hb⟩ := List.forall_mem_cons.mp hb
      rw [h x y hx hy heq.1, ih (Nat.succ.inj hlen) ha hb heq.2]

theorem separates_lexOrder (h : Separates cmp P) :
    Separates (lexOrder cmp) fun a => ∀ x ∈ a, P x := by
  intro a b ha hb heq
  obtain ⟨hlen, hdiff⟩ := Ordering.then_eq_eq.mp heq
  exact eq_of_firstDifference h (Nat.compare_eq_eq.mp hlen) ha hb hdiff

theorem separates_lexElementsFirst (h : Separates cmp P) :
    Separates (lexElementsFirst cmp) fun a => ∀ x ∈ a, P x := by
  intro a b ha hb heq
  obtain ⟨hdiff, hlen⟩ := Ordering.then_eq_eq.mp heq
  exact eq_of_firstDifference h (Nat.compare_eq_eq.mp hlen) ha hb hdiff

theorem separates_lexElementsThenLonger (h : Separates cmp P) :
    Separates (lexElementsThenLonger cmp) fun a => ∀ x ∈ a, P x := by
  intro a b ha hb heq
  obtain ⟨hdiff, hlen⟩ := Ordering.then_eq_eq.mp heq
  exact eq_of_firstDifference h (Nat.compare_eq_eq.mp hlen).symm ha hb hdiff

theorem separates_compare [Ord T] [LawfulEqOrd T] (P : T → Prop) : Separates (compare (α := T)) P :=
  fun _ _ _ _ h => LawfulEqOrd.eq_of_compare h

theorem separates_option (h : Separates cmp P) :
    Separates (cmpOption cmp) fun a => ∀ x, a = some x → P x := by
  intro a b ha hb heq
  cases a with
  | none =>
    cases b with
    | none => rfl
    | some y => exact nomatch heq
  | some x =>
    cases b with
    | none => exact nomatch heq
    | some y => rw [h x y (ha x rfl) (hb y rfl) heq]

end Lists

/-! ## Leaves -/

theorem BasicBits.eq_of_bits {a b : BasicBits} (h : a.bits = b.bits) : a = b := by
  revert h
  obtain ⟨x, y, z⟩ := a
  obtain ⟨x', y', z'⟩ := b
  cases x <;> cases y <;> cases z <;> cases x' <;> cases y' <;> cases z' <;> decide

theorem eq_of_sorted {T : Type} [LinearOrder T] {s t : Finset T} (h : sorted s = sorted t) :
    s = t := by
  ext x
  rw [← mem_sorted, h, mem_sorted]

theorem eq_of_cmp_finiteSet {T : Type} [LinearOrder T] {a b : FiniteSet T}
    (h : FiniteSet.cmp a b = .eq) : a = b := by
  obtain ⟨hvalues, hcofinite⟩ := Ordering.then_eq_eq.mp h
  have hsorted := separates_lexElementsFirst (separates_compare fun _ => True) _ _
    (fun _ _ => trivial) (fun _ _ => trivial) hvalues
  cases a
  cases b
  cases eq_of_sorted hsorted
  cases LawfulEqOrd.eq_of_compare hcofinite
  rfl

theorem eq_of_cmp_mapKey {a b : MapKey} (h : MapKey.cmp a b = .eq) : a = b := by
  cases a with
  | atom x =>
    cases b with
    | atom y => rw [LawfulEqOrd.eq_of_compare (α := String) h]
    | int m => exact nomatch h
  | int n =>
    cases b with
    | atom y => exact nomatch h
    | int m => rw [Int64.toInt_inj.mp (LawfulEqOrd.eq_of_compare (α := Int) h)]

theorem eq_of_cmp_mapTag {a b : MapTag} (h : MapTag.cmp a b = .eq) : a = b := by
  cases a with
  | plain =>
    cases b with
    | plain => rfl
    | struct y => exact nomatch h
  | struct x =>
    cases b with
    | plain => exact nomatch h
    | struct y =>
      rw [separates_lexElementsFirst (separates_compare fun _ : String => True) x y
        (fun _ _ => trivial) (fun _ _ => trivial) h]

theorem AddrStep.eq_of_cmp {a b : AddrStep} (h : AddrStep.cmp a b = .eq) : a = b := by
  obtain ⟨hkind, hindex⟩ := Ordering.then_eq_eq.mp h
  rw [Nat.compare_eq_eq] at hkind hindex
  cases a <;> cases b <;> simp_all [AddrStep.rank]

theorem eq_of_cmpVar {paths : List (List AddrStep)} (hpaths : paths.Nodup) {a b : Nat}
    (h : cmpVar paths a b = .eq) : a = b := by
  unfold cmpVar at h
  split at h
  · assumption
  split at h
  · rename_i x y hx hy
    obtain rfl := separates_lexElementsFirst (P := fun _ => True)
      (fun _ _ _ _ hstep => AddrStep.eq_of_cmp hstep) x y (fun _ _ => trivial)
      (fun _ _ => trivial) h
    unfold addressPath at hx hy
    split at hx
    · exact nomatch hx
    split at hy
    · exact nomatch hy
    have hindex := (List.getElem?_inj (List.getElem?_eq_some_iff.mp hx).1 hpaths).mp
      (hx.trans hy.symm)
    omega
  · exact nomatch h
  · exact nomatch h
  · exact Nat.compare_eq_eq.mp h

theorem eq_of_cmpVars {paths : List (List AddrStep)} (hpaths : paths.Nodup) {a b : FiniteSet Nat}
    (h : cmpVars paths a b = .eq) : a = b := by
  obtain ⟨hhead, hdiff⟩ := Ordering.then_eq_eq.mp h
  obtain ⟨hcofinite, hcard⟩ := Ordering.then_eq_eq.mp hhead
  rw [Nat.compare_eq_eq, ← length_sorted, ← length_sorted] at hcard
  have hsorted := eq_of_firstDifference (P := fun _ => True)
    (fun _ _ _ _ hvar => eq_of_cmpVar hpaths hvar) hcard (fun _ _ => trivial)
    (fun _ _ => trivial) hdiff
  cases a
  cases b
  cases eq_of_sorted hsorted
  cases LawfulEqOrd.eq_of_compare hcofinite
  rfl

/-! ## Signatures -/

/-- The origins of the callables with a property tell them apart. -/
def OrderPurpose.TellsApart (C : Nat → Prop) : OrderPurpose → Prop
  | .storage => True
  | .activation origins => ∀ f g, C f → C g → origins f = origins g → f = g

/-- The fields are listed in the order of their keys, as a map keeps them. -/
def MapSig.InOrder (s : MapSig) : Prop :=
  s.fields.Pairwise fun x y => MapKey.cmp x.1 y.1 = .lt

/-- The types named have one property, the callables another one, and maps are in order. -/
def SigPred.inOrder (P : Ty → Prop) (C : Nat → Prop) : SigPred where
  tuple := (naming P).tuple
  list := (naming P).list
  resource := (naming P).resource
  arrow s := (naming P).arrow s ∧ ∀ l, s.lit = some l → ∀ f, l.fnId = some f → C f
  map s := (naming P).map s ∧ s.InOrder

section Signatures

variable {purpose : OrderPurpose} {cmp : Ty → Ty → Ordering} {P : Ty → Prop} {C : Nat → Prop}

theorem separates_tys (h : Separates cmp P) :
    Separates (cmpTys purpose cmp) fun ts => ∀ t ∈ ts, P t := by
  cases purpose with
  | storage => exact separates_lexOrder h
  | activation origins => exact separates_lexElementsFirst h

theorem separates_callable (hpurpose : purpose.TellsApart C) :
    Separates (cmpCallable purpose) C := by
  intro f g hf hg heq
  unfold cmpCallable at heq
  split at heq
  · assumption
  cases purpose with
  | storage => exact Nat.compare_eq_eq.mp heq
  | activation origins => exact hpurpose f g hf hg (Terms.FunctionDenotation.eq_of_semanticCmp heq)

theorem separates_lit (hpurpose : purpose.TellsApart C) (h : Separates cmp P) :
    Separates (cmpLit purpose cmp) fun lit => ∀ l : ClosureLit, lit = some l →
      (∀ t ∈ l.captures, P t) ∧ ∀ f, l.fnId = some f → C f := by
  refine separates_option
    (P := fun l : ClosureLit => (∀ t ∈ l.captures, P t) ∧ ∀ f, l.fnId = some f → C f) ?_
  rintro ⟨kind, fnId, captures⟩ ⟨kind', fnId', captures'⟩ ha hb heq
  obtain ⟨hhead, hcaptures⟩ := Ordering.then_eq_eq.mp heq
  obtain ⟨hfn, hkind⟩ := Ordering.then_eq_eq.mp hhead
  obtain rfl := separates_option (separates_callable hpurpose) _ _ ha.2 hb.2 hfn
  obtain rfl := separates_tys h _ _ ha.1 hb.1 hcaptures
  rw [Nat.compare_eq_eq] at hkind
  cases kind <;> cases kind' <;> first | rfl | exact nomatch hkind

theorem separates_tupleSig (h : Separates cmp P) :
    Separates (cmpTupleSig purpose cmp) (SigPred.inOrder P C).tuple := by
  rintro ⟨ts⟩ ⟨us⟩ ha hb heq
  obtain rfl := separates_tys h ts us ha hb heq
  rfl

theorem separates_listSig (h : Separates cmp P) :
    Separates (cmpListSig cmp) (SigPred.inOrder P C).list := by
  rintro ⟨empty, elem⟩ ⟨empty', elem'⟩ ha hb heq
  obtain ⟨hempty, helem⟩ := Ordering.then_eq_eq.mp heq
  obtain rfl := separates_option h elem elem' ha hb helem
  obtain rfl := LawfulEqOrd.eq_of_compare (α := Bool) hempty
  rfl

theorem separates_resourceSig (h : Separates cmp P) :
    Separates (cmpResourceSig cmp) (SigPred.inOrder P C).resource := by
  rintro ⟨t⟩ ⟨u⟩ ha hb heq
  obtain rfl := h t u ha hb heq
  rfl

theorem separates_arrowSig (hpurpose : purpose.TellsApart C) (h : Separates cmp P) :
    Separates (cmpArrowSig purpose cmp) (SigPred.inOrder P C).arrow := by
  rintro ⟨args, ret, lit⟩ ⟨args', ret', lit'⟩ ⟨⟨hret, hargs, hlit⟩, hfn⟩
    ⟨⟨hret', hargs', hlit'⟩, hfn'⟩ heq
  have hparts : cmpTys purpose cmp args args' = .eq ∧ cmp ret ret' = .eq ∧
      cmpLit purpose cmp lit lit' = .eq := by
    cases purpose with
    | storage =>
      obtain ⟨hhead, hr⟩ := Ordering.then_eq_eq.mp heq
      obtain ⟨hl, ha⟩ := Ordering.then_eq_eq.mp hhead
      exact ⟨ha, hr, hl⟩
    | activation origins =>
      obtain ⟨hhead, hl⟩ := Ordering.then_eq_eq.mp heq
      obtain ⟨ha, hr⟩ := Ordering.then_eq_eq.mp hhead
      exact ⟨ha, hr, hl⟩
  obtain ⟨ha, hr, hl⟩ := hparts
  obtain rfl := separates_tys h _ _ hargs hargs' ha
  obtain rfl := h _ _ hret hret' hr
  obtain rfl := separates_lit hpurpose h lit lit' (fun l hl => ⟨hlit l hl, hfn l hl⟩)
    (fun l hl => ⟨hlit' l hl, hfn' l hl⟩) hl
  rfl

theorem MapSig.InOrder.sortedFields {s : MapSig} (h : s.InOrder) : s.sortedFields = s.fields :=
  List.Pairwise.insertionSort_eq (h.imp fun hlt => congrArg Ordering.isLE hlt)

theorem separates_mapSig (h : Separates cmp P) :
    Separates (cmpMapSig cmp) (SigPred.inOrder P C).map := by
  rintro a b ⟨ha, hsa⟩ ⟨hb, hsb⟩ heq
  obtain ⟨hhead, hfields⟩ := Ordering.then_eq_eq.mp heq
  obtain ⟨htag, hlen⟩ := Ordering.then_eq_eq.mp hhead
  rw [hsa.sortedFields, hsb.sortedFields] at hfields
  have hentry : Separates (fun x y : MapKey × Ty => (MapKey.cmp x.1 y.1).then (cmp x.2 y.2))
      fun x => P x.2 := by
    rintro ⟨k, t⟩ ⟨k', t'⟩ ht ht' heq
    obtain ⟨hkey, hty⟩ := Ordering.then_eq_eq.mp heq
    obtain rfl := eq_of_cmp_mapKey hkey
    obtain rfl := h t t' ht ht' hty
    rfl
  have heqFields := eq_of_firstDifference hentry (Nat.compare_eq_eq.mp hlen) ha hb hfields
  have heqTag := eq_of_cmp_mapTag htag
  cases a
  cases b
  cases heqFields
  cases heqTag
  rfl

/-! ## Descriptors -/

theorem separates_conj {T : Type} {cmpSig : T → T → Ordering} {Q : T → Prop}
    (h : Separates cmpSig Q) :
    Separates (cmpConj cmpSig) fun c => (∀ p ∈ c.pos, Q p) ∧ ∀ n ∈ c.neg, Q n := by
  rintro ⟨pos, neg⟩ ⟨pos', neg'⟩ ha hb heq
  obtain ⟨hpos, hneg⟩ := Ordering.then_eq_eq.mp heq
  obtain rfl := separates_lexOrder h pos pos' ha.1 hb.1 hpos
  obtain rfl := separates_lexOrder h neg neg' ha.2 hb.2 hneg
  rfl

theorem separates_axis {T : Type} {cmpSig : T → T → Ordering} {Q : T → Prop}
    (h : Separates cmpSig Q) : Separates (cmpAxis purpose cmpSig) (Each Q) := by
  cases purpose with
  | storage => exact separates_lexOrder (separates_conj h)
  | activation origins => exact separates_lexElementsThenLonger (separates_conj h)

theorem separates_descr {paths : List (List AddrStep)} (hpaths : paths.Nodup)
    (hpurpose : purpose.TellsApart C) (h : Separates cmp P) :
    Separates (cmpDescr paths purpose cmp) fun d => d.EachSig (.inOrder P C) := by
  intro a b ha hb heq
  simp only [cmpDescr, Ordering.then_eq_eq] at heq
  obtain ⟨hbasic, hatoms, hopaques, hbrands, hvars, htuples, hlists, hres, hfuncs, hmaps⟩ := heq
  have h1 := BasicBits.eq_of_bits (Nat.compare_eq_eq.mp hbasic)
  have h2 := eq_of_cmp_finiteSet hatoms
  have h3 := eq_of_cmp_finiteSet hopaques
  have h4 := eq_of_cmp_finiteSet hbrands
  have h5 := eq_of_cmpVars hpaths hvars
  have h6 := separates_axis (separates_tupleSig h) _ _ ha.tuples hb.tuples htuples
  have h7 := separates_axis (separates_listSig h) _ _ ha.lists hb.lists hlists
  have h8 := separates_axis (separates_resourceSig h) _ _ ha.resources hb.resources hres
  have h9 := separates_axis (separates_arrowSig hpurpose h) _ _ ha.funcs hb.funcs hfuncs
  have h10 := separates_axis (separates_mapSig h) _ _ ha.maps hb.maps hmaps
  cases a
  cases b
  simp only at h1 h2 h3 h4 h5 h6 h7 h8 h9 h10
  rw [h1, h2, h3, h4, h5, h6, h7, h8, h9, h10]

end Signatures

/-! ## Types -/

namespace TyCtx

/-- What an interner keeps of its arena: a descriptor is held once, and maps are in order. -/
structure Canonical (cx : TyCtx) : Prop where
  distinct : cx.arena.Nodup
  inOrder : ∀ t, Each MapSig.InOrder (cx.descr t).maps

/-- Some type of the arena names the callable. -/
def NamesCallable (cx : TyCtx) (f : Nat) : Prop :=
  ∃ t, ∃ c ∈ (cx.descr t).funcs, ∃ s ∈ c.pos ++ c.neg, ∃ l, s.lit = some l ∧ l.fnId = some f

variable {cx : TyCtx}

theorem Canonical.eachSig (h : cx.Canonical) (t : Ty) :
    (cx.descr t).EachSig (.inOrder (· < t) cx.NamesCallable) := by
  have hbelow := cx.eachSig_descr t
  refine ⟨hbelow.tuples, hbelow.lists, hbelow.resources, fun c hc => ?_, fun c hc => ?_⟩
  · have hnames : ∀ s ∈ c.pos ++ c.neg, ∀ l, s.lit = some l → ∀ f, l.fnId = some f →
        cx.NamesCallable f := fun s hs l hl f hf => ⟨t, c, hc, s, hs, l, hl, hf⟩
    exact ⟨fun s hs => ⟨(hbelow.funcs c hc).1 s hs, hnames s (List.mem_append_left _ hs)⟩,
      fun s hs => ⟨(hbelow.funcs c hc).2 s hs, hnames s (List.mem_append_right _ hs)⟩⟩
  · exact ⟨fun s hs => ⟨(hbelow.maps c hc).1 s hs, (h.inOrder t c hc).1 s hs⟩,
      fun s hs => ⟨(hbelow.maps c hc).2 s hs, (h.inOrder t c hc).2 s hs⟩⟩

theorem Canonical.eq_of_descr (h : cx.Canonical) {a b : Ty} (ha : a < cx.arena.length)
    (hb : b < cx.arena.length) (heq : cx.descr a = cx.descr b) : a = b := by
  rw [descr, descr, List.getD_eq_getElem _ _ ha, List.getD_eq_getElem _ _ hb] at heq
  exact (h.distinct.getElem_inj_iff).mp heq

end TyCtx

section Types

variable {paths : List (List AddrStep)} {purpose : OrderPurpose} {cx : TyCtx}

theorem SigPred.eachSig_mono {P Q : Ty → Prop} {C C' : Nat → Prop} {d : Descr}
    (h : ∀ t, P t → Q t) (hC : ∀ f, C f → C' f) (hd : d.EachSig (.inOrder P C)) :
    d.EachSig (.inOrder Q C') := by
  have hnaming : d.EachSig (.naming P) :=
    ⟨hd.tuples, hd.lists, hd.resources,
      fun c hc => ⟨fun s hs => ((hd.funcs c hc).1 s hs).1, fun s hs => ((hd.funcs c hc).2 s hs).1⟩,
      fun c hc => ⟨fun s hs => ((hd.maps c hc).1 s hs).1, fun s hs => ((hd.maps c hc).2 s hs).1⟩⟩
  have hmono := Descr.EachSig.naming_mono h hnaming
  exact ⟨hmono.tuples, hmono.lists, hmono.resources,
    fun c hc => ⟨fun s hs => ⟨(hmono.funcs c hc).1 s hs,
        fun l hl f hf => hC f (((hd.funcs c hc).1 s hs).2 l hl f hf)⟩,
      fun s hs => ⟨(hmono.funcs c hc).2 s hs,
        fun l hl f hf => hC f (((hd.funcs c hc).2 s hs).2 l hl f hf)⟩⟩,
    fun c hc => ⟨fun s hs => ⟨(hmono.maps c hc).1 s hs, ((hd.maps c hc).1 s hs).2⟩,
      fun s hs => ⟨(hmono.maps c hc).2 s hs, ((hd.maps c hc).2 s hs).2⟩⟩⟩

theorem separates_cmpTyAt (hcx : cx.Canonical) (hpaths : paths.Nodup)
    (hpurpose : purpose.TellsApart cx.NamesCallable) (n : Nat) :
    Separates (cmpTyAt paths purpose cx n) fun t => t < n ∧ t < cx.arena.length := by
  induction n with
  | zero => exact fun a _ ha => absurd ha.1 (Nat.not_lt_zero a)
  | succ n ih =>
    rintro a b ⟨han, ha⟩ ⟨hbn, hb⟩ heq
    rw [cmpTyAt_succ] at heq
    have hbelow : ∀ {t : Ty}, t < n + 1 → t < cx.arena.length →
        (cx.descr t).EachSig (.inOrder (fun u => u < n ∧ u < cx.arena.length)
          cx.NamesCallable) := fun htn ht =>
      SigPred.eachSig_mono
        (fun u hu => ⟨Nat.lt_of_lt_of_le hu (Nat.le_of_lt_succ htn), Nat.lt_trans hu ht⟩)
        (fun _ hf => hf) (hcx.eachSig _)
    exact hcx.eq_of_descr ha hb
      (separates_descr hpaths hpurpose ih _ _ (hbelow han ha) (hbelow hbn hb) heq)

theorem separates_cmpTy (hcx : cx.Canonical) (hpaths : paths.Nodup)
    (hpurpose : purpose.TellsApart cx.NamesCallable) :
    Separates (cmpTy paths purpose cx) (· < cx.arena.length) := by
  intro a b ha hb heq
  exact separates_cmpTyAt hcx hpaths hpurpose _ a b
    ⟨Nat.lt_succ_of_le (Nat.le_max_left a b), ha⟩ ⟨Nat.lt_succ_of_le (Nat.le_max_right a b), hb⟩ heq

end Types

/-! ## Sorting -/

section Sorting

variable {T : Type} {cmp : T → T → Ordering} {P : T → Prop} {xs ys : List T}

theorem pairwise_isLE_sortBy (h : TransCmp cmp) (xs : List T) :
    (sortBy cmp xs).Pairwise fun a b => (cmp a b).isLE = true := by
  have htotal : Std.Total fun a b => (cmp a b).isLE = true := ⟨fun a b => by
    rw [h.eq_swap (a := b)]
    cases cmp a b <;> simp⟩
  have htrans : IsTrans T fun a b => (cmp a b).isLE = true :=
    ⟨fun _ _ _ hab hbc => h.isLE_trans hab hbc⟩
  exact List.pairwise_insertionSort (fun a b => (cmp a b).isLE = true) xs

theorem sortBy_eq_of_perm (h : TransCmp cmp) (hsep : Separates cmp P) (hxs : ∀ x ∈ xs, P x)
    (hp : xs.Perm ys) : sortBy cmp xs = sortBy cmp ys := by
  refine List.Perm.eq_of_pairwise (fun a b ha hb hab hba => ?_) (pairwise_isLE_sortBy h xs)
    (pairwise_isLE_sortBy h ys)
    ((List.perm_insertionSort _ xs).trans (hp.trans (List.perm_insertionSort _ ys).symm))
  exact hsep a b (hxs a (mem_sortBy.mp ha)) (hxs b (hp.mem_iff.mpr (mem_sortBy.mp hb)))
    (OrientedCmp.isLE_antisymm hab hba)

theorem eq_of_pairwise_lt (h : TransCmp cmp) (hxs : xs.Pairwise fun a b => cmp a b = .lt)
    (hys : ys.Pairwise fun a b => cmp a b = .lt) (hmem : ∀ x, x ∈ xs ↔ x ∈ ys) : xs = ys := by
  have hnodup : ∀ {zs : List T}, (zs.Pairwise fun a b => cmp a b = .lt) → zs.Nodup := by
    intro zs hzs
    refine hzs.imp fun hlt heq => ?_
    subst heq
    exact absurd (hlt.symm.trans ReflCmp.compare_self) nofun
  refine List.Perm.eq_of_pairwise (fun a b _ _ hab hba => ?_) hxs hys
    ((List.perm_ext_iff_of_nodup (hnodup hxs) (hnodup hys)).mpr hmem)
  rw [h.eq_swap, hba] at hab
  exact nomatch hab

variable [DecidableEq T]

theorem pairwise_dedupAdjacent (h : TransCmp cmp) (hsep : Separates cmp P) :
    ∀ {xs : List T}, (∀ x ∈ xs, P x) → (xs.Pairwise fun a b => (cmp a b).isLE = true) →
      (dedupAdjacent xs).Pairwise fun a b => cmp a b = .lt := by
  intro xs
  induction xs with
  | nil => exact fun _ _ => .nil
  | cons x xs ih =>
    intro hxs hle
    obtain ⟨hx, hxs⟩ := List.forall_mem_cons.mp hxs
    obtain ⟨hhead, htail⟩ := List.pairwise_cons.mp hle
    cases xs with
    | nil => exact List.pairwise_singleton _ _
    | cons y rest =>
      rw [dedupAdjacent]
      split
      · exact ih hxs htail
      · rename_i hne
        refine List.pairwise_cons.mpr ⟨fun z hz => ?_, ih hxs htail⟩
        have hyP := hxs y (.head _)
        have hxy : cmp x y = .lt := by
          have hxle := hhead y (.head _)
          cases hcmp : cmp x y with
          | lt => rfl
          | eq => exact absurd (hsep x y hx hyP hcmp) hne
          | gt =>
            rw [hcmp] at hxle
            cases hxle
        rcases List.mem_cons.mp ((mem_dedupAdjacent _).mp hz) with rfl | hz
        · exact hxy
        · exact TransCmp.lt_of_lt_of_isLE hxy ((List.pairwise_cons.mp htail).1 z hz)

theorem pairwise_sortFactors (h : TransCmp cmp) (hsep : Separates cmp P) (hxs : ∀ x ∈ xs, P x) :
    (sortFactors cmp xs).Pairwise fun a b => cmp a b = .lt := by
  rw [sortFactors]
  split
  · rename_i hlen
    rcases xs with _ | ⟨x, _ | ⟨y, xs⟩⟩
    · exact .nil
    · exact List.pairwise_singleton _ _
    · exact absurd hlen (by simp)
  · exact pairwise_dedupAdjacent h hsep (fun x hx => hxs x (mem_sortBy.mp hx))
      (pairwise_isLE_sortBy h xs)

theorem sortFactors_eq (h : TransCmp cmp) (hsep : Separates cmp P) (hxs : ∀ x ∈ xs, P x)
    (hmem : ∀ x, x ∈ xs ↔ x ∈ ys) : sortFactors cmp xs = sortFactors cmp ys :=
  eq_of_pairwise_lt h (pairwise_sortFactors h hsep hxs)
    (pairwise_sortFactors h hsep fun y hy => hxs y ((hmem y).mpr hy))
    fun x => by rw [mem_sortFactors, mem_sortFactors, hmem]

/-- The same factors on each side, in any order and any number of times. -/
def Conj.SameFactors (c c' : Conj T) : Prop :=
  (∀ x, x ∈ c.pos ↔ x ∈ c'.pos) ∧ ∀ x, x ∈ c.neg ↔ x ∈ c'.neg

/-- The same clauses in another order, each as often. -/
def SameClauses (cs cs' : List (Conj T)) : Prop :=
  ∃ arrived, cs.Perm arrived ∧ List.Forall₂ Conj.SameFactors arrived cs'

/-- The same set of clauses. -/
def SameClauseSet (cs cs' : List (Conj T)) : Prop :=
  (∀ c ∈ cs, ∃ c' ∈ cs', c.SameFactors c') ∧ ∀ c' ∈ cs', ∃ c ∈ cs, c.SameFactors c'

variable {cs cs' : List (Conj T)}

theorem sortedClause_eq (h : TransCmp cmp) (hsep : Separates cmp P) {c c' : Conj T}
    (hc : (∀ p ∈ c.pos, P p) ∧ ∀ n ∈ c.neg, P n) (hsame : c.SameFactors c') :
    (⟨sortFactors cmp c.pos, sortFactors cmp c.neg⟩ : Conj T)
      = ⟨sortFactors cmp c'.pos, sortFactors cmp c'.neg⟩ := by
  rw [sortFactors_eq h hsep hc.1 hsame.1, sortFactors_eq h hsep hc.2 hsame.2]

theorem pairwise_sortAxis (h : TransCmp cmp) (cs : List (Conj T)) :
    (sortAxis cmp cs).Pairwise fun a b => (cmpConj cmp a b).isLE = true := by
  rw [sortAxis]
  split
  · rename_i hlen
    rcases cs with _ | ⟨c, _ | ⟨c', cs⟩⟩
    · exact .nil
    · exact List.pairwise_singleton _ _
    · exact absurd hlen (by simp)
  · exact pairwise_isLE_sortBy (transCmp_conj h) _

theorem sortAxis_eq_of_sameClauses (h : TransCmp cmp) (hsep : Separates cmp P) (hcs : Each P cs)
    (hsame : SameClauses cs cs') : sortAxis cmp cs = sortAxis cmp cs' := by
  obtain ⟨arrived, hperm, hfactors⟩ := hsame
  have hmap : cs'.map (fun c => (⟨sortFactors cmp c.pos, sortFactors cmp c.neg⟩ : Conj T))
      = arrived.map fun c => ⟨sortFactors cmp c.pos, sortFactors cmp c.neg⟩ :=
    map_eq_of_forall₂ hfactors fun c hc c' hsame =>
      (sortedClause_eq h hsep (hcs c (hperm.mem_iff.mpr hc)) hsame).symm
  have hp := hperm.map fun c : Conj T =>
    (⟨sortFactors cmp c.pos, sortFactors cmp c.neg⟩ : Conj T)
  rw [sortAxis, sortAxis, hmap, hp.length_eq]
  split
  · rename_i hlen
    generalize arrived.map (fun c => (⟨sortFactors cmp c.pos, sortFactors cmp c.neg⟩ : Conj T))
      = sorted at hp hlen
    rcases sorted with _ | ⟨c, _ | ⟨c', cs⟩⟩
    · exact List.perm_nil.mp hp
    · exact List.perm_singleton.mp hp
    · exact absurd hlen (by simp)
  · refine sortBy_eq_of_perm (transCmp_conj h) (separates_conj hsep) ?_ hp
    intro c hc
    obtain ⟨c', hc', rfl⟩ := List.mem_map.mp hc
    exact ⟨fun p hp => (hcs c' hc').1 p (mem_sortFactors.mp hp),
      fun n hn => (hcs c' hc').2 n (mem_sortFactors.mp hn)⟩

theorem dedup_sortAxis_eq_of_sameClauseSet (h : TransCmp cmp) (hsep : Separates cmp P)
    (hcs : Each P cs) (hcs' : Each P cs') (hsame : SameClauseSet cs cs') :
    dedupAdjacent (sortAxis cmp cs) = dedupAdjacent (sortAxis cmp cs') := by
  have hclause : ∀ {cs : List (Conj T)}, Each P cs → ∀ c ∈ sortAxis cmp cs,
      (∀ p ∈ c.pos, P p) ∧ ∀ n ∈ c.neg, P n := by
    intro cs hcs c hc
    obtain ⟨c', hc', rfl⟩ := mem_sortAxis.mp hc
    exact ⟨fun p hp => (hcs c' hc').1 p (mem_sortFactors.mp hp),
      fun n hn => (hcs c' hc').2 n (mem_sortFactors.mp hn)⟩
  refine eq_of_pairwise_lt (transCmp_conj h)
    (pairwise_dedupAdjacent (transCmp_conj h) (separates_conj hsep) (hclause hcs)
      (pairwise_sortAxis h cs))
    (pairwise_dedupAdjacent (transCmp_conj h) (separates_conj hsep) (hclause hcs')
      (pairwise_sortAxis h cs'))
    fun c => ?_
  rw [mem_dedupAdjacent, mem_dedupAdjacent, mem_sortAxis, mem_sortAxis]
  constructor
  · rintro ⟨x, hx, rfl⟩
    obtain ⟨y, hy, hxy⟩ := hsame.1 x hx
    exact ⟨y, hy, sortedClause_eq h hsep (hcs x hx) hxy⟩
  · rintro ⟨y, hy, rfl⟩
    obtain ⟨x, hx, hxy⟩ := hsame.2 y hy
    exact ⟨x, hx, (sortedClause_eq h hsep (hcs x hx) hxy).symm⟩

end Sorting

/-! ## The orders of types -/

namespace Descr

/-- The same descriptor up to how its clauses and their factors are listed, where `Same` says when
two axes list the same. -/
structure Lists (Same : ∀ {T : Type}, List (Conj T) → List (Conj T) → Prop) (d d' : Descr) :
    Prop where
  basic : d.basic = d'.basic
  atoms : d.atoms = d'.atoms
  opaques : d.opaques = d'.opaques
  brands : d.brands = d'.brands
  vars : d.vars = d'.vars
  tuples : Same d.tuples d'.tuples
  lists : Same d.lists d'.lists
  resources : Same d.resources d'.resources
  funcs : Same d.funcs d'.funcs
  maps : Same d.maps d'.maps

/-- Repeated clauses collapsed on every axis. -/
def collapse (d : Descr) : Descr :=
  { d with
    tuples := dedupAdjacent d.tuples
    lists := dedupAdjacent d.lists
    resources := dedupAdjacent d.resources
    funcs := dedupAdjacent d.funcs
    maps := dedupAdjacent d.maps }

end Descr

/-- Both orders are total, and two types of the arena tie only if they are one.  So the storage
order lists the clauses of a descriptor in one way, whatever way they and their factors came in. -/
theorem order_total_injective {cx : TyCtx} (hcx : cx.Canonical) {paths : List (List AddrStep)}
    (hpaths : paths.Nodup) {purpose : OrderPurpose}
    (hpurpose : purpose.TellsApart cx.NamesCallable) :
    (∀ a b, cmpTy paths purpose cx a b = (cmpTy paths purpose cx b a).swap) ∧
    (∀ a b c, (cmpTy paths purpose cx a b).isLE = true → (cmpTy paths purpose cx b c).isLE = true →
      (cmpTy paths purpose cx a c).isLE = true) ∧
    (∀ a b, a < cx.arena.length → b < cx.arena.length →
      (cmpTy paths purpose cx a b = .eq ↔ a = b)) ∧
    ∀ d d' : Descr, d.EachSig (.inOrder (· < cx.arena.length) fun _ => True) →
      d'.EachSig (.inOrder (· < cx.arena.length) fun _ => True) → (d.Lists SameClauses d' →
        d.sortAxes (storageOrder paths) cx = d'.sortAxes (storageOrder paths) cx) ∧
      (d.Lists SameClauseSet d' → (d.sortAxes (storageOrder paths) cx).collapse
        = (d'.sortAxes (storageOrder paths) cx).collapse) := by
  have htrans : TransCmp (cmpTy paths purpose cx) := transCmp_cmpTy
  refine ⟨fun _ _ => htrans.eq_swap, fun _ _ _ hab hbc => htrans.isLE_trans hab hbc,
    fun a b ha hb => ⟨separates_cmpTy hcx hpaths hpurpose a b ha hb, fun heq => ?_⟩,
    fun d d' hd hd' => ?_⟩
  · subst heq
    exact ReflCmp.compare_self
  have hty : TransCmp (cmpTy paths .storage cx) := transCmp_cmpTy
  have hsep : Separates (cmpTy paths .storage cx) (· < cx.arena.length) :=
    separates_cmpTy hcx hpaths trivial
  have htuple : TransCmp (cmpTupleSig .storage (cmpTy paths .storage cx)) := transCmp_tupleSig hty
  have harrow : Separates (cmpArrowSig .storage (cmpTy paths .storage cx))
      (SigPred.inOrder (· < cx.arena.length) fun _ => True).arrow :=
    separates_arrowSig trivial hsep
  constructor
  · intro hsame
    have h1 := sortAxis_eq_of_sameClauses htuple (separates_tupleSig hsep) hd.tuples
      hsame.tuples
    have h2 := sortAxis_eq_of_sameClauses (transCmp_listSig hty) (separates_listSig hsep) hd.lists
      hsame.lists
    have h3 := sortAxis_eq_of_sameClauses (transCmp_resourceSig hty) (separates_resourceSig hsep)
      hd.resources hsame.resources
    have h4 := sortAxis_eq_of_sameClauses (transCmp_arrowSig hty) harrow hd.funcs hsame.funcs
    have h5 := sortAxis_eq_of_sameClauses (transCmp_mapSig hty) (separates_mapSig hsep) hd.maps
      hsame.maps
    simp only [Descr.sortAxes, storageOrder, Descr.mk.injEq]
    exact ⟨hsame.basic, hsame.atoms, hsame.opaques, hsame.brands, hsame.vars, h1, h2, h3, h4, h5⟩
  · intro hsame
    have h1 := dedup_sortAxis_eq_of_sameClauseSet htuple (separates_tupleSig hsep) hd.tuples
      hd'.tuples hsame.tuples
    have h2 := dedup_sortAxis_eq_of_sameClauseSet (transCmp_listSig hty) (separates_listSig hsep)
      hd.lists hd'.lists hsame.lists
    have h3 := dedup_sortAxis_eq_of_sameClauseSet (transCmp_resourceSig hty)
      (separates_resourceSig hsep) hd.resources hd'.resources hsame.resources
    have h4 := dedup_sortAxis_eq_of_sameClauseSet (transCmp_arrowSig hty) harrow hd.funcs
      hd'.funcs hsame.funcs
    have h5 := dedup_sortAxis_eq_of_sameClauseSet (transCmp_mapSig hty) (separates_mapSig hsep)
      hd.maps hd'.maps hsame.maps
    simp only [Descr.sortAxes, Descr.collapse, storageOrder, Descr.mk.injEq]
    exact ⟨hsame.basic, hsame.atoms, hsame.opaques, hsame.brands, hsame.vars, h1, h2, h3, h4, h5⟩

section Sample

def closureOf (f : Nat) : Descr :=
  { Descr.unbranded with funcs := [.posOf ⟨[1], 1, some ⟨.closure, some f, []⟩⟩] }

/-- Two closures of one signature. -/
def twoClosures : TyCtx where
  arena := [.none, .any, closureOf 0, closureOf 1]
  children_lt := by
    intro t d h s hs
    match t, h with
    | 0, h | 1, h | 2, h | 3, h =>
      obtain rfl := Option.some.inj h
      revert s
      decide

theorem twoClosures_canonical : twoClosures.Canonical where
  distinct := by decide
  inOrder t := by
    rcases t with _ | _ | _ | _ | t
    · rintro _ ⟨⟩
    · simp [twoClosures, TyCtx.descr, Descr.any, Each, Conj.top]
    all_goals rintro _ ⟨⟩

/-- The closures do not tie, since their functions differ in arity. -/
theorem order_of_closures :
    cmpTy [] (.activation fun f => .named none "f" f) twoClosures 2 3 ≠ .eq := by
  have hpurpose : (OrderPurpose.activation fun f => .named none "f" f).TellsApart
      twoClosures.NamesCallable := fun f g _ _ h => (Terms.FunctionDenotation.named.inj h).2.2
  have h := (order_total_injective twoClosures_canonical List.nodup_nil hpurpose).2.2.1 2 3
    (by decide) (by decide)
  exact fun heq => absurd (h.mp heq) (by decide)

end Sample

end Fz.Types
