import Fz.Types.OrderInjective
import Fz.Types.SubtypeOrder

/-!
# The storage order under another schedule

Two runs of the compiler intern the same addresses and the same types in different orders, so that
types and addresses have other ids, and the clauses of a type may have arrived in another order.
Types made of structural addresses alone are compared by paths and by each other, and paths do not
depend on the schedule.  What does is the order in which the addresses of one node are gone through,
which is the order of their ids.

So the storage order survives the change of schedule exactly where this makes no difference: where
two nodes that agree on the fields before the addresses have their address sets compared alike
(`orderSurvives_iff`).  One address a node is enough.  Two are not (`order_flips`).
-/

namespace Fz.Types

open Base Std

/-! ## Renaming -/

namespace Conj

def map {T U : Type} (f : T → U) (c : Conj T) : Conj U := ⟨c.pos.map f, c.neg.map f⟩

end Conj

section Rename

variable (f : Ty → Ty)

def TupleSig.rename (s : TupleSig) : TupleSig := ⟨s.elems.map f⟩

def ListSig.rename (s : ListSig) : ListSig := ⟨s.empty, s.elem.map f⟩

def ResourceSig.rename (s : ResourceSig) : ResourceSig := ⟨f s.payload⟩

def ArrowSig.rename (s : ArrowSig) : ArrowSig :=
  ⟨s.args.map f, f s.ret, s.lit.map fun l => { l with captures := l.captures.map f }⟩

def MapSig.rename (s : MapSig) : MapSig where
  tag := s.tag
  fields := s.fields.map fun p => (p.1, f p.2)
  nodup := by
    rw [List.map_map]
    exact s.nodup

/-- A descriptor with its types and its variables renamed. -/
def Descr.rename (g : Nat → Nat) (d : Descr) : Descr :=
  { d with
    vars := ⟨d.vars.values.image g, d.vars.cofinite⟩
    tuples := d.tuples.map (.map (.rename f))
    lists := d.lists.map (.map (.rename f))
    resources := d.resources.map (.map (.rename f))
    funcs := d.funcs.map (.map (.rename f))
    maps := d.maps.map (.map (.rename f)) }

end Rename

/-- The types named have a property, there is no closure literal, and maps are in order. -/
def SigPred.addressed (P : Ty → Prop) : SigPred where
  tuple := (naming P).tuple
  list := (naming P).list
  resource := (naming P).resource
  arrow s := (naming P).arrow s ∧ s.lit = none
  map s := (naming P).map s ∧ s.InOrder

theorem Each.both {T : Type} {P Q R : T → Prop} {cs : List (Conj T)} (hP : Each P cs)
    (hQ : Each Q cs) (h : ∀ s, P s → Q s → R s) : Each R cs := fun c hc =>
  ⟨fun s hs => h s ((hP c hc).1 s hs) ((hQ c hc).1 s hs),
    fun s hs => h s ((hP c hc).2 s hs) ((hQ c hc).2 s hs)⟩

theorem Descr.EachSig.addressed_and {P Q : Ty → Prop} {d : Descr} (h : d.EachSig (.addressed P))
    (h' : d.EachSig (.naming Q)) : d.EachSig (.addressed fun t => P t ∧ Q t) where
  tuples := h.tuples.both h'.tuples fun _ hs hs' t ht => ⟨hs t ht, hs' t ht⟩
  lists := h.lists.both h'.lists fun _ hs hs' t ht => ⟨hs t ht, hs' t ht⟩
  resources := h.resources.both h'.resources fun _ hs hs' => ⟨hs, hs'⟩
  funcs := h.funcs.both h'.funcs fun _ hs hs' => ⟨⟨⟨hs.1.1, hs'.1⟩,
    fun t ht => ⟨hs.1.2.1 t ht, hs'.2.1 t ht⟩,
    fun l hl t ht => ⟨hs.1.2.2 l hl t ht, hs'.2.2 l hl t ht⟩⟩, hs.2⟩
  maps := h.maps.both h'.maps fun _ hs hs' => ⟨fun p hp => ⟨hs.1 p hp, hs' p hp⟩, hs.2⟩

section InOrder

variable {f : Ty → Ty} {P Q : Ty → Prop} {C : Nat → Prop} (h : ∀ t, P t → Q (f t))

include h

theorem TupleSig.rename_inOrder (s : TupleSig) (hs : (SigPred.addressed P).tuple s) :
    (SigPred.inOrder Q C).tuple (s.rename f) :=
  List.forall_mem_map.mpr fun t ht => h t (hs t ht)

theorem ListSig.rename_inOrder (s : ListSig) (hs : (SigPred.addressed P).list s) :
    (SigPred.inOrder Q C).list (s.rename f) := by
  intro t ht
  obtain ⟨x, hx, rfl⟩ := Option.map_eq_some_iff.mp ht
  exact h x (hs x hx)

theorem ArrowSig.rename_inOrder (s : ArrowSig) (hs : (SigPred.addressed P).arrow s) :
    (SigPred.inOrder Q C).arrow (s.rename f) := by
  obtain ⟨args, ret, lit⟩ := s
  obtain ⟨⟨hret, hargs, -⟩, hlit⟩ := hs
  cases hlit
  exact ⟨⟨h _ hret, List.forall_mem_map.mpr fun t ht => h t (hargs t ht), nofun⟩, nofun⟩

theorem MapSig.rename_inOrder (s : MapSig) (hs : (SigPred.addressed P).map s) :
    (SigPred.inOrder Q C).map (s.rename f) :=
  ⟨List.forall_mem_map.mpr fun p hp => h p.2 (hs.1 p hp), List.pairwise_map.mpr hs.2⟩

end InOrder

/-! ## Comparisons of renamed signatures -/

section Lists

variable {T U : Type} {cmp : T → T → Ordering} {cmp' : U → U → Ordering} {f : T → U}

theorem firstDifference_map (a b : List T) : firstDifference cmp' (a.map f) (b.map f)
      = firstDifference (fun x y => cmp' (f x) (f y)) a b := by
  rw [firstDifference, firstDifference, List.zip_map, List.map_map]
  rfl

theorem lexOrder_map (a b : List T) :
    lexOrder cmp' (a.map f) (b.map f) = lexOrder (fun x y => cmp' (f x) (f y)) a b := by
  show (compare (a.map f).length (b.map f).length).then (firstDifference cmp' _ _) = _
  rw [firstDifference_map, List.length_map, List.length_map]
  rfl

theorem lexElementsFirst_map (a b : List T) : lexElementsFirst cmp' (a.map f) (b.map f)
    = lexElementsFirst (fun x y => cmp' (f x) (f y)) a b := by
  rw [lexElementsFirst, firstDifference_map, List.length_map, List.length_map, lexElementsFirst]

theorem lexElementsThenLonger_map (a b : List T) : lexElementsThenLonger cmp' (a.map f) (b.map f)
    = lexElementsThenLonger (fun x y => cmp' (f x) (f y)) a b := by
  rw [lexElementsThenLonger, firstDifference_map, List.length_map, List.length_map,
    lexElementsThenLonger]

end Lists

section Signatures

variable {purpose : OrderPurpose} {cmp cmp' : Ty → Ty → Ordering} {f : Ty → Ty} {P : Ty → Prop}
  (h : ∀ x, P x → ∀ y, P y → cmp' (f x) (f y) = cmp x y)

include h

theorem cmpTys_rename {a b : List Ty} (ha : ∀ t ∈ a, P t) (hb : ∀ t ∈ b, P t) :
    cmpTys purpose cmp' (a.map f) (b.map f) = cmpTys purpose cmp a b := by
  rw [← cmpTys_congr h ha hb]
  cases purpose with
  | storage => exact lexOrder_map a b
  | activation origins => exact lexElementsFirst_map a b

theorem cmpTupleSig_rename (a b : TupleSig) (ha : (SigPred.addressed P).tuple a)
    (hb : (SigPred.addressed P).tuple b) :
    cmpTupleSig purpose cmp' (a.rename f) (b.rename f) = cmpTupleSig purpose cmp a b :=
  cmpTys_rename h ha hb

theorem cmpListSig_rename (a b : ListSig) (ha : (SigPred.addressed P).list a)
    (hb : (SigPred.addressed P).list b) :
    cmpListSig cmp' (a.rename f) (b.rename f) = cmpListSig cmp a b := by
  rw [← cmpListSig_congr h ha hb]
  obtain ⟨_, x⟩ := a
  obtain ⟨_, y⟩ := b
  cases x <;> cases y <;> rfl

theorem cmpResourceSig_rename (a b : ResourceSig) (ha : (SigPred.addressed P).resource a)
    (hb : (SigPred.addressed P).resource b) :
    cmpResourceSig cmp' (a.rename f) (b.rename f) = cmpResourceSig cmp a b := h _ ha _ hb

theorem cmpArrowSig_rename (a b : ArrowSig) (ha : (SigPred.addressed P).arrow a)
    (hb : (SigPred.addressed P).arrow b) :
    cmpArrowSig purpose cmp' (a.rename f) (b.rename f) = cmpArrowSig purpose cmp a b := by
  obtain ⟨args, ret, lit⟩ := a
  obtain ⟨args', ret', lit'⟩ := b
  obtain ⟨⟨hret, hargs, -⟩, hlit⟩ := ha
  obtain ⟨⟨hret', hargs', -⟩, hlit'⟩ := hb
  cases hlit
  cases hlit'
  simp only [cmpArrowSig, ArrowSig.rename, cmpTys_rename h hargs hargs', h _ hret _ hret',
    Option.map_none]
  rfl

theorem cmpMapSig_rename (a b : MapSig) (ha : (SigPred.addressed P).map a)
    (hb : (SigPred.addressed P).map b) :
    cmpMapSig cmp' (a.rename f) (b.rename f) = cmpMapSig cmp a b := by
  rw [← cmpMapSig_congr h ha.1 hb.1]
  have hsorted : ∀ s : MapSig, (s.rename f).sortedFields
      = s.sortedFields.map fun p => (p.1, f p.2) := fun s =>
    (List.map_insertionSort (fun x y : MapKey × Ty => (MapKey.cmp x.1 y.1).isLE = true)
      (fun x y : MapKey × Ty => (MapKey.cmp x.1 y.1).isLE = true)
      (fun p : MapKey × Ty => (p.1, f p.2)) _ fun _ _ _ _ => Iff.rfl).symm
  rw [cmpMapSig, cmpMapSig, hsorted, hsorted, firstDifference_map]
  simp only [MapSig.rename, List.length_map]

end Signatures

theorem cmpConj_map {T : Type} {cmp cmp' : T → T → Ordering} {ren : T → T} {Q : T → Prop}
    (h : ∀ x y, Q x → Q y → cmp' (ren x) (ren y) = cmp x y) {a b : Conj T}
    (ha : (∀ p ∈ a.pos, Q p) ∧ ∀ n ∈ a.neg, Q n) (hb : (∀ p ∈ b.pos, Q p) ∧ ∀ n ∈ b.neg, Q n) :
    cmpConj cmp' (a.map ren) (b.map ren) = cmpConj cmp a b := by
  rw [cmpConj, cmpConj, Conj.map, Conj.map]
  dsimp only
  rw [lexOrder_map, lexOrder_map, lexOrder_congr fun x hx y hy => h x y (ha.1 x hx) (hb.1 y hy),
    lexOrder_congr fun x hx y hy => h x y (ha.2 x hx) (hb.2 y hy)]

theorem cmpAxis_map {T : Type} {purpose : OrderPurpose} {cmp cmp' : T → T → Ordering} {ren : T → T}
    {Q : T → Prop} (h : ∀ x y, Q x → Q y → cmp' (ren x) (ren y) = cmp x y) {a b : List (Conj T)}
    (ha : Each Q a) (hb : Each Q b) :
    cmpAxis purpose cmp' (a.map (.map ren)) (b.map (.map ren)) = cmpAxis purpose cmp a b := by
  have hall : ∀ x ∈ a, ∀ y ∈ b, cmpConj cmp' (x.map ren) (y.map ren) = cmpConj cmp x y :=
    fun x hx y hy => cmpConj_map h (ha x hx) (hb y hy)
  cases purpose with
  | storage => exact (lexOrder_map a b).trans (lexOrder_congr hall)
  | activation origins =>
    exact (lexElementsThenLonger_map a b).trans (lexElementsThenLonger_congr hall)

/-! ## Mint order -/

/-- The paths of a set of addresses, in the order of their ids. -/
def mintOrder (paths : List (List AddrStep)) (vars : FiniteSet Nat) : List (List AddrStep) :=
  (sorted vars.values).filterMap (addressPath paths)

section Vars

variable {paths : List (List AddrStep)}

theorem cmpVar_eq {a b : Nat} {x y : List AddrStep} (ha : addressPath paths a = some x)
    (hb : addressPath paths b = some y) : cmpVar paths a b = lexElementsFirst AddrStep.cmp x y := by
  unfold cmpVar
  split
  · rename_i heq
    subst heq
    obtain rfl := Option.some.inj (ha.symm.trans hb)
    have htrans := transCmp_lexElementsFirst transCmp_addrStep
    exact ReflCmp.compare_self.symm
  · rw [ha, hb]

theorem firstDifference_cmpVar : ∀ {a b : List Nat},
    (∀ id ∈ a, ∃ p, addressPath paths id = some p) →
    (∀ id ∈ b, ∃ p, addressPath paths id = some p) → firstDifference (cmpVar paths) a b
      = firstDifference (lexElementsFirst AddrStep.cmp) (a.filterMap (addressPath paths))
        (b.filterMap (addressPath paths)) := by
  intro a
  induction a with
  | nil => exact fun _ _ => rfl
  | cons id a ih =>
    intro b ha hb
    obtain ⟨⟨x, hx⟩, ha⟩ := List.forall_mem_cons.mp ha
    cases b with
    | nil =>
      rw [List.filterMap_cons_some hx]
      rfl
    | cons id' b =>
      obtain ⟨⟨y, hy⟩, hb⟩ := List.forall_mem_cons.mp hb
      rw [List.filterMap_cons_some hx, List.filterMap_cons_some hy, firstDifference_cons,
        firstDifference_cons, cmpVar_eq hx hy, ih ha hb]

theorem cmpVars_eq {a b : FiniteSet Nat} (ha : ∀ id ∈ a.values, ∃ p, addressPath paths id = some p)
    (hb : ∀ id ∈ b.values, ∃ p, addressPath paths id = some p) :
    cmpVars paths a b = ((compare a.cofinite b.cofinite).then
      (compare a.values.card b.values.card)).then
        (firstDifference (lexElementsFirst AddrStep.cmp) (mintOrder paths a)
          (mintOrder paths b)) := by
  rw [cmpVars, firstDifference_cmpVar (fun id hid => ha id (mem_sorted.mp hid))
    fun id hid => hb id (mem_sorted.mp hid)]
  rfl

theorem cmpVars_self (paths : List (List AddrStep)) (a : FiniteSet Nat) :
    cmpVars paths a a = .eq := by
  have htrans := transCmp_vars paths
  exact ReflCmp.compare_self

end Vars

/-! ## Ordered axes -/

section Ordered

variable {T : Type} {cmp cmp' : T → T → Ordering} {P Q : T → Prop} {ren : T → T}
  {cs cs' : List (Conj T)}

/-- The factors increase without repeats, and the clauses increase. -/
structure AxisOrdered (cmp : T → T → Ordering) (cs : List (Conj T)) : Prop where
  pos : ∀ c ∈ cs, c.pos.Pairwise fun x y => cmp x y = .lt
  neg : ∀ c ∈ cs, c.neg.Pairwise fun x y => cmp x y = .lt
  clauses : cs.Pairwise fun c c' => (cmpConj cmp c c').isLE = true

theorem axisOrdered_sortAxis [DecidableEq T] (h : TransCmp cmp) (hsep : Separates cmp P)
    (hcs : Each P cs) : AxisOrdered cmp (sortAxis cmp cs) := by
  refine ⟨fun c hc => ?_, fun c hc => ?_, pairwise_sortAxis h cs⟩
  · obtain ⟨c', hc', rfl⟩ := mem_sortAxis.mp hc
    exact pairwise_sortFactors h hsep (hcs c' hc').1
  · obtain ⟨c', hc', rfl⟩ := mem_sortAxis.mp hc
    exact pairwise_sortFactors h hsep (hcs c' hc').2

theorem AxisOrdered.map (h : AxisOrdered cmp cs) (hcs : Each Q cs)
    (hren : ∀ x y, Q x → Q y → cmp' (ren x) (ren y) = cmp x y) :
    AxisOrdered cmp' (cs.map (.map ren)) := by
  have hfactors : ∀ {xs : List T}, (∀ x ∈ xs, Q x) → (xs.Pairwise fun x y => cmp x y = .lt) →
      (xs.map ren).Pairwise fun x y => cmp' x y = .lt := by
    intro xs hxs hlt
    refine List.pairwise_map.mpr (hlt.imp_of_mem fun hx hy hxy => ?_)
    rw [hren _ _ (hxs _ hx) (hxs _ hy), hxy]
  refine ⟨fun c hc => ?_, fun c hc => ?_, List.pairwise_map.mpr ?_⟩
  · obtain ⟨c', hc', rfl⟩ := List.mem_map.mp hc
    exact hfactors (hcs c' hc').1 (h.pos c' hc')
  · obtain ⟨c', hc', rfl⟩ := List.mem_map.mp hc
    exact hfactors (hcs c' hc').2 (h.neg c' hc')
  · refine h.clauses.imp_of_mem fun hc hc' hle => ?_
    rw [cmpConj_map hren (hcs _ hc) (hcs _ hc'), hle]

theorem AxisOrdered.eq_of_sameClauses (ho : AxisOrdered cmp cs) (ho' : AxisOrdered cmp cs')
    (h : TransCmp cmp) (hsep : Separates cmp P) (hcs : Each P cs) (hsame : SameClauses cs cs') :
    cs = cs' := by
  obtain ⟨arrived, hperm, hfactors⟩ := hsame
  have heq : arrived = cs' := by
    have hclause : ∀ c' ∈ cs', ∀ c, c ∈ arrived ∧ c.SameFactors c' → c = c' := by
      rintro ⟨pos', neg'⟩ hc' ⟨pos, neg⟩ ⟨hc, hsame⟩
      have hc := hperm.mem_iff.mpr hc
      obtain rfl := eq_of_pairwise_lt h (ho.pos _ hc) (ho'.pos _ hc') hsame.1
      obtain rfl := eq_of_pairwise_lt h (ho.neg _ hc) (ho'.neg _ hc') hsame.2
      rfl
    have hmap := map_eq_of_forall₂ (f := id) (g := id)
      ((List.forall₂_and_left _ _).mpr ⟨fun _ hc => hc, hfactors⟩).flip hclause
    rwa [List.map_id, List.map_id] at hmap
  subst heq
  have htrans := transCmp_conj h
  refine List.Perm.eq_of_pairwise (fun c c' hc hc' hle hle' => ?_) ho.clauses ho'.clauses hperm
  exact separates_conj hsep c c' (hcs c hc) (hcs c' (hperm.mem_iff.mpr hc'))
    (OrientedCmp.isLE_antisymm hle hle')

theorem AxisOrdered.eq_map (ho : AxisOrdered cmp cs) (ho' : AxisOrdered cmp' cs')
    (h : TransCmp cmp') (hsep : Separates cmp' P)
    (hren : ∀ x y, Q x → Q y → cmp' (ren x) (ren y) = cmp x y) (hP : ∀ x, Q x → P (ren x))
    (hcs : Each Q cs) (hsame : SameClauses (cs.map (.map ren)) cs') : cs' = cs.map (.map ren) := by
  refine ((ho.map hcs hren).eq_of_sameClauses ho' h hsep (fun c hc => ?_) hsame).symm
  obtain ⟨c', hc', rfl⟩ := List.mem_map.mp hc
  simp only [Conj.map, List.forall_mem_map]
  exact ⟨fun p hp => hP p ((hcs c' hc').1 p hp), fun n hn => hP n ((hcs c' hc').2 n hn)⟩

end Ordered

/-! ## Two runs -/

/-- The axes of a descriptor are listed in the storage order. -/
structure Descr.Ordered (paths : List (List AddrStep)) (cx : TyCtx) (d : Descr) : Prop where
  tuples : AxisOrdered (cmpTupleSig .storage (cmpTy paths .storage cx)) d.tuples
  lists : AxisOrdered (cmpListSig (cmpTy paths .storage cx)) d.lists
  resources : AxisOrdered (cmpResourceSig (cmpTy paths .storage cx)) d.resources
  funcs : AxisOrdered (cmpArrowSig .storage (cmpTy paths .storage cx)) d.funcs
  maps : AxisOrdered (cmpMapSig (cmpTy paths .storage cx)) d.maps

theorem Descr.ordered_sortAxes {paths : List (List AddrStep)} (hpaths : paths.Nodup) {cx : TyCtx}
    (hcx : cx.Canonical) {d : Descr}
    (hd : d.EachSig (.inOrder (· < cx.arena.length) fun _ => True)) :
    (d.sortAxes (storageOrder paths) cx).Ordered paths cx := by
  have hty : TransCmp (cmpTy paths .storage cx) := transCmp_cmpTy
  have hsep : Separates (cmpTy paths .storage cx) (· < cx.arena.length) :=
    separates_cmpTy hcx hpaths trivial
  exact ⟨axisOrdered_sortAxis (transCmp_tupleSig hty) (separates_tupleSig hsep) hd.tuples,
    axisOrdered_sortAxis (transCmp_listSig hty) (separates_listSig hsep) hd.lists,
    axisOrdered_sortAxis (transCmp_resourceSig hty) (separates_resourceSig hsep) hd.resources,
    axisOrdered_sortAxis (transCmp_arrowSig hty) (separates_arrowSig trivial hsep) hd.funcs,
    axisOrdered_sortAxis (transCmp_mapSig hty) (separates_mapSig hsep) hd.maps⟩

theorem TyCtx.ordered_of_sorted {paths : List (List AddrStep)} (hpaths : paths.Nodup) {cx : TyCtx}
    (hcx : cx.Canonical) (h : ∀ d ∈ cx.arena, d.sortAxes (storageOrder paths) cx = d) (t : Ty) :
    (cx.descr t).Ordered paths cx := by
  rcases Nat.lt_or_ge t cx.arena.length with ht | ht
  · have hmem : cx.descr t ∈ cx.arena := by
      rw [TyCtx.descr, List.getD_eq_getElem _ _ ht]
      exact List.getElem_mem ht
    rw [← h _ hmem]
    exact Descr.ordered_sortAxes hpaths hcx
      (SigPred.eachSig_mono (fun _ hu => Nat.lt_trans hu ht) (fun _ _ => trivial) (hcx.eachSig t))
  · rw [TyCtx.descr, List.getD_eq_default _ _ ht]
    exact Descr.ordered_sortAxes hpaths hcx .none

/-- What a run of the compiler interned: types, their clauses in the storage order, and the paths of
addresses in mint order. -/
structure Schedule where
  cx : TyCtx
  paths : List (List AddrStep)
  canonical : cx.Canonical
  distinct : paths.Nodup
  ordered : ∀ t, (cx.descr t).Ordered paths cx

/-- The types `S` of one run are in another one, under other ids, with other ids for the addresses
they carry, and with clauses and factors that may have arrived in another order. -/
structure Flip (A B : Schedule) (S : Ty → Prop) (f : Ty → Ty) (g : Nat → Nat) : Prop where
  addressed : ∀ t, S t → (A.cx.descr t).EachSig (.addressed S)
  addresses : ∀ t, S t → ∀ id ∈ (A.cx.descr t).vars.values,
    ∃ p, addressPath A.paths id = some p ∧ addressPath B.paths (g id) = some p
  known : ∀ t, S t → t < A.cx.arena.length ∧ f t < B.cx.arena.length
  descr : ∀ t, S t → ((A.cx.descr t).rename f g).Lists SameClauses (B.cx.descr (f t))

/-- Types compare alike in both runs, and have their clauses stored in the same order. -/
structure OrderSurvives (A B : Schedule) (S : Ty → Prop) (f : Ty → Ty) (g : Nat → Nat) : Prop where
  verdict : ∀ purpose t u, S t → S u →
    cmpTy B.paths purpose B.cx (f t) (f u) = cmpTy A.paths purpose A.cx t u
  stored : ∀ t, S t → B.cx.descr (f t) = (A.cx.descr t).rename f g

/-- Two descriptors agree up to which addresses they carry and what is compared after these. -/
structure Descr.SameHead (d e : Descr) : Prop where
  basic : d.basic = e.basic
  atoms : d.atoms = e.atoms
  opaques : d.opaques = e.opaques
  brands : d.brands = e.brands
  cofinite : d.vars.cofinite = e.vars.cofinite
  card : d.vars.values.card = e.vars.values.card

/-- The first addresses, in mint order, at which two nodes part, stand in the same order in both
runs. -/
def MintOrdersAgree (A B : Schedule) (S : Ty → Prop) (f : Ty → Ty) (g : Nat → Nat) : Prop :=
  ∀ t u, S t → S u → (A.cx.descr t).SameHead (A.cx.descr u) →
    firstDifference (lexElementsFirst AddrStep.cmp)
        (mintOrder B.paths ((A.cx.descr t).rename f g).vars)
        (mintOrder B.paths ((A.cx.descr u).rename f g).vars)
      = firstDifference (lexElementsFirst AddrStep.cmp) (mintOrder A.paths (A.cx.descr t).vars)
        (mintOrder A.paths (A.cx.descr u).vars)

section Descriptors

variable {paths paths' : List (List AddrStep)} {purpose : OrderPurpose}
  {cmp cmp' : Ty → Ty → Ordering} {f : Ty → Ty} {g : Nat → Nat} {P : Ty → Prop} {d e : Descr}

theorem then_congr {a b b' : Ordering} (h : a = .eq → b = b') : a.then b = a.then b' := by
  cases a with
  | eq => exact h rfl
  | lt => rfl
  | gt => rfl

theorem cmpDescr_rename (h : ∀ x, P x → ∀ y, P y → cmp' (f x) (f y) = cmp x y)
    (hd : d.EachSig (.addressed P)) (he : e.EachSig (.addressed P))
    (hvars : d.basic = e.basic → d.atoms = e.atoms → d.opaques = e.opaques → d.brands = e.brands →
      cmpVars paths' (d.rename f g).vars (e.rename f g).vars = cmpVars paths d.vars e.vars) :
    cmpDescr paths' purpose cmp' (d.rename f g) (e.rename f g)
      = cmpDescr paths purpose cmp d e := by
  refine then_congr fun hbasic => then_congr fun hatoms => then_congr fun hopaques =>
    then_congr fun hbrands => ?_
  rw [hvars (BasicBits.eq_of_bits (Nat.compare_eq_eq.mp hbasic)) (eq_of_cmp_finiteSet hatoms)
    (eq_of_cmp_finiteSet hopaques) (eq_of_cmp_finiteSet hbrands)]
  congr 1
  show (cmpAxis _ _ (d.tuples.map (.map _)) (e.tuples.map (.map _))).then
    ((cmpAxis _ _ (d.lists.map (.map _)) (e.lists.map (.map _))).then
    ((cmpAxis _ _ (d.resources.map (.map _)) (e.resources.map (.map _))).then
    ((cmpAxis _ _ (d.funcs.map (.map _)) (e.funcs.map (.map _))).then
    (cmpAxis _ _ (d.maps.map (.map _)) (e.maps.map (.map _)))))) = _
  rw [cmpAxis_map (cmpTupleSig_rename h) hd.tuples he.tuples,
    cmpAxis_map (cmpListSig_rename h) hd.lists he.lists,
    cmpAxis_map (cmpResourceSig_rename h) hd.resources he.resources,
    cmpAxis_map (cmpArrowSig_rename h) hd.funcs he.funcs,
    cmpAxis_map (cmpMapSig_rename h) hd.maps he.maps]

theorem cmpDescr_of_sameHead (h : d.SameHead e) {r : Ordering}
    (hvars : cmpVars paths d.vars e.vars = r) (hr : r ≠ .eq) :
    cmpDescr paths purpose cmp d e = r := by
  have hnames := transCmp_finiteSet (T := String)
  have htags := transCmp_finiteSet (T := OpaqueTag)
  have hname : ∀ s : FiniteSet String, FiniteSet.cmp s s = .eq := fun _ => ReflCmp.compare_self
  have htag : ∀ s : FiniteSet OpaqueTag, FiniteSet.cmp s s = .eq := fun _ => ReflCmp.compare_self
  rw [cmpDescr, h.basic, h.atoms, h.opaques, h.brands, hvars, hname, htag, hname, compare_self]
  cases r with
  | eq => exact absurd rfl hr
  | lt => rfl
  | gt => rfl

end Descriptors

section Cmp

variable {paths : List (List AddrStep)} {purpose : OrderPurpose} {cx : TyCtx}

theorem cmpTy_eq (a b : Ty) : cmpTy paths purpose cx a b
    = cmpDescr paths purpose (cmpTy paths purpose cx) (cx.descr a) (cx.descr b) := by
  rw [cmpTy, cmpTyAt_succ]
  refine cmpDescr_congr paths (fun x hx y hy => ?_) (cx.eachSig_descr a) (cx.eachSig_descr b)
  exact cmpTyAt_eq (max_lt_max hx hy) (Nat.lt_succ_self _)

end Cmp

namespace Flip

variable {A B : Schedule} {S : Ty → Prop} {f : Ty → Ty} {g : Nat → Nat} (h : Flip A B S f g)

include h

theorem vars_of_rename {t u : Ty} (ht : S t) (hu : S u) {id id' : Nat}
    (hid : id ∈ (A.cx.descr t).vars.values) (hid' : id' ∈ (A.cx.descr u).vars.values)
    (heq : g id = g id') : id = id' := by
  obtain ⟨p, hp, hgp⟩ := h.addresses t ht id hid
  obtain ⟨p', hp', hgp'⟩ := h.addresses u hu id' hid'
  rw [heq, hgp'] at hgp
  obtain rfl := Option.some.inj hgp
  have htrans := transCmp_lexElementsFirst transCmp_addrStep
  exact eq_of_cmpVar A.distinct ((cmpVar_eq hp hp').trans ReflCmp.compare_self)

theorem card_rename {t : Ty} (ht : S t) : ((A.cx.descr t).rename f g).vars.values.card
    = (A.cx.descr t).vars.values.card :=
  Finset.card_image_of_injOn fun _ hid _ hid' heq => h.vars_of_rename ht ht hid hid' heq

theorem cmpVars_left {t u : Ty} (ht : S t) (hu : S u) :
    cmpVars A.paths (A.cx.descr t).vars (A.cx.descr u).vars
      = ((compare (A.cx.descr t).vars.cofinite (A.cx.descr u).vars.cofinite).then
        (compare (A.cx.descr t).vars.values.card (A.cx.descr u).vars.values.card)).then
        (firstDifference (lexElementsFirst AddrStep.cmp) (mintOrder A.paths (A.cx.descr t).vars)
          (mintOrder A.paths (A.cx.descr u).vars)) :=
  cmpVars_eq (fun id hid => (h.addresses t ht id hid).imp fun _ hp => hp.1)
    fun id hid => (h.addresses u hu id hid).imp fun _ hp => hp.1

theorem cmpVars_right {t u : Ty} (ht : S t) (hu : S u) :
    cmpVars B.paths ((A.cx.descr t).rename f g).vars ((A.cx.descr u).rename f g).vars
      = ((compare (A.cx.descr t).vars.cofinite (A.cx.descr u).vars.cofinite).then
        (compare (A.cx.descr t).vars.values.card (A.cx.descr u).vars.values.card)).then
        (firstDifference (lexElementsFirst AddrStep.cmp)
          (mintOrder B.paths ((A.cx.descr t).rename f g).vars)
          (mintOrder B.paths ((A.cx.descr u).rename f g).vars)) := by
  have hpaths : ∀ {t : Ty}, S t → ∀ id ∈ ((A.cx.descr t).rename f g).vars.values,
      ∃ p, addressPath B.paths id = some p := by
    intro t ht id hid
    obtain ⟨id', hid', rfl⟩ := Finset.mem_image.mp hid
    exact (h.addresses t ht id' hid').imp fun _ hp => hp.2
  rw [cmpVars_eq (hpaths ht) (hpaths hu), h.card_rename ht, h.card_rename hu]
  rfl

theorem cmpVars_eq_of_agree (hagree : MintOrdersAgree A B S f g) {t u : Ty} (ht : S t) (hu : S u)
    (hbasic : (A.cx.descr t).basic = (A.cx.descr u).basic)
    (hatoms : (A.cx.descr t).atoms = (A.cx.descr u).atoms)
    (hopaques : (A.cx.descr t).opaques = (A.cx.descr u).opaques)
    (hbrands : (A.cx.descr t).brands = (A.cx.descr u).brands) :
    cmpVars B.paths ((A.cx.descr t).rename f g).vars ((A.cx.descr u).rename f g).vars
      = cmpVars A.paths (A.cx.descr t).vars (A.cx.descr u).vars := by
  rw [h.cmpVars_left ht hu, h.cmpVars_right ht hu]
  refine then_congr fun hhead => ?_
  obtain ⟨hcofinite, hcard⟩ := Ordering.then_eq_eq.mp hhead
  exact hagree t u ht hu ⟨hbasic, hatoms, hopaques, hbrands,
    LawfulEqOrd.eq_of_compare hcofinite, Nat.compare_eq_eq.mp hcard⟩

theorem verdict_of_stored (hagree : MintOrdersAgree A B S f g)
    (hstored : ∀ t, S t → B.cx.descr (f t) = (A.cx.descr t).rename f g) (purpose : OrderPurpose) :
    ∀ n t u, S t → S u → t < n → u < n →
      cmpTy B.paths purpose B.cx (f t) (f u) = cmpTy A.paths purpose A.cx t u := by
  intro n
  induction n with
  | zero => exact fun t u _ _ ht => absurd ht (Nat.not_lt_zero t)
  | succ n ih =>
    intro t u ht hu htn hun
    rw [cmpTy_eq, cmpTy_eq t u, hstored t ht, hstored u hu]
    have hbelow : ∀ {t : Ty}, S t → t < n + 1 →
        (A.cx.descr t).EachSig (.addressed fun x => S x ∧ x < n) := fun ht htn =>
      (h.addressed _ ht).addressed_and (.naming_mono
        (fun x hx => Nat.lt_of_lt_of_le hx (Nat.le_of_lt_succ htn)) (A.cx.eachSig_descr _))
    refine cmpDescr_rename (fun x hx y hy => ih x y hx.1 hy.1 hx.2 hy.2) (hbelow ht htn)
      (hbelow hu hun) (h.cmpVars_eq_of_agree hagree ht hu)

/-- Where the types a type names compare alike, its clauses are listed alike. -/
theorem descr_stored {t : Ty} (ht : S t) (hverdict : ∀ x, S x ∧ x < t → ∀ y, S y ∧ y < t →
      cmpTy B.paths .storage B.cx (f x) (f y) = cmpTy A.paths .storage A.cx x y) :
    B.cx.descr (f t) = (A.cx.descr t).rename f g := by
  have hd := (h.addressed t ht).addressed_and (A.cx.eachSig_descr t)
  have ho := A.ordered t
  have ho' := B.ordered (f t)
  have hsame := h.descr t ht
  have hty : TransCmp (cmpTy B.paths .storage B.cx) := transCmp_cmpTy
  have hsep : Separates (cmpTy B.paths .storage B.cx) (· < B.cx.arena.length) :=
    separates_cmpTy B.canonical B.distinct trivial
  have hin : ∀ x, S x ∧ x < t → f x < B.cx.arena.length := fun x hx => (h.known x hx.1).2
  let C : Nat → Prop := fun _ => True
  have h1 := ho.tuples.eq_map ho'.tuples (transCmp_tupleSig hty) (separates_tupleSig (C := C) hsep)
    (cmpTupleSig_rename hverdict) (TupleSig.rename_inOrder hin) hd.tuples hsame.tuples
  have h2 := ho.lists.eq_map ho'.lists (transCmp_listSig hty) (separates_listSig (C := C) hsep)
    (cmpListSig_rename hverdict) (ListSig.rename_inOrder hin) hd.lists hsame.lists
  have h3 := ho.resources.eq_map ho'.resources (transCmp_resourceSig hty)
    (separates_resourceSig (C := C) hsep) (cmpResourceSig_rename hverdict) (fun s => hin s.payload)
    hd.resources hsame.resources
  have h4 := ho.funcs.eq_map ho'.funcs (transCmp_arrowSig hty)
    (separates_arrowSig (C := C) trivial hsep) (cmpArrowSig_rename hverdict)
    (ArrowSig.rename_inOrder hin) hd.funcs hsame.funcs
  have h5 := ho.maps.eq_map ho'.maps (transCmp_mapSig hty) (separates_mapSig (C := C) hsep)
    (cmpMapSig_rename hverdict) (MapSig.rename_inOrder hin) hd.maps hsame.maps
  generalize B.cx.descr (f t) = d at hsame h1 h2 h3 h4 h5
  cases d
  cases hsame.basic
  cases hsame.atoms
  cases hsame.opaques
  cases hsame.brands
  cases hsame.vars
  cases h1
  cases h2
  cases h3
  cases h4
  cases h5
  rfl

theorem mono {S' : Ty → Prop} (hsub : ∀ t, S' t → S t)
    (haddressed : ∀ t, S' t → (A.cx.descr t).EachSig (.addressed S')) : Flip A B S' f g :=
  ⟨haddressed, fun t ht => h.addresses t (hsub t ht), fun t ht => h.known t (hsub t ht),
    fun t ht => h.descr t (hsub t ht)⟩

theorem stored_of_agree (hagree : MintOrdersAgree A B S f g) :
    ∀ t, S t → B.cx.descr (f t) = (A.cx.descr t).rename f g := by
  intro t
  induction t using Nat.strong_induction_on with
  | h t ih =>
    intro ht
    have hbelow : Flip A B (fun x => S x ∧ x < t) f g := h.mono (fun x hx => hx.1) fun x hx =>
      (h.addressed x hx.1).addressed_and
        (.naming_mono (fun y hy => Nat.lt_trans hy hx.2) (A.cx.eachSig_descr x))
    refine h.descr_stored ht fun x hx y hy => ?_
    exact hbelow.verdict_of_stored (fun x y hx hy => hagree x y hx.1 hy.1)
      (fun x hx => ih x hx.2 hx.1) .storage t x y hx hy hx.2 hy.2

theorem sameHead {t u : Ty} (ht : S t) (hu : S u) (hhead : (A.cx.descr t).SameHead (A.cx.descr u)) :
    ((A.cx.descr t).rename f g).SameHead ((A.cx.descr u).rename f g) :=
  ⟨hhead.basic, hhead.atoms, hhead.opaques, hhead.brands, hhead.cofinite, by
    rw [h.card_rename ht, h.card_rename hu, hhead.card]⟩

theorem vars_eq {t u : Ty} (ht : S t) (hu : S u) (hhead : (A.cx.descr t).SameHead (A.cx.descr u))
    (heq : ((A.cx.descr t).rename f g).vars = ((A.cx.descr u).rename f g).vars) :
    (A.cx.descr t).vars = (A.cx.descr u).vars := by
  have himage := congrArg FiniteSet.values heq
  have hsub : (A.cx.descr t).vars.values ⊆ (A.cx.descr u).vars.values := by
    intro id hid
    have hmem := Finset.mem_image_of_mem g hid
    rw [show Finset.image g _ = _ from himage] at hmem
    obtain ⟨id', hid', heq⟩ := Finset.mem_image.mp hmem
    rwa [h.vars_of_rename ht hu hid hid' heq.symm]
  have hvalues := Finset.eq_of_subset_of_card_le hsub (Nat.le_of_eq hhead.card.symm)
  have hcofinite := hhead.cofinite
  generalize (A.cx.descr t).vars = a at hvalues hcofinite
  generalize (A.cx.descr u).vars = b at hvalues hcofinite
  cases a
  cases b
  cases hvalues
  cases hcofinite
  rfl

theorem agree_of_survives (hsurvives : OrderSurvives A B S f g) : MintOrdersAgree A B S f g := by
  intro t u ht hu hhead
  have hverdict := hsurvives.verdict .storage t u ht hu
  rw [cmpTy_eq, cmpTy_eq t u, hsurvives.stored t ht, hsurvives.stored u hu] at hverdict
  have hleft := h.cmpVars_left ht hu
  have hright := h.cmpVars_right ht hu
  rw [hhead.cofinite, hhead.card, compare_self, compare_self] at hleft hright
  have hvars : cmpVars B.paths ((A.cx.descr t).rename f g).vars ((A.cx.descr u).rename f g).vars
      = cmpVars A.paths (A.cx.descr t).vars (A.cx.descr u).vars := by
    by_cases hsame : (A.cx.descr t).vars = (A.cx.descr u).vars
    · rw [Descr.rename, Descr.rename, hsame, cmpVars_self, cmpVars_self]
    have hne : cmpVars A.paths (A.cx.descr t).vars (A.cx.descr u).vars ≠ .eq :=
      fun heq => hsame (eq_of_cmpVars A.distinct heq)
    have hne' : cmpVars B.paths ((A.cx.descr t).rename f g).vars ((A.cx.descr u).rename f g).vars
        ≠ .eq := fun heq => hsame (h.vars_eq ht hu hhead (eq_of_cmpVars B.distinct heq))
    have hhead' := h.sameHead ht hu hhead
    rwa [cmpDescr_of_sameHead hhead rfl hne, cmpDescr_of_sameHead hhead' rfl hne'] at hverdict
  exact hright.symm.trans (hvars.trans hleft)

end Flip

/-- The storage order survives another schedule exactly when mint order makes no difference to where
two nodes part. -/
theorem orderSurvives_iff {A B : Schedule} {S : Ty → Prop} {f : Ty → Ty} {g : Nat → Nat}
    (h : Flip A B S f g) : OrderSurvives A B S f g ↔ MintOrdersAgree A B S f g := by
  refine ⟨h.agree_of_survives, fun hagree => ?_⟩
  have hstored := h.stored_of_agree hagree
  exact ⟨fun purpose t u ht hu => h.verdict_of_stored hagree hstored purpose (max t u + 1) t u ht hu
    (Nat.lt_succ_of_le (Nat.le_max_left t u)) (Nat.lt_succ_of_le (Nat.le_max_right t u)), hstored⟩

section Sample

def addressed (ids : Finset Nat) : Descr := { Descr.unbranded with vars := ⟨ids, false⟩ }

/-- The lists of one type or of another one. -/
def listsOfEither (a b : Ty) : Descr :=
  { Descr.unbranded with lists := [.posOf ⟨false, some a⟩, .posOf ⟨false, some b⟩] }

/-- Two nodes with two addresses each, and the lists of either. -/
def nodes (a b c d : Nat) : List Descr :=
  [addressed {ADDRESS_TAG + a, ADDRESS_TAG + b}, addressed {ADDRESS_TAG + c, ADDRESS_TAG + d},
    listsOfEither 2 3]

/-- The four parameters minted in their order. -/
def firstToLast : List (List AddrStep) := [[.param 0], [.param 1], [.param 2], [.param 3]]

/-- The same parameters, but the last one was minted first. -/
def lastFirst : List (List AddrStep) := [[.param 3], [.param 0], [.param 1], [.param 2]]

/-- An arena with two nodes and the lists of either. -/
def nodesCx (x y : Finset Nat) (a b : Ty) (h : a < 4 ∧ b < 4) : TyCtx where
  arena := [.none, .any, addressed x, addressed y, listsOfEither a b]
  children_lt := by
    intro t d hd s hs
    match t, hd with
    | 0, hd | 1, hd | 2, hd | 3, hd =>
      obtain rfl := Option.some.inj hd
      simp [addressed, Descr.children, Descr.unbranded, Descr.none, Descr.any, Conj.top] at hs
    | 4, hd =>
      obtain rfl := Option.some.inj hd
      simp only [listsOfEither, Descr.children, Descr.unbranded, Descr.none, Conj.posOf] at hs
      rcases List.mem_pair.mp hs with rfl | rfl
      · exact h.1
      · exact h.2

theorem nodesCx_canonical {x y : Finset Nat} {a b : Ty} (h : a < 4 ∧ b < 4)
    (hdistinct : (nodesCx x y a b h).arena.Nodup) : (nodesCx x y a b h).Canonical where
  distinct := hdistinct
  inOrder t := by
    rcases t with _ | _ | _ | _ | _ | t
    · rintro _ ⟨⟩
    · simp [nodesCx, TyCtx.descr, Descr.any, Each, Conj.top]
    all_goals rintro _ ⟨⟩

def mintedFirstToLast : Schedule where
  cx := nodesCx {ADDRESS_TAG, ADDRESS_TAG + 3} {ADDRESS_TAG + 1, ADDRESS_TAG + 2} 2 3 (by decide)
  paths := firstToLast
  canonical := nodesCx_canonical _ (by decide)
  distinct := by decide
  ordered := TyCtx.ordered_of_sorted (by decide) (nodesCx_canonical _ (by decide))
    (by decide)

def mintedLastFirst : Schedule where
  cx := nodesCx {ADDRESS_TAG + 1, ADDRESS_TAG} {ADDRESS_TAG + 2, ADDRESS_TAG + 3} 3 2 (by decide)
  paths := lastFirst
  canonical := nodesCx_canonical _ (by decide)
  distinct := by decide
  ordered := TyCtx.ordered_of_sorted (by decide) (nodesCx_canonical _ (by decide))
    (by decide)

/-- The id of an address in the second run. -/
def minted (id : Nat) : Nat := if id = ADDRESS_TAG + 3 then ADDRESS_TAG else id + 1

theorem sameClauses_nil {T : Type} : SameClauses ([] : List (Conj T)) [] := ⟨[], .refl _, .nil⟩

theorem addressed_lists {x x' : Finset Nat} {f : Ty → Ty} {g : Nat → Nat} (h : x.image g = x') :
    ((addressed x).rename f g).Lists SameClauses (addressed x') :=
  ⟨rfl, rfl, rfl, rfl, congrArg (FiniteSet.mk · false) h, sameClauses_nil, sameClauses_nil,
    sameClauses_nil, sameClauses_nil, sameClauses_nil⟩

theorem listsOfEither_lists (a b : Ty) :
    ((listsOfEither a b).rename id minted).Lists SameClauses (listsOfEither b a) := by
  refine ⟨rfl, rfl, rfl, rfl, rfl, sameClauses_nil, ?_, sameClauses_nil, sameClauses_nil,
    sameClauses_nil⟩
  exact ⟨_, .swap _ _ _, List.forall₂_same.mpr fun _ _ => ⟨fun _ => Iff.rfl, fun _ => Iff.rfl⟩⟩

theorem mem_pair {x y id : Nat} (h : id ∈ ({x, y} : Finset Nat)) : id = x ∨ id = y := by
  rwa [Finset.mem_insert, Finset.mem_singleton] at h

theorem flip_minted : Flip mintedFirstToLast mintedLastFirst (· ∈ [2, 3, 4]) id minted where
  addressed := by
    simp only [List.forall_mem_cons]
    refine ⟨⟨nofun, nofun, nofun, nofun, nofun⟩, ⟨nofun, nofun, nofun, nofun, nofun⟩,
      ⟨nofun, fun c hc => ?_, nofun, nofun, nofun⟩, nofun⟩
    rcases List.mem_pair.mp hc with rfl | rfl
    · simp [Conj.posOf, SigPred.addressed, SigPred.naming]
    · simp [Conj.posOf, SigPred.addressed, SigPred.naming]
  addresses := by
    simp only [List.forall_mem_cons]
    refine ⟨fun id hid => ?_, fun id hid => ?_, nofun, nofun⟩
    · rcases mem_pair hid with rfl | rfl
      · exact ⟨[.param 0], by decide⟩
      · exact ⟨[.param 3], by decide⟩
    · rcases mem_pair hid with rfl | rfl
      · exact ⟨[.param 1], by decide⟩
      · exact ⟨[.param 2], by decide⟩
  known := by decide
  descr := by
    simp only [List.forall_mem_cons]
    exact ⟨addressed_lists (by decide), addressed_lists (by decide +kernel),
      listsOfEither_lists 2 3, nofun⟩

theorem flipped_verdicts : cmpTy mintedFirstToLast.paths .storage mintedFirstToLast.cx 2 3 = .lt ∧
      cmpTy mintedLastFirst.paths .storage mintedLastFirst.cx 2 3 = .gt := by
  decide

/-- Two nodes carry the parameters 0 and 3, and 1 and 2.  Minted in their order, the first node is
the lesser one; with parameter 3 minted first it is the greater one, and the lists of either are
stored the other way round. -/
theorem order_flips :
    (coreTypes.internAll (storageOrder firstToLast) 8 (nodes 0 3 1 2)).toOption.map
        (fun types => types.cx.arena) = some mintedFirstToLast.cx.arena ∧
      (coreTypes.internAll (storageOrder lastFirst) 8 (nodes 1 0 2 3)).toOption.map
        (fun types => types.cx.arena) = some mintedLastFirst.cx.arena ∧
      Flip mintedFirstToLast mintedLastFirst (· ∈ [2, 3, 4]) id minted ∧
      ¬OrderSurvives mintedFirstToLast mintedLastFirst (· ∈ [2, 3, 4]) id minted := by
  refine ⟨by decide, by decide +kernel, flip_minted, fun h => ?_⟩
  have hverdict := h.verdict .storage 2 3 (by decide) (by decide)
  obtain ⟨hlt, hgt⟩ := flipped_verdicts
  exact nomatch hgt.symm.trans (hverdict.trans hlt)

theorem mintOrders_disagree :
    ¬MintOrdersAgree mintedFirstToLast mintedLastFirst (· ∈ [2, 3, 4]) id minted := by
  intro hagree
  have hverdict := ((orderSurvives_iff flip_minted).mpr hagree).verdict .storage 2 3 (by decide)
    (by decide)
  obtain ⟨hlt, hgt⟩ := flipped_verdicts
  exact nomatch hgt.symm.trans (hverdict.trans hlt)

end Sample

end Fz.Types
