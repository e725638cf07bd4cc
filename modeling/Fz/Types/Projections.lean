import Fz.Base.List
import Fz.Types.SubtypeOrder
import Fz.Types.ValueDisjoint

/-!
# Projections

What a type says about the parts of its values: the components of its tuples of one arity
(`tupleProjections`), one component of its tuples (`tupleFieldType`), the elements of its lists
(`listElementType`) and the values of its maps under a key (`mapFieldLookup`).  Each goes through
the clauses of one axis, meets the positive factors of a clause and joins what the clauses say.
Negative factors are not read.

A join holds what each of its operands holds, so a clause only has to be joined.  A clause without
positive factors says nothing about the parts.  Three of the projections then answer the top.
`tupleProjections` passes over such a clause, and answers the top only when no clause has a positive
factor of the arity; the components of the tuples the clause holds are then lost
(`tupleProjections_narrows`).
-/

namespace Fz.Types

open Fz.Base

namespace Descr

/-! ## The four projections -/

/-- The atom `nil` alone. -/
def nil : Descr := { unbranded with atoms := .lit "nil" }

/-- What a clause says, with one more factor. -/
def meetWith (said : Option Descr) (d : Descr) : Option Descr :=
  some (match said with
    | Option.none => d
    | some prev => prev.intersect d)

/-- What a clause says at each position, with one more factor. -/
def meetEach (said : Option (List Descr)) (ds : List Descr) : Option (List Descr) :=
  some (match said with
    | Option.none => ds
    | some prev => List.zipWith intersect prev ds)

variable (cx : TyCtx) (d : Descr)

/-- The elements of the lists of a type.  A factor without an element is the empty list alone, and
its clause has nothing to project. -/
def listElementType : Descr :=
  if d.lists.isEmpty then any
  else
    d.lists.foldl (fun elem c =>
      if c.pos.any fun sig => sig.elem.isNone then elem
      else
        let clauseElem := (c.pos.filterMap ListSig.elem).foldl
          (fun said t => meetWith said (cx.descr t)) Option.none
        elem.union (clauseElem.getD any)) none

/-- The components the positive factors of an arity give a clause. -/
def clauseComps (arity : Nat) (c : Conj TupleSig) : Option (List Descr) :=
  c.pos.foldl (fun said sig =>
    if sig.elems.length ≠ arity then said else meetEach said (sig.elems.map cx.descr)) Option.none

/-- One more clause joined in, if it has a positive factor of the arity. -/
def joinComps (arity : Nat) (st : List Descr × Bool) (c : Conj TupleSig) : List Descr × Bool :=
  match clauseComps cx arity c with
  | some cs => (List.zipWith union st.1 cs, true)
  | Option.none => st

/-- The components of the tuples of an arity. -/
def tupleProjections (arity : Nat) : List Descr :=
  let (comps, found) := d.tuples.foldl (joinComps cx arity) (List.replicate arity none, false)
  if found then comps else List.replicate arity any

/-- The fields of a clause, unless its factors end before the index or disagree on the arity. -/
def clauseFields (index : Nat) : Option (List Descr) → List TupleSig → Option (List Descr)
  | fields, [] => fields
  | fields, sig :: sigs =>
    if sig.elems.length ≤ index || fields.any fun prev => prev.length ≠ sig.elems.length then
      Option.none
    else clauseFields index (meetEach fields (sig.elems.map cx.descr)) sigs

/-- The loop of `tupleFieldType` over the clauses. -/
def tupleFieldTypeFrom (index : Nat) (out : Descr) (found : Bool) : List (Conj TupleSig) → Descr
  | [] => if found then out else none
  | c :: cs =>
    if c.pos.isEmpty then any
    else
      match clauseFields cx index Option.none c.pos with
      | Option.none => tupleFieldTypeFrom index out found cs
      | some fields =>
        if fields.any fun field => field.isEmpty cx then tupleFieldTypeFrom index out found cs
        else tupleFieldTypeFrom index (out.union (fields.getD index none)) true cs

/-- One component of the tuples that have it. -/
def tupleFieldType (index : Nat) : Descr := tupleFieldTypeFrom cx index none false d.tuples

/-- The values of the maps under a key.  A map need not have a key that its factor does not list. -/
def mapFieldLookup (key : MapKey) : Option Descr :=
  if d.maps.isEmpty then Option.none
  else
    let (found, acc) := d.maps.foldl (fun (found, acc) c =>
      if c.pos.isEmpty then (true, (acc.union any).union nil)
      else
        match c.pos.foldl (fun said sig => meetWith said
            (match sig.fields.lookup key with
            | some t => cx.descr t
            | Option.none => any.union nil)) Option.none with
        | some v => (true, acc.union v)
        | Option.none => (found, acc)) (false, none)
    if found then some acc else Option.none

/-! ## What a clause says -/

section Clauses

variable {cx} {d} {calls : Calls} {v : Val} {a b : Descr}

theorem mem_meaning_union (h : v ∈ a.meaning cx calls ∨ v ∈ b.meaning cx calls) :
    v ∈ (a.union b).meaning cx calls := by
  rw [mem_meaning, mem_meaning] at h
  rw [mem_meaning]
  exact mem_union_of_mem h

theorem mem_meetWith {said : Option Descr} (hsaid : ∀ e ∈ said, v ∈ e.meaning cx calls)
    (ha : v ∈ a.meaning cx calls) : ∀ e ∈ meetWith said a, v ∈ e.meaning cx calls := by
  intro e he
  cases said with
  | none =>
    cases he
    exact ha
  | some prev =>
    cases he
    exact meaning_intersect.mpr ⟨hsaid prev rfl, ha⟩

theorem mem_foldl_meetWith {A : Type} {f : A → Descr} {as : List A}
    (has : ∀ x ∈ as, v ∈ (f x).meaning cx calls) {said : Option Descr}
    (hsaid : ∀ e ∈ said, v ∈ e.meaning cx calls) :
    ∀ e ∈ as.foldl (fun said x => meetWith said (f x)) said, v ∈ e.meaning cx calls := by
  induction as generalizing said with
  | nil => exact hsaid
  | cons x as ih =>
    obtain ⟨hx, has⟩ := List.forall_mem_cons.mp has
    exact ih has (mem_meetWith hsaid hx)

theorem isSome_foldl_meetWith {A : Type} {f : A → Descr} {as : List A} (hne : as ≠ [])
    (said : Option Descr) : ∃ e, as.foldl (fun said x => meetWith said (f x)) said = some e := by
  induction as generalizing said with
  | nil => exact absurd rfl hne
  | cons x as ih =>
    cases as with
    | nil => exact ⟨_, rfl⟩
    | cons y as => exact ih (List.cons_ne_nil _ _) _

theorem mem_meetEach {vs : List Val} {said : Option (List Descr)} {ts : List Ty}
    (hsaid : ∀ fs ∈ said, vs ∈ listProd (fs.map (meaning cx calls)))
    (hts : vs ∈ listProd (ts.map (cx.meaning calls))) :
    ∀ fs ∈ meetEach said (ts.map cx.descr), vs ∈ listProd (fs.map (meaning cx calls)) := by
  intro fs hfs
  have hts' : vs ∈ listProd ((ts.map cx.descr).map (meaning cx calls)) := by
    rw [List.map_map]
    exact hts
  cases said with
  | none =>
    cases hfs
    exact hts'
  | some prev =>
    cases hfs
    have hprev := hsaid prev rfl
    have hlen : (prev.map (meaning cx calls)).length
        = ((ts.map cx.descr).map (meaning cx calls)).length :=
      (length_of_mem_listProd hprev).symm.trans (length_of_mem_listProd hts')
    have hmeet : (List.zipWith intersect prev (ts.map cx.descr)).map (meaning cx calls)
        = List.zipWith (· ∩ ·) (prev.map (meaning cx calls))
            ((ts.map cx.descr).map (meaning cx calls)) := by
      rw [List.map_zipWith, List.zipWith_map]
      congr 1
      funext x y
      exact Set.ext fun w => meaning_intersect
    rw [hmeet, listProd_zipWith_inter hlen]
    exact ⟨hprev, hts'⟩

/-! ## Lists, maps and single fields -/

theorem mem_listElementType {brand : Option String} {vs : List Val}
    (h : .mk brand (.list vs) ∈ d.meaning cx calls) (hv : v ∈ vs) :
    v ∈ (d.listElementType cx).meaning cx calls := by
  obtain ⟨-, c, hc, hpos, -⟩ := mem_meaning.mp h
  obtain ⟨w, ws, rfl⟩ := List.exists_cons_of_ne_nil (List.ne_nil_of_mem hv)
  have hnone : ¬(c.pos.any fun sig => sig.elem.isNone) = true := by
    rw [List.any_eq_true]
    rintro ⟨sig, hsig, hn⟩
    obtain ⟨t, ht, -⟩ := hpos sig hsig
    rw [ht] at hn
    exact nomatch hn
  unfold listElementType
  split
  · exact mem_meaning_any v
  · refine foldl_of_step (P := fun elem => v ∈ elem.meaning cx calls) (fun elem c' helem => ?_) hc
      (fun elem => ?_) none
    · split
      · exact helem
      · exact mem_meaning_union (.inl helem)
    · rw [if_neg hnone]
      refine mem_meaning_union (.inr ?_)
      cases hfold : (c.pos.filterMap ListSig.elem).foldl
          (fun said t => meetWith said (cx.descr t)) Option.none with
      | none => exact mem_meaning_any v
      | some e =>
        refine mem_foldl_meetWith (fun t ht => ?_)
          (fun _ he => absurd he (Option.not_mem_none _)) e hfold
        obtain ⟨sig, hsig, hst⟩ := List.mem_filterMap.mp ht
        obtain ⟨t', ht', hall⟩ := hpos sig hsig
        obtain rfl := Option.some.inj (ht'.symm.trans hst)
        exact hall v hv

theorem mem_mapFieldLookup {brand : Option String} {tag : MapTag} {fields : MapKey → Option Val}
    {key : MapKey} (h : .mk brand (.map tag fields) ∈ d.meaning cx calls)
    (hv : fields key = some v) :
    ∃ e, d.mapFieldLookup cx key = some e ∧ v ∈ e.meaning cx calls := by
  obtain ⟨-, c, hc, hpos, -⟩ := mem_meaning.mp h
  unfold mapFieldLookup
  rw [if_neg (by simpa using List.ne_nil_of_mem hc)]
  dsimp only
  generalize hfold : List.foldl _ ((false, none) : Bool × Descr) d.maps = st
  have hst : st.1 = true ∧ v ∈ st.2.meaning cx calls := by
    rw [← hfold]
    refine foldl_of_step (P := fun (st : Bool × Descr) => st.1 = true ∧ v ∈ st.2.meaning cx calls)
      (fun st c' hst => ?_) hc (fun st => ?_) _
    · obtain ⟨found, acc⟩ := st
      dsimp only
      split
      · exact ⟨rfl, mem_meaning_union (.inl (mem_meaning_union (.inl hst.2)))⟩
      · split
        · exact ⟨rfl, mem_meaning_union (.inl hst.2)⟩
        · exact hst
    · obtain ⟨found, acc⟩ := st
      dsimp only
      split
      · exact ⟨rfl, mem_meaning_union (.inl (mem_meaning_union (.inr (mem_meaning_any v))))⟩
      · rename_i hne
        rw [List.isEmpty_iff] at hne
        split
        · rename_i e he
          refine ⟨rfl, mem_meaning_union (.inr (mem_foldl_meetWith (fun sig hsig => ?_)
            (fun _ he => absurd he (Option.not_mem_none _)) e he))⟩
          split
          · rename_i t ht
            obtain ⟨before, after, hfields, -⟩ := List.lookup_eq_some_iff.mp ht
            obtain ⟨w, hw, hmem⟩ := (hpos sig hsig).2 (key, t) (by simp [hfields])
            obtain rfl := Option.some.inj (hw.symm.trans hv)
            exact hmem
          · exact mem_meaning_union (.inl (mem_meaning_any v))
        · rename_i hnone
          obtain ⟨e, he⟩ := isSome_foldl_meetWith hne Option.none
          rw [hnone] at he
          cases he
  rw [hst.1]
  exact ⟨_, rfl, hst.2⟩

theorem exists_clauseFields {vs : List Val} {index : Nat} (hindex : index < vs.length)
    {sigs : List TupleSig} (hsigs : ∀ sig ∈ sigs, TupleSig.Holds (cx.meaning calls) vs sig) :
    ∀ {said : Option (List Descr)}, (∀ fs ∈ said, vs ∈ listProd (fs.map (meaning cx calls))) →
      (said = Option.none → sigs ≠ []) → ∃ fs, clauseFields cx index said sigs = some fs ∧
        vs ∈ listProd (fs.map (meaning cx calls)) := by
  induction sigs with
  | nil =>
    intro said hsaid hne
    cases said with
    | none => exact absurd rfl (hne rfl)
    | some fs => exact ⟨fs, rfl, hsaid fs rfl⟩
  | cons sig sigs ih =>
    intro said hsaid _
    obtain ⟨hsig, hsigs⟩ := List.forall_mem_cons.mp hsigs
    have hlen : vs.length = sig.elems.length :=
      (length_of_mem_listProd hsig).trans (List.length_map _)
    have hgo : ¬(sig.elems.length ≤ index || said.any fun prev => prev.length ≠ sig.elems.length)
        = true := by
      rw [Bool.or_eq_true, decide_eq_true_eq, not_or, Nat.not_le, ← hlen]
      refine ⟨hindex, ?_⟩
      cases said with
      | none => exact Bool.false_ne_true
      | some prev =>
        have hprev := (length_of_mem_listProd (hsaid prev rfl)).trans (List.length_map _)
        simp [hprev]
    rw [clauseFields, if_neg hgo]
    exact ih hsigs (mem_meetEach hsaid hsig) (fun h => nomatch h)

theorem honest_clauseFields {index : Nat} (W : World cx) :
    ∀ {sigs : List TupleSig} {said : Option (List Descr)} {fs : List Descr},
      (∀ prev ∈ said, ∀ e ∈ prev, e.HonestIn cx W.calls) →
      clauseFields cx index said sigs = some fs → ∀ e ∈ fs, e.HonestIn cx W.calls := by
  intro sigs
  induction sigs with
  | nil => exact fun hsaid h => hsaid _ h
  | cons sig sigs ih =>
    intro said fs hsaid h
    rw [clauseFields] at h
    split at h
    · exact nomatch h
    refine ih (fun prev hprev e he => ?_) h
    have helem : ∀ {e}, e ∈ sig.elems.map cx.descr → e.HonestIn cx W.calls := by
      intro e he
      obtain ⟨t, -, rfl⟩ := List.mem_map.mp he
      exact W.honestIn t
    cases said with
    | none =>
      cases hprev
      exact helem he
    | some before =>
      cases hprev
      dsimp only at he
      rw [← List.map_uncurry_zip_eq_zipWith, List.mem_map] at he
      obtain ⟨⟨x, y⟩, hxy, rfl⟩ := he
      obtain ⟨hx, hy⟩ := List.of_mem_zip hxy
      exact ⟨(hsaid before rfl x hx).self.intersect (helem hy).self, W.honest⟩

theorem mem_tupleFieldTypeFrom (W : World cx) {vs : List Val} {index : Nat}
    (hv : vs[index]? = some v) : ∀ {clauses : List (Conj TupleSig)} {out : Descr} {found : Bool},
      (found = true ∧ v ∈ out.meaning cx W.calls) ∨
        DnfHolds (TupleSig.Holds (cx.meaning W.calls) vs) clauses →
      v ∈ (tupleFieldTypeFrom cx index out found clauses).meaning cx W.calls := by
  have hindex : index < vs.length := (List.getElem?_eq_some_iff.mp hv).1
  intro clauses
  induction clauses with
  | nil =>
    rintro out found (⟨hfound, hout⟩ | ⟨_, hc, -⟩)
    · rw [tupleFieldTypeFrom, if_pos hfound]
      exact hout
    · exact nomatch hc
  | cons c clauses ih =>
    intro out found h
    rw [tupleFieldTypeFrom]
    split
    · exact mem_meaning_any v
    rename_i hne
    rw [List.isEmpty_iff] at hne
    rcases h with ⟨hfound, hout⟩ | ⟨c', hc', hholds⟩
    · split
      · exact ih (.inl ⟨hfound, hout⟩)
      · split
        · exact ih (.inl ⟨hfound, hout⟩)
        · exact ih (.inl ⟨rfl, mem_meaning_union (.inl hout)⟩)
    · rcases List.mem_cons.mp hc' with rfl | hc'
      · obtain ⟨fs, hfs, hvs⟩ := exists_clauseFields hindex hholds.1
          (fun _ he => absurd he (Option.not_mem_none _)) (fun _ => hne)
        have hfull : ¬(fs.any fun field => field.isEmpty cx) = true := by
          rw [List.any_eq_true]
          rintro ⟨field, hfield, hempty⟩
          have hnonempty := listProd_nonempty_iff.mp ⟨vs, hvs⟩ _ (List.mem_map_of_mem hfield)
          obtain ⟨w, hw⟩ := hnonempty
          exact isEmpty_sound (honest_clauseFields W
            (fun _ he => absurd he (Option.not_mem_none _)) hfs field hfield) hempty w hw
        rw [hfs]
        dsimp only
        rw [if_neg hfull]
        refine ih (.inl ⟨rfl, mem_meaning_union (.inr ?_)⟩)
        have hlen : index < fs.length := by
          rw [← List.length_map (meaning cx W.calls), ← length_of_mem_listProd hvs]
          exact hindex
        rw [List.getD_eq_getElem _ _ hlen]
        refine (mem_listProd_iff.mp hvs).2 index v _ hv ?_
        rw [List.getElem?_map, List.getElem?_eq_getElem hlen, Option.map_some]
      · split
        · exact ih (.inr ⟨c', hc', hholds⟩)
        · split <;> exact ih (.inr ⟨c', hc', hholds⟩)

theorem mem_tupleFieldType (W : World cx) {brand : Option String} {vs : List Val} {index : Nat}
    (h : .mk brand (.tuple vs) ∈ d.meaning cx W.calls) (hv : vs[index]? = some v) :
    v ∈ (d.tupleFieldType cx index).meaning cx W.calls :=
  mem_tupleFieldTypeFrom W hv (.inr (mem_meaning.mp h).2)

end Clauses

/-! ## Components -/

/-- What a clause says at one position of the tuples of an arity. -/
def coordinate (arity index : Nat) (c : Conj TupleSig) : Option Descr :=
  (c.pos.filter fun sig => sig.elems.length = arity).foldl
    (fun said sig => meetWith said (cx.descr (sig.elems.getD index 0))) Option.none

/-- What the clauses with a positive factor of an arity say at one position of its tuples. -/
def coordinates (arity index : Nat) : List Descr := d.tuples.filterMap (coordinate cx arity index)

/-- Bottoms aside, one of the descriptors admits the brand of the value, and one its structure. -/
def Hull (calls : Calls) (es : List Descr) (v : Val) : Prop :=
  (∃ e ∈ es, e.looksEmpty = false ∧ admits e.brands v.brand = true) ∧
    ∃ e ∈ es, e.looksEmpty = false ∧ v.shape.In calls (cx.meaning calls) e

section Components

variable {cx} {d} {calls : Calls} {v : Val} {a b : Descr}

theorem looksEmpty_union (ha : a.looksEmpty = false) (hb : b.looksEmpty = false) :
    (a.union b).looksEmpty = false := by
  obtain ⟨brand, hbrand⟩ : ∃ brand, admits a.brands brand = true := by
    rw [looksEmpty, Bool.or_eq_false_iff] at ha
    exact exists_admits ha.1
  have hslot : ¬(a.union b).brands.isNone = true := by
    intro hnone
    have hout := admits_of_isNone hnone brand
    rw [brands_union (by simp [ha]) (by simp [hb]), admits_union, hbrand] at hout
    cases hout
  have hstructure : (a.union b).structureLooksEmpty = true → a.structureLooksEmpty = true := by
    rw [union, if_neg (by simp [ha]), if_neg (by simp [hb])]
    have haxis : ∀ {T : Type} [DecidableEq T] {x y : List (Conj T)},
        dnfUnion x y = [] → x = [] := by
      intro T _ x y h
      refine List.eq_nil_iff_forall_not_mem.mpr fun c hc => ?_
      have hmem := mem_dnfUnion (b := y).mpr (.inl hc)
      rw [h] at hmem
      exact List.not_mem_nil hmem
    simp only [structureLooksEmpty, BasicBits.isEmpty, BasicBits.union, Bool.and_eq_true,
      List.isEmpty_iff, Bool.not_eq_true', Bool.or_eq_false_iff]
    rintro ⟨⟨⟨⟨⟨⟨⟨⟨⟨⟨⟨hbin, -⟩, hint, -⟩, hfloat, -⟩, hatoms⟩, hopaques⟩, hvars⟩, htuples⟩, hlists⟩,
      hres⟩, hfuncs⟩, hmaps⟩
    exact ⟨⟨⟨⟨⟨⟨⟨⟨⟨⟨hbin, hint⟩, hfloat⟩, FiniteSet.isNone_of_union hatoms⟩,
      FiniteSet.isNone_of_union hopaques⟩, FiniteSet.isNone_of_union hvars⟩, haxis htuples⟩,
      haxis hlists⟩, haxis hres⟩, haxis hfuncs⟩, haxis hmaps⟩
  rw [looksEmpty, Bool.or_eq_false_iff] at ha ⊢
  rw [← Bool.not_eq_true, ← Bool.not_eq_true]
  exact ⟨hslot, fun h => by simp [hstructure h] at ha⟩

theorem union_of_looksEmpty_left (ha : a.looksEmpty = true) :
    a.union b = if b.looksEmpty = true then none else b := by rw [union, if_pos ha]

theorem union_of_looksEmpty_right (ha : a.looksEmpty = false) (hb : b.looksEmpty = true) :
    a.union b = a := by rw [union, if_neg (by simp [ha]), if_pos hb]

theorem exists_union_iff {P : Descr → Prop}
    (hP : ∀ a b : Descr, a.looksEmpty = false → b.looksEmpty = false →
      (P (a.union b) ↔ P a ∨ P b)) (a b : Descr) (es : List Descr) :
    (∃ e ∈ a.union b :: es, e.looksEmpty = false ∧ P e) ↔
      ∃ e ∈ a :: b :: es, e.looksEmpty = false ∧ P e := by
  simp only [List.mem_cons, exists_eq_or_imp]
  rw [← or_assoc]
  refine or_congr_left ?_
  cases ha : a.looksEmpty with
  | true =>
    rw [union_of_looksEmpty_left ha]
    cases hb : b.looksEmpty with
    | true => simp [show none.looksEmpty = true from rfl]
    | false => simp [hb]
  | false =>
    cases hb : b.looksEmpty with
    | true => simp [union_of_looksEmpty_right ha hb, ha]
    | false => simp [looksEmpty_union ha hb, hP a b ha hb]

theorem mem_foldl_union (es : List Descr) : ∀ e : Descr,
    v ∈ (es.foldl union e).meaning cx calls ↔ Hull cx calls (e :: es) v := by
  induction es with
  | nil =>
    intro e
    rw [List.foldl_nil, mem_meaning]
    simp only [Hull, List.mem_singleton, exists_eq_left]
    constructor
    · intro h
      have he : e.looksEmpty = false := by
        rw [← Bool.not_eq_true]
        exact fun he => not_mem_of_looksEmpty he v h
      exact ⟨⟨he, h.1⟩, he, h.2⟩
    · exact fun h => ⟨h.1.2, h.2.2⟩
  | cons x es ih =>
    intro e
    rw [List.foldl_cons, ih, Hull, Hull]
    refine and_congr ?_ ?_
    · refine exists_union_iff (P := fun e => admits e.brands v.brand = true) ?_ e x es
      intro a b ha hb
      rw [brands_union (by simp [ha]) (by simp [hb]), admits_union, Bool.or_eq_true]
    · exact exists_union_iff (fun a b ha hb => in_union _ (by simp [ha]) (by simp [hb])) e x es

/-- The components of a clause, at one position. -/
theorem clauseComps_at {arity index : Nat} (hindex : index < arity) (c : Conj TupleSig) :
    (∀ comps ∈ clauseComps cx arity c, comps.length = arity) ∧
      (clauseComps cx arity c).map (·.getD index none) = coordinate cx arity index c := by
  unfold clauseComps coordinate
  have hstart : (∀ comps ∈ (Option.none : Option (List Descr)), comps.length = arity) ∧
      Option.none.map (fun comps : List Descr => comps.getD index none) = Option.none :=
    ⟨fun _ h => absurd h (Option.not_mem_none _), rfl⟩
  revert hstart
  generalize (Option.none : Option (List Descr)) = said
  generalize (Option.none : Option Descr) = saidAt
  induction c.pos generalizing said saidAt with
  | nil => exact id
  | cons sig sigs ih =>
    rintro ⟨hlen, hat⟩
    rw [List.foldl_cons, List.filter_cons]
    by_cases hsig : sig.elems.length = arity
    · rw [if_neg (not_not.mpr hsig), if_pos (decide_eq_true hsig), List.foldl_cons]
      refine ih _ _ ⟨?_, ?_⟩
      · intro comps hcomps
        cases said with
        | none =>
          cases hcomps
          rw [List.length_map, hsig]
        | some prev =>
          cases hcomps
          rw [List.length_zipWith, List.length_map, hlen prev rfl, hsig, Nat.min_self]
      · have hat' : ∀ ts : List Ty, (ts.map cx.descr).length = arity →
            (ts.map cx.descr).getD index none = cx.descr (ts.getD index 0) := by
          intro ts hts
          rw [List.length_map] at hts
          rw [List.getD_eq_getElem _ _ (by simpa [hts] using hindex), List.getElem_map,
            List.getD_eq_getElem]
        have hsig' : (sig.elems.map cx.descr).length = arity := by rw [List.length_map, hsig]
        cases said with
        | none =>
          cases hat
          exact congrArg some (hat' _ hsig')
        | some prev =>
          cases hat
          have hprev : index < prev.length := hlen prev rfl ▸ hindex
          rw [meetEach, Option.map_some, Option.map_some, meetWith, ← hat' _ hsig']
          have hboth : index < (List.zipWith intersect prev (sig.elems.map cx.descr)).length := by
            rw [List.length_zipWith, hsig', hlen prev rfl, Nat.min_self]
            exact hindex
          rw [List.getD_eq_getElem _ _ hboth, List.getElem_zipWith, List.getD_eq_getElem _ _ hprev,
            List.getD_eq_getElem _ _ (hsig'.symm ▸ hindex)]
    · rw [if_pos hsig, if_neg (by simpa using hsig)]
      exact ih _ _ ⟨hlen, hat⟩

/-- The loop over the clauses, at one position. -/
theorem foldl_joinComps {arity index : Nat} (hindex : index < arity)
    (clauses : List (Conj TupleSig)) (st : List Descr × Bool) (hst : st.1.length = arity) :
    (clauses.foldl (joinComps cx arity) st).1[index]?
        = some ((clauses.filterMap (coordinate cx arity index)).foldl union
            (st.1.getD index none)) ∧ (clauses.foldl (joinComps cx arity) st).2
        = (st.2 || !(clauses.filterMap (coordinate cx arity index)).isEmpty) := by
  induction clauses generalizing st with
  | nil =>
    have hlt : index < st.1.length := hst ▸ hindex
    rw [List.foldl_nil, List.filterMap_nil, List.foldl_nil, List.isEmpty_nil, Bool.not_true,
      Bool.or_false, List.getD_eq_getElem _ _ hlt, List.getElem?_eq_getElem hlt]
    exact ⟨rfl, rfl⟩
  | cons c clauses ih =>
    obtain ⟨hlen, hat⟩ := clauseComps_at hindex c
    rw [List.foldl_cons, List.filterMap_cons, joinComps]
    cases hcomps : clauseComps cx arity c with
    | none =>
      rw [hcomps] at hat
      rw [← hat]
      exact ih st hst
    | some comps =>
      have hcomps' : comps.length = arity := hlen comps hcomps
      rw [hcomps] at hat
      rw [← hat]
      have hlen' : (List.zipWith union st.1 comps).length = arity := by
        rw [List.length_zipWith, hst, hcomps', Nat.min_self]
      have hjoin : (List.zipWith union st.1 comps).getD index none
          = (st.1.getD index none).union (comps.getD index none) := by
        rw [List.getD_eq_getElem _ _ (hlen'.symm ▸ hindex), List.getElem_zipWith,
          List.getD_eq_getElem _ _ (hst.symm ▸ hindex),
          List.getD_eq_getElem _ _ (hcomps'.symm ▸ hindex)]
      obtain ⟨hcomp, hfound⟩ := ih (List.zipWith union st.1 comps, true) hlen'
      refine ⟨?_, ?_⟩
      · rw [hcomp, hjoin]
        rfl
      · rw [hfound]
        simp

theorem mem_tupleProjections {arity index : Nat} (hindex : index < arity) :
    ∃ e, (d.tupleProjections cx arity)[index]? = some e ∧ (v ∈ e.meaning cx calls ↔
        (d.coordinates cx arity index ≠ [] → Hull cx calls (d.coordinates cx arity index) v)) := by
  obtain ⟨hcomp, hfound⟩ := foldl_joinComps hindex d.tuples
    (List.replicate arity none, false) List.length_replicate
  rw [tupleProjections]
  dsimp only
  rw [hfound, Bool.false_or]
  by_cases hnil : d.coordinates cx arity index = []
  · rw [← coordinates, hnil, List.isEmpty_nil, Bool.not_true, if_neg Bool.false_ne_true]
    refine ⟨any, by rw [List.getElem?_replicate, if_pos hindex], ?_⟩
    exact iff_of_true (mem_meaning_any v) fun h => absurd rfl h
  · rw [← coordinates, if_pos (by simpa using hnil)]
    refine ⟨_, hcomp, ?_⟩
    have hnone : (List.replicate arity none).getD index none = none := by
      rw [List.getD_eq_getElem _ _ (by rwa [List.length_replicate]), List.getElem_replicate]
    rw [hnone, mem_foldl_union, ← coordinates]
    have hdrop : Hull cx calls (none :: d.coordinates cx arity index) v ↔
        Hull cx calls (d.coordinates cx arity index) v := by
      have hbottom : none.looksEmpty = true := rfl
      simp only [Hull, List.mem_cons, exists_eq_or_imp, hbottom, Bool.true_eq_false, false_and,
        false_or]
    rw [hdrop]
    exact ⟨fun h _ => h, fun h => h hnil⟩

theorem hull_of_pos {vs : List Val} {index : Nat} (hv : vs[index]? = some v) {c : Conj TupleSig}
    (hc : c ∈ d.tuples) (hpos : c.pos ≠ [])
    (hholds : ∀ sig ∈ c.pos, TupleSig.Holds (cx.meaning calls) vs sig) :
    Hull cx calls (d.coordinates cx vs.length index) v := by
  have hlen : ∀ sig ∈ c.pos, sig.elems.length = vs.length := fun sig hsig =>
    ((length_of_mem_listProd (hholds sig hsig)).trans (List.length_map _)).symm
  have hall : (c.pos.filter fun sig => sig.elems.length = vs.length) = c.pos :=
    List.filter_eq_self.mpr fun sig hsig => decide_eq_true (hlen sig hsig)
  obtain ⟨e, he⟩ := isSome_foldl_meetWith (f := fun sig => cx.descr (sig.elems.getD index 0)) hpos
    Option.none
  have hsays : coordinate cx vs.length index c = some e := by rw [coordinate, hall, he]
  have hmem : v ∈ e.meaning cx calls := by
    refine mem_foldl_meetWith (fun sig hsig => ?_)
      (fun _ h => absurd h (Option.not_mem_none _)) e he
    have hindex : index < sig.elems.length := hlen sig hsig ▸ (List.getElem?_eq_some_iff.mp hv).1
    refine (mem_listProd_iff.mp (hholds sig hsig)).2 index v _ hv ?_
    rw [List.getElem?_map, List.getElem?_eq_getElem hindex, Option.map_some,
      List.getD_eq_getElem _ _ hindex]
    rfl
  have hin : e ∈ d.coordinates cx vs.length index := List.mem_filterMap.mpr ⟨c, hc, hsays⟩
  have hfull : e.looksEmpty = false := by
    rw [← Bool.not_eq_true]
    exact fun h => not_mem_of_looksEmpty h v (mem_meaning.mp hmem)
  obtain ⟨hslot, hshape⟩ := mem_meaning.mp hmem
  exact ⟨⟨e, hin, hfull, hslot⟩, e, hin, hfull, hshape⟩

end Components

/-! ## What the projections cover -/

/-- The parts of the values of a type belong to its projections. -/
structure ProjectionsCover (calls : Calls) : Prop where
  projections : ∀ (brand : Option String) (vs : List Val),
    .mk brand (.tuple vs) ∈ d.meaning cx calls → ∀ (index : Nat) (v : Val), vs[index]? = some v →
      ∃ e : Descr, (d.tupleProjections cx vs.length)[index]? = some e ∧ v ∈ e.meaning cx calls
  field : ∀ (brand : Option String) (vs : List Val),
    .mk brand (.tuple vs) ∈ d.meaning cx calls → ∀ (index : Nat) (v : Val), vs[index]? = some v →
      v ∈ (d.tupleFieldType cx index).meaning cx calls
  element : ∀ (brand : Option String) (vs : List Val),
    .mk brand (.list vs) ∈ d.meaning cx calls → ∀ v ∈ vs,
      v ∈ (d.listElementType cx).meaning cx calls
  lookup : ∀ (brand : Option String) (tag : MapTag) (fields : MapKey → Option Val),
    .mk brand (.map tag fields) ∈ d.meaning cx calls → ∀ (key : MapKey) (v : Val),
      fields key = some v → ∃ e : Descr, d.mapFieldLookup cx key = some e ∧ v ∈ e.meaning cx calls

/-- Where a clause has no positive factors, the components of the tuples it holds are within what
the clauses say that name the arity. -/
def UnnamedWithin (calls : Calls) : Prop :=
  ∀ (brand : Option String) (vs : List Val), admits d.brands brand = true →
    (∃ c ∈ d.tuples, c.pos = [] ∧ c.Holds (TupleSig.Holds (cx.meaning calls) vs)) →
    ∀ (index : Nat) (v : Val), vs[index]? = some v → d.coordinates cx vs.length index ≠ [] →
      Hull cx calls (d.coordinates cx vs.length index) v

end Descr

/-- The projections of a type cover the parts of its values exactly where no clause without
positive factors holds a tuple with a component that the clauses naming its arity leave out. -/
theorem projectionsCover_iff {cx : TyCtx} (W : World cx) (t : Ty) :
    (cx.descr t).ProjectionsCover cx W.calls ↔ (cx.descr t).UnnamedWithin cx W.calls := by
  constructor
  · rintro hcover brand vs hbrand ⟨c, hc, -, hholds⟩ index v hv hnamed
    have hmem : Val.mk brand (.tuple vs) ∈ (cx.descr t).meaning cx W.calls :=
      Descr.mem_meaning.mpr ⟨hbrand, c, hc, hholds⟩
    obtain ⟨e, he, hve⟩ := hcover.projections brand vs hmem index v hv
    obtain ⟨e', he', hiff⟩ := Descr.mem_tupleProjections
      (d := cx.descr t) (v := v) (List.getElem?_eq_some_iff.mp hv).1
    obtain rfl := Option.some.inj (he.symm.trans he')
    exact hiff.mp hve hnamed
  · intro hwithin
    refine ⟨fun brand vs hmem index v hv => ?_,
      fun brand vs hmem index v hv => Descr.mem_tupleFieldType W hmem hv,
      fun brand vs hmem v hv => Descr.mem_listElementType hmem hv,
      fun brand tag fields hmem key v hv => Descr.mem_mapFieldLookup hmem hv⟩
    obtain ⟨e, he, hiff⟩ := Descr.mem_tupleProjections
      (d := cx.descr t) (v := v) (List.getElem?_eq_some_iff.mp hv).1
    refine ⟨e, he, hiff.mpr fun hnamed => ?_⟩
    obtain ⟨hbrand, c, hc, hholds⟩ := Descr.mem_meaning.mp hmem
    by_cases hpos : c.pos = []
    · exact hwithin brand vs hbrand ⟨c, hc, hpos, hholds⟩ index v hv hnamed
    · exact Descr.hull_of_pos hv hc hpos hholds.1

section Sample

/-- Integers, numbers, and the tuples that are no pair of numbers together with the pairs of
integers. -/
def outsideNumbers : List Descr :=
  [kinds ⟨false, true, false⟩ .any, kinds ⟨false, true, true⟩ .any,
    { Descr.unbranded with tuples := [⟨[], [⟨[3, 3]⟩]⟩, ⟨[⟨[2, 2]⟩], []⟩] }]

theorem outsideNumbers_run : ∃ types : Types,
    coreTypes.internAll (storageOrder []) 8 outsideNumbers = .ok types ∧
      types.cx.arena = [Descr.none, Descr.any] ++ outsideNumbers ∧
      (types.cx.descr 4).tupleProjections types.cx 2
        = [kinds ⟨false, true, false⟩ .any, kinds ⟨false, true, false⟩ .any] := by
  have hcheck : (coreTypes.internAll (storageOrder []) 8 outsideNumbers).toOption.any (fun types =>
      types.cx.arena = [Descr.none, Descr.any] ++ outsideNumbers &&
        (types.cx.descr 4).tupleProjections types.cx 2
          = [kinds ⟨false, true, false⟩ .any, kinds ⟨false, true, false⟩ .any]) = true := by
    decide
  obtain ⟨types, hrun, hcheck⟩ := exists_ok_of_any hcheck
  simp only [Bool.and_eq_true, decide_eq_true_eq] at hcheck
  exact ⟨types, hrun, hcheck⟩

/-- A pair of binaries is no pair of numbers, but its components are projected to integers. -/
theorem tupleProjections_narrows :
    ∃ types : Types, coreTypes.internAll (storageOrder []) 8 outsideNumbers = .ok types ∧
      ¬(types.cx.descr 4).ProjectionsCover types.cx (silent types.cx).calls := by
  obtain ⟨types, hrun, harena, hints⟩ := outsideNumbers_run
  refine ⟨types, hrun, fun hcover => ?_⟩
  have hdescr : ∀ t, types.cx.descr t = ([Descr.none, Descr.any] ++ outsideNumbers).getD t .none :=
    fun t => by rw [TyCtx.descr, harena]
  have hpair : Val.mk none (.tuple [.mk none (.binary []), .mk none (.binary [])]) ∈
      (types.cx.descr 4).meaning types.cx (silent types.cx).calls := by
    rw [Descr.mem_meaning, hdescr]
    refine ⟨rfl, ⟨[], [⟨[3, 3]⟩]⟩, .head _, fun _ h => (nomatch h), fun sig hsig hin => ?_⟩
    obtain rfl := List.mem_singleton.mp hsig
    have hnum := (Descr.mem_meaning.mp (cons_mem_listProd.mp hin).1).2
    rw [hdescr] at hnum
    exact nomatch hnum
  obtain ⟨e, he, hmem⟩ := hcover.projections none _ hpair 0 _ rfl
  rw [show [Val.mk none (.binary []), Val.mk none (.binary [])].length = 2 from rfl, hints] at he
  obtain rfl := Option.some.inj he
  exact nomatch (Descr.mem_meaning.mp hmem).2

end Sample

end Fz.Types
