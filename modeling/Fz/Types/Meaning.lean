import Fz.Types.Denotation
import Fz.Types.Slots

/-!
# Runtime values of every kind

The values of `Fz.Types.Denotation` carry no brand and stop at scalars, atoms, tuples and lists.
Here a value has any of the kinds a descriptor has an axis for, and carries at most one brand, on
itself and on each of its parts.

What a descriptor says of a value depends on what the types it names mean (`Descr.Mem`); the arena
is well founded, so meanings exist, and `mem_meaning` unfolds them.  A signature with a closure
literal holds of the closures of its function over its captures.  One without holds of the closures
that take its arguments to its result, as told by what callables do when they are called.

Intersection is exact.  Union is exact where the brand slots agree; difference keeps at least what
it should and never adds.
-/

namespace Fz.Types

open Fz.Base

/-! ## Values -/

/-- What a value is, over its parts.  Of the entries of a map only those under a literal key are
kept: no signature reads the others. -/
inductive Shape (V : Type) where
  | int (n : Int64)
  | float (bits : UInt64)
  | binary (bits : List Bool)
  | atom (name : String)
  | opaqueOf (tag : OpaqueTag)
  | tuple (elems : List V)
  | list (elems : List V)
  | resource (payload : V)
  | map (tag : MapTag) (fields : MapKey → Option V)
  | fn (fnId : Nat) (captures : List V)

/-- A runtime value: a shape under at most one brand. -/
inductive Val where
  | mk (brand : Option String) (shape : Shape Val)

namespace Val

def brand : Val → Option String
  | mk b _ => b

def shape : Val → Shape Val
  | mk _ s => s

/-- The value without its outermost brand. -/
def eraseTop (v : Val) : Val := mk none v.shape

mutual
/-- The value without its brands, at every depth. -/
def erase : Val → Val
  | mk _ s => mk none (eraseShape s)

def eraseShape : Shape Val → Shape Val
  | .int n => .int n
  | .float bits => .float bits
  | .binary bits => .binary bits
  | .atom name => .atom name
  | .opaqueOf tag => .opaqueOf tag
  | .tuple vs => .tuple (eraseAll vs)
  | .list vs => .list (eraseAll vs)
  | .resource v => .resource (erase v)
  | .map tag fields => .map tag fun k => eraseField (fields k)
  | .fn f captures => .fn f (eraseAll captures)

def eraseAll : List Val → List Val
  | [] => []
  | v :: vs => erase v :: eraseAll vs

def eraseField : Option Val → Option Val
  | none => none
  | some v => some (erase v)
end

end Val

/-! ## Membership -/

/-- What callables do: `calls f captures args r` when the closure of `f` over `captures` returns
`r` on `args`. -/
abbrev Calls := Nat → List Val → List Val → Val → Prop

section Membership

variable (calls : Calls) (M : Ty → Set Val)

def TupleSig.Holds (vs : List Val) (s : TupleSig) : Prop := vs ∈ listProd (s.elems.map M)

def ListSig.Holds : List Val → ListSig → Prop
  | [], s => s.empty = true
  | v :: vs, s => ∃ t, s.elem = some t ∧ ∀ w ∈ v :: vs, w ∈ M t

def ResourceSig.Holds (payload : Val) (s : ResourceSig) : Prop := payload ∈ M s.payload

def MapSig.Holds (tag : MapTag) (fields : MapKey → Option Val) (s : MapSig) : Prop :=
  s.tag = tag ∧ ∀ p ∈ s.fields, ∃ v, fields p.1 = some v ∧ v ∈ M p.2

/-- The closure is of the literal's function, over values of its captures. -/
def ClosureLit.Holds (f : Nat) (captures : List Val) (l : ClosureLit) : Prop :=
  (∀ g, l.fnId = some g → g = f) ∧ captures ∈ listProd (l.captures.map M)

/-- The closure takes the arguments of the signature to its result. -/
def ArrowSig.Maps (f : Nat) (captures : List Val) (s : ArrowSig) : Prop :=
  ∀ args r, calls f captures args r → args ∈ listProd (s.args.map M) → r ∈ M s.ret

def ArrowSig.Holds (f : Nat) (captures : List Val) (s : ArrowSig) : Prop :=
  match s.lit with
  | none => s.Maps calls M f captures
  | some l => l.Holds M f captures

/-- Membership in the structural axes of a descriptor. -/
@[grind =] def Shape.In (d : Descr) : Shape Val → Prop
  | .int _ => d.basic.int
  | .float _ => d.basic.float
  | .binary _ => d.basic.binary
  | .atom name => d.atoms.contains name
  | .opaqueOf tag => d.opaques.contains tag
  | .tuple vs => DnfHolds (TupleSig.Holds M vs) d.tuples
  | .list vs => DnfHolds (ListSig.Holds M vs) d.lists
  | .resource v => DnfHolds (ResourceSig.Holds M v) d.resources
  | .map tag fields => DnfHolds (MapSig.Holds M tag fields) d.maps
  | .fn f captures => DnfHolds (ArrowSig.Holds calls M f captures) d.funcs

/-- Membership in a descriptor, where the types it names mean `M`. -/
def Descr.Mem (d : Descr) (v : Val) : Prop :=
  admits d.brands v.brand = true ∧ v.shape.In calls M d

end Membership

variable (cx : TyCtx) (calls : Calls)

/-- The values of a descriptor, cut at depth `n`. -/
def Descr.meaningAt : Nat → Descr → Set Val
  | 0, _ => ∅
  | n + 1, d => {v | d.Mem calls (fun t => meaningAt n (cx.descr t)) v}

/-- The values of a descriptor. -/
def Descr.meaning (d : Descr) : Set Val := d.meaningAt cx calls (d.rank + 1)

/-- The values of an interned type. -/
def TyCtx.meaning (t : Ty) : Set Val := (cx.descr t).meaning cx calls

/-! ## Meanings unfold -/

theorem DnfHolds.congr {T : Type} {m m' : T → Prop} {d : List (Conj T)}
    (h : Each (fun s => m s ↔ m' s) d) : DnfHolds m d ↔ DnfHolds m' d := by
  simp only [DnfHolds, Conj.Holds]
  refine exists_congr fun c => and_congr_right fun hc => and_congr ?_ ?_
  · exact forall₂_congr fun p hp => (h c hc).1 p hp
  · exact forall₂_congr fun n hn => not_congr ((h c hc).2 n hn)

theorem listProd_map_congr {T V : Type} {M M' : T → Set V} {ts : List T}
    (h : ∀ t ∈ ts, M t = M' t) : listProd (ts.map M) = listProd (ts.map M') := by
  rw [List.map_congr_left h]

/-- A property of signatures. -/
structure SigPred where
  tuple : TupleSig → Prop
  list : ListSig → Prop
  resource : ResourceSig → Prop
  arrow : ArrowSig → Prop
  map : MapSig → Prop

/-- The types a signature names have a property. -/
def SigPred.naming (P : Ty → Prop) : SigPred where
  tuple s := ∀ t ∈ s.elems, P t
  list s := ∀ t, s.elem = some t → P t
  resource s := P s.payload
  arrow s := P s.ret ∧ (∀ t ∈ s.args, P t) ∧ ∀ l, s.lit = some l → ∀ t ∈ l.captures, P t
  map s := ∀ p ∈ s.fields, P p.2

namespace Descr

/-- Every signature of a descriptor has a property. -/
structure EachSig (P : SigPred) (d : Descr) : Prop where
  tuples : Each P.tuple d.tuples
  lists : Each P.list d.lists
  resources : Each P.resource d.resources
  funcs : Each P.arrow d.funcs
  maps : Each P.map d.maps

theorem eachChild_iff_eachSig {P : Ty → Prop} {d : Descr} :
    d.EachChild P ↔ d.EachSig (.naming P) := by
  have haxis : ∀ {T : Type} (f : T → List Ty) (dnf : List (Conj T)),
      (∀ t ∈ dnf.flatMap (fun c => (c.pos ++ c.neg).flatMap f), P t) ↔
        Each (fun s => ∀ t ∈ f s, P t) dnf := by
    intro T f dnf
    simp only [Each, List.mem_flatMap, List.mem_append]
    constructor
    · intro h c hc
      exact ⟨fun s hs t ht => h t ⟨c, hc, s, .inl hs, ht⟩,
        fun s hs t ht => h t ⟨c, hc, s, .inr hs, ht⟩⟩
    · rintro h t ⟨c, hc, s, hs | hs, ht⟩
      · exact (h c hc).1 s hs t ht
      · exact (h c hc).2 s hs t ht
  have hcaptures : ∀ s : ArrowSig, (∀ t ∈ (s.lit.map ClosureLit.captures).getD [], P t) ↔
      ∀ l, s.lit = some l → ∀ t ∈ l.captures, P t := by
    intro s
    cases hl : s.lit <;> simp
  have hres : ∀ c : Conj ResourceSig, (c.pos ++ c.neg).map ResourceSig.payload
      = (c.pos ++ c.neg).flatMap fun s => [s.payload] := fun c => List.map_eq_flatMap
  simp only [EachChild, children, hres, List.forall_mem_append, haxis]
  simp only [List.forall_mem_cons, Option.mem_toList, List.forall_mem_map, hcaptures, and_assoc,
    List.not_mem_nil, false_imp_iff, implies_true, and_true]
  constructor
  · rintro ⟨ht, hl, hr, hf, hm⟩
    exact ⟨ht, hl, hr, hf, hm⟩
  · rintro ⟨ht, hl, hr, hf, hm⟩
    exact ⟨ht, hl, hr, hf, hm⟩

/-- Membership only depends on what the types a descriptor names mean. -/
theorem mem_congr {calls : Calls} {M M' : Ty → Set Val} {d : Descr}
    (h : d.EachChild fun t => M t = M' t) (v : Val) : d.Mem calls M v ↔ d.Mem calls M' v := by
  have hax := eachChild_iff_eachSig.mp h
  refine and_congr_right fun _ => ?_
  cases v.shape with
  | tuple vs =>
    refine DnfHolds.congr fun c hc => ⟨fun s hs => ?_, fun s hs => ?_⟩
    · simp only [TupleSig.Holds, listProd_map_congr ((hax.tuples c hc).1 s hs)]
    · simp only [TupleSig.Holds, listProd_map_congr ((hax.tuples c hc).2 s hs)]
  | list vs =>
    have hsig : ∀ s : ListSig, (∀ t, s.elem = some t → M t = M' t) →
        (s.Holds M vs ↔ s.Holds M' vs) := by
      intro s hs
      cases vs with
      | nil => rfl
      | cons v vs => exact exists_congr fun t => and_congr_right fun ht => by rw [hs t ht]
    exact DnfHolds.congr fun c hc => ⟨fun s hs => hsig s ((hax.lists c hc).1 s hs),
      fun s hs => hsig s ((hax.lists c hc).2 s hs)⟩
  | resource v =>
    have hsig : ∀ s : ResourceSig, M s.payload = M' s.payload → (s.Holds M v ↔ s.Holds M' v) := by
      intro s hs
      rw [ResourceSig.Holds, hs]
      rfl
    exact DnfHolds.congr fun c hc => ⟨fun s hs => hsig s ((hax.resources c hc).1 s hs),
      fun s hs => hsig s ((hax.resources c hc).2 s hs)⟩
  | map tag fields =>
    have hsig : ∀ s : MapSig, (∀ p ∈ s.fields, M p.2 = M' p.2) →
        (s.Holds M tag fields ↔ s.Holds M' tag fields) := by
      intro s hs
      refine and_congr_right fun _ => forall₂_congr fun p hp => exists_congr fun v => ?_
      rw [hs p hp]
    exact DnfHolds.congr fun c hc => ⟨fun s hs => hsig s ((hax.maps c hc).1 s hs),
      fun s hs => hsig s ((hax.maps c hc).2 s hs)⟩
  | fn f captures =>
    have hsig : ∀ s : ArrowSig, (M s.ret = M' s.ret ∧ (∀ t ∈ s.args, M t = M' t) ∧
        ∀ l, s.lit = some l → ∀ t ∈ l.captures, M t = M' t) →
        (s.Holds calls M f captures ↔ s.Holds calls M' f captures) := by
      rintro s ⟨hret, hargs, hlit⟩
      unfold ArrowSig.Holds
      cases hl : s.lit with
      | none =>
        dsimp only [ArrowSig.Maps]
        rw [hret, listProd_map_congr hargs]
      | some l =>
        dsimp only [ClosureLit.Holds]
        rw [listProd_map_congr (hlit l hl)]
    exact DnfHolds.congr fun c hc => ⟨fun s hs => hsig s ((hax.funcs c hc).1 s hs),
      fun s hs => hsig s ((hax.funcs c hc).2 s hs)⟩
  | _ => rfl

variable {cx : TyCtx} {calls : Calls}

theorem rank_descr_lt (cx : TyCtx) {d : Descr} {t : Ty} (ht : t ∈ d.children) :
    (cx.descr t).rank < d.rank :=
  Nat.lt_of_le_of_lt (cx.rank_descr_le t) (rank_le_iff.mp le_rfl t ht)

theorem meaningAt_eq : ∀ (n m : Nat) (d : Descr), d.rank < n → d.rank < m →
    d.meaningAt cx calls n = d.meaningAt cx calls m := by
  intro n
  induction n with
  | zero => exact fun _ _ h => absurd h (Nat.not_lt_zero _)
  | succ n ih =>
    intro m d hn hm
    cases m with
    | zero => exact absurd hm (Nat.not_lt_zero _)
    | succ m =>
      ext v
      refine mem_congr (fun t ht => ?_) v
      have hrank := rank_descr_lt cx ht
      exact ih m (cx.descr t) (by omega) (by omega)

theorem mem_meaning {d : Descr} {v : Val} :
    v ∈ d.meaning cx calls ↔ d.Mem calls (cx.meaning calls) v := by
  refine mem_congr (fun t ht => ?_) v
  have hrank := rank_descr_lt cx ht
  exact meaningAt_eq _ _ (cx.descr t) (by omega) (by omega)

/-! ## Operations -/

section Operations

variable {M : Ty → Set Val} {a b : Descr}

theorem in_intersect (s : Shape Val) :
    s.In calls M (a.intersect b) ↔ s.In calls M a ∧ s.In calls M b := by
  cases s <;>
    simp [Shape.In, intersect, BasicBits.intersect, FiniteSet.contains_intersect,
      holds_dnfIntersect]

theorem in_negStructure (s : Shape Val) : s.In calls M a.negStructure ↔ ¬s.In calls M a := by
  cases s <;>
    simp [Shape.In, negStructure, BasicBits.neg, FiniteSet.contains_neg, holds_dnfNeg]

theorem in_withBrands (d : Descr) (slot : FiniteSet String) (s : Shape Val) :
    s.In calls M { d with brands := slot } ↔ s.In calls M d := by
  cases s <;> rfl

theorem in_of_sameStructure (h : a.sameStructureByConstruction b = true) (s : Shape Val) :
    s.In calls M a ↔ s.In calls M b := by
  simp only [sameStructureByConstruction, Bool.and_eq_true, decide_eq_true_eq] at h
  obtain ⟨⟨⟨⟨⟨⟨⟨⟨hbasic, hatoms⟩, hopaques⟩, -⟩, htuples⟩, hlists⟩, hres⟩, hfuncs⟩, hmaps⟩ := h
  cases s <;> simp only [Shape.In, hbasic, hatoms, hopaques, htuples, hlists, hres, hfuncs, hmaps]

theorem in_of_structureLooksEmpty (h : a.structureLooksEmpty = true) (s : Shape Val) :
    ¬s.In calls M a := by
  simp only [structureLooksEmpty, BasicBits.isEmpty, FiniteSet.isNone, Bool.and_eq_true,
    Bool.not_eq_true', decide_eq_true_eq, List.isEmpty_iff] at h
  obtain ⟨⟨⟨⟨⟨⟨⟨⟨hbasic, hatoms⟩, hopaques⟩, -⟩, htuples⟩, hlists⟩, hres⟩, hfuncs⟩, hmaps⟩ := h
  cases s <;>
    simp [Shape.In, DnfHolds, FiniteSet.contains, hbasic, hatoms, hopaques, htuples, hlists, hres,
      hfuncs, hmaps]

theorem in_union (s : Shape Val) (hea : ¬a.looksEmpty = true) (heb : ¬b.looksEmpty = true) :
    s.In calls M (a.union b) ↔ s.In calls M a ∨ s.In calls M b := by
  rw [union, if_neg hea, if_neg heb]
  cases s <;>
    simp [Shape.In, BasicBits.union, FiniteSet.contains_union, holds_dnfUnion]

theorem structural (s : Shape Val) : Structural (s.In calls M) where
  intersect _ _ := in_intersect s
  negStructure _ := in_negStructure s
  withBrands a slot := in_withBrands a slot s
  sameStructure _ _ h := in_of_sameStructure h s
  looksEmpty _ h := in_of_structureLooksEmpty h s
  union _ _ := in_union s
  any := by cases s <;> simp [Shape.In, any, BasicBits.all, DnfHolds, Conj.Holds, Conj.top]

theorem mem_intersect {v : Val} :
    (a.intersect b).Mem calls M v ↔ a.Mem calls M v ∧ b.Mem calls M v :=
  (structural v.shape).mem_intersect

theorem mem_diff_iff (h : b.brands.containsAll a.brands = true) {v : Val} :
    (a.diff b).Mem calls M v ↔ a.Mem calls M v ∧ ¬b.Mem calls M v :=
  (structural v.shape).mem_diff_iff h

theorem mem_diff_of_mem {v : Val} (ha : a.Mem calls M v) (hb : ¬b.Mem calls M v) :
    (a.diff b).Mem calls M v := (structural v.shape).mem_diff_of_mem ha hb

theorem mem_of_mem_diff {v : Val} (h : (a.diff b).Mem calls M v) : a.Mem calls M v :=
  (structural v.shape).mem_of_mem_diff h

theorem not_mem_of_looksEmpty (h : a.looksEmpty = true) (v : Val) : ¬a.Mem calls M v :=
  (structural v.shape).not_mem_of_looksEmpty h

theorem mem_any (v : Val) : (any : Descr).Mem calls M v := (structural v.shape).mem_any

theorem mem_union_of_looksEmpty (h : a.looksEmpty = true ∨ b.looksEmpty = true) {v : Val} :
    (a.union b).Mem calls M v ↔ a.Mem calls M v ∨ b.Mem calls M v :=
  (structural v.shape).mem_union_of_looksEmpty h

theorem mem_union_iff (h : SlotsAgree a b) {v : Val} :
    (a.union b).Mem calls M v ↔ a.Mem calls M v ∨ b.Mem calls M v :=
  (structural v.shape).mem_union_iff h

theorem mem_union_of_mem {v : Val} (h : a.Mem calls M v ∨ b.Mem calls M v) :
    (a.union b).Mem calls M v := (structural v.shape).mem_union_of_mem h

end Operations

/-! ## Operations invent no signature -/

namespace EachSig

variable {P : SigPred} {a b : Descr}

theorem intersect (ha : a.EachSig P) (hb : b.EachSig P) : (a.intersect b).EachSig P where
  tuples := ha.tuples.dnfIntersect hb.tuples
  lists := ha.lists.dnfIntersect hb.lists
  resources := ha.resources.dnfIntersect hb.resources
  funcs := ha.funcs.dnfIntersect hb.funcs
  maps := ha.maps.dnfIntersect hb.maps

theorem negStructure (ha : a.EachSig P) : a.negStructure.EachSig P where
  tuples := ha.tuples.dnfNeg
  lists := ha.lists.dnfNeg
  resources := ha.resources.dnfNeg
  funcs := ha.funcs.dnfNeg
  maps := ha.maps.dnfNeg

theorem withBrands (ha : a.EachSig P) (slot : FiniteSet String) :
    ({ a with brands := slot } : Descr).EachSig P :=
  ⟨ha.tuples, ha.lists, ha.resources, ha.funcs, ha.maps⟩

theorem diff (ha : a.EachSig P) (hb : b.EachSig P) : (a.diff b).EachSig P := by
  rw [Descr.diff]
  split
  · exact (ha.intersect hb.negStructure).withBrands _
  split
  · exact ha
  split
  · exact ha.withBrands _
  · exact ha

theorem none : Descr.none.EachSig P := by
  constructor <;> exact fun _ h => nomatch h

theorem any : Descr.any.EachSig P := by
  constructor <;> simp [Each, Descr.any, Conj.top]

theorem union (ha : a.EachSig P) (hb : b.EachSig P) : (a.union b).EachSig P := by
  rw [Descr.union]
  split
  · split
    · exact none
    · exact hb
  split
  · exact ha
  · exact ⟨ha.tuples.dnfUnion hb.tuples, ha.lists.dnfUnion hb.lists,
      ha.resources.dnfUnion hb.resources, ha.funcs.dnfUnion hb.funcs, ha.maps.dnfUnion hb.maps⟩

theorem tupleOf {elems : List Ty} (h : P.tuple ⟨elems⟩) : (Descr.tupleOf elems).EachSig P where
  tuples := by simpa [Each, Descr.tupleOf, Conj.posOf] using h
  lists := fun _ h => nomatch h
  resources := fun _ h => nomatch h
  funcs := fun _ h => nomatch h
  maps := fun _ h => nomatch h

end EachSig

theorem rank_le_iff_eachSig {d : Descr} {n : Nat} : d.rank ≤ n ↔ d.EachSig (.naming (· < n)) := by
  rw [rank_le_iff, eachChild_iff_eachSig]

theorem rank_intersect_le (a b : Descr) : (a.intersect b).rank ≤ max a.rank b.rank :=
  rank_le_iff_eachSig.mpr (.intersect (rank_le_iff_eachSig.mp (Nat.le_max_left _ _))
    (rank_le_iff_eachSig.mp (Nat.le_max_right _ _)))

theorem rank_diff_le (a b : Descr) : (a.diff b).rank ≤ max a.rank b.rank :=
  rank_le_iff_eachSig.mpr (.diff (rank_le_iff_eachSig.mp (Nat.le_max_left _ _))
    (rank_le_iff_eachSig.mp (Nat.le_max_right _ _)))

theorem rank_union_le (a b : Descr) : (a.union b).rank ≤ max a.rank b.rank :=
  rank_le_iff_eachSig.mpr (.union (rank_le_iff_eachSig.mp (Nat.le_max_left _ _))
    (rank_le_iff_eachSig.mp (Nat.le_max_right _ _)))

/-! ## Meanings of operations -/

section Meanings

variable {a b : Descr} {v : Val}

theorem meaning_intersect :
    v ∈ (a.intersect b).meaning cx calls ↔ v ∈ a.meaning cx calls ∧ v ∈ b.meaning cx calls := by
  rw [mem_meaning, mem_intersect, ← mem_meaning, ← mem_meaning]

theorem mem_meaning_diff (ha : v ∈ a.meaning cx calls) (hb : v ∉ b.meaning cx calls) :
    v ∈ (a.diff b).meaning cx calls := by
  rw [mem_meaning] at ha hb ⊢
  exact mem_diff_of_mem ha hb

theorem mem_meaning_any (v : Val) : v ∈ any.meaning cx calls := mem_meaning.mpr (mem_any v)

theorem meaning_union (h : SlotsAgree a b) :
    v ∈ (a.union b).meaning cx calls ↔ v ∈ a.meaning cx calls ∨ v ∈ b.meaning cx calls := by
  rw [mem_meaning, mem_union_iff h, ← mem_meaning, ← mem_meaning]

theorem mem_meaning_diff_iff (h : b.brands.containsAll a.brands = true ∨
    a.brands.overlaps b.brands = false ∨ a.sameStructureByConstruction b = true) :
    v ∈ (a.diff b).meaning cx calls ↔ v ∈ a.meaning cx calls ∧ v ∉ b.meaning cx calls := by
  rw [mem_meaning, mem_meaning, mem_meaning]
  rcases h with hcov | hslots | hsame
  · exact mem_diff_iff hcov
  · exact (structural v.shape).mem_diff_iff_of_disjoint hslots
  · exact (structural v.shape).mem_diff_iff_of_sameStructure hsame

/-- A difference keeps every value it should and invents none; it is the exact set difference where
the subtrahend's slot covers the minuend's, where the slots are disjoint, and where the structures
are the same. -/
theorem meaning_diff (cx : TyCtx) (calls : Calls) (a b : Descr) :
    a.meaning cx calls \ b.meaning cx calls ⊆ (a.diff b).meaning cx calls ∧
    (a.diff b).meaning cx calls ⊆ a.meaning cx calls ∧
    (b.brands.containsAll a.brands = true ∨ a.brands.overlaps b.brands = false ∨
        a.sameStructureByConstruction b = true →
      (a.diff b).meaning cx calls = a.meaning cx calls \ b.meaning cx calls) := by
  refine ⟨fun v hv => mem_meaning_diff hv.1 hv.2, fun v hv => ?_, fun h => ?_⟩
  · rw [mem_meaning] at hv ⊢
    exact mem_of_mem_diff hv
  · ext v
    exact mem_meaning_diff_iff h

theorem mem_tupleOf {elems : List Ty} {vs : List Val} {brand : Option String} :
    .mk brand (.tuple vs) ∈ (tupleOf elems).meaning cx calls ↔
      vs ∈ listProd (elems.map (cx.meaning calls)) := by
  rw [mem_meaning]
  simp [Mem, tupleOf, unbranded, Val.brand, Val.shape, Shape.In, DnfHolds, Conj.Holds, Conj.posOf,
    admits_any, TupleSig.Holds]

end Meanings

end Descr

end Fz.Types
