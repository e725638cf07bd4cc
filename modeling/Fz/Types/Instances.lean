import Fz.Types.Envelope
import Fz.Types.InternSound

/-!
# What all instances of a type have in common

Every value of an instance of a type meets the upper bound of the type, and every value that meets
the lower bound is a value of the instance, whatever is put for the variables (`TyCtx.bound`).  A
position is read by the upper bound or by the lower one according to its polarity, which flips at
each negative factor.

A variable has no bounds but the trivial ones.  An upper bound asks a callable for its construction
only and a struct for its schema.  A lower bound reads an arrow as it is, so it is one for the
instances only if the arrows it reads have no variables in them (`NegativeArrowsGround`).
-/

set_option linter.dupNamespace false

namespace Fz.Types

open Fz.Base

/-! ## Polarity -/

namespace RuntimeEnvelopePolarity

/-- One statement is within another in positive positions, and around it in negative ones. -/
def Within (p : RuntimeEnvelopePolarity) (a b : Prop) : Prop :=
  match p with
  | positive => a → b
  | negative => b → a

variable {p : RuntimeEnvelopePolarity} {a b c : Prop}

theorem Within.of_iff (h : a ↔ b) : p.Within a b := by
  cases p with
  | positive => exact h.mp
  | negative => exact h.mpr

theorem Within.trans (h : p.Within a b) (h' : p.Within b c) : p.Within a c := by
  cases p with
  | positive => exact fun ha => h' (h ha)
  | negative => exact fun hc => h (h' hc)

theorem Within.not (h : p.flipped.Within a b) : p.Within (¬a) (¬b) := by
  cases p with
  | positive => exact fun hna hb => hna (h hb)
  | negative => exact fun hnb ha => hnb (h ha)

theorem Within.and {a' b' : Prop} (h : p.Within a b) (h' : p.Within a' b') :
    p.Within (a ∧ a') (b ∧ b') := by
  cases p with
  | positive => exact And.imp h h'
  | negative => exact And.imp h h'

theorem Within.drop {a' b' : Prop} (h : p.Within a b) (hb : ¬b) (hb' : ¬b') :
    p.Within (a ∧ a') b' := by
  cases p with
  | positive => exact fun ha => absurd (h ha.1) hb
  | negative => exact fun h => absurd h hb'

theorem Within.forall₂ {α β : Type} {R : α → β → Prop} {xs : List α} {ys : List β} {P : α → Prop}
    {P' : β → Prop} (hrel : List.Forall₂ R xs ys)
    (h : ∀ x ∈ xs, ∀ y, R x y → p.Within (P' y) (P x)) :
    p.Within (∀ y ∈ ys, P' y) (∀ x ∈ xs, P x) := by
  cases p with
  | positive =>
    intro hall x hx
    obtain ⟨y, hy, hxy⟩ := exists_of_forall₂_left hrel hx
    exact h x hx y hxy (hall y hy)
  | negative =>
    intro hall y hy
    obtain ⟨x, hx, hxy⟩ := exists_of_forall₂_right hrel hy
    exact h x hx y hxy (hall x hx)

theorem Within.exists₂ {α β : Type} {R : α → β → Prop} {xs : List α} {ys : List β} {P : α → Prop}
    {P' : β → Prop} (hrel : List.Forall₂ R xs ys)
    (h : ∀ x ∈ xs, ∀ y, R x y → p.Within (P' y) (P x)) :
    p.Within (∃ y ∈ ys, P' y) (∃ x ∈ xs, P x) := by
  cases p with
  | positive =>
    rintro ⟨y, hy, hP⟩
    obtain ⟨x, hx, hxy⟩ := exists_of_forall₂_right hrel hy
    exact ⟨x, hx, h x hx y hxy hP⟩
  | negative =>
    rintro ⟨x, hx, hP⟩
    obtain ⟨y, hy, hxy⟩ := exists_of_forall₂_left hrel hx
    exact ⟨y, hy, h x hx y hxy hP⟩

end RuntimeEnvelopePolarity

section Clauses

variable {T : Type} {polarity : RuntimeEnvelopePolarity}

/-- Some clause holds, where a negative factor is read at the other polarity. -/
def PolarHolds (m : RuntimeEnvelopePolarity → T → Prop) (polarity : RuntimeEnvelopePolarity)
    (cs : List (Conj T)) : Prop :=
  ∃ c ∈ cs, (∀ p ∈ c.pos, m polarity p) ∧ ∀ n ∈ c.neg, ¬m polarity.flipped n

/-- A property of the signatures of an axis, each at its polarity. -/
def PolarEach (P : RuntimeEnvelopePolarity → T → Prop) (polarity : RuntimeEnvelopePolarity)
    (cs : List (Conj T)) : Prop :=
  ∀ c ∈ cs, (∀ p ∈ c.pos, P polarity p) ∧ ∀ n ∈ c.neg, P polarity.flipped n

/-- The factors of two clauses are related one by one. -/
def Conj.Rel (R : T → T → Prop) (c c' : Conj T) : Prop :=
  List.Forall₂ R c.pos c'.pos ∧ List.Forall₂ R c.neg c'.neg

theorem PolarHolds.within {R : T → T → Prop} {m' : T → Prop}
    {m P : RuntimeEnvelopePolarity → T → Prop} {cs cs' : List (Conj T)}
    (hrel : List.Forall₂ (Conj.Rel R) cs cs') (hP : PolarEach P polarity cs)
    (h : ∀ polarity s s', R s s' → P polarity s →
      RuntimeEnvelopePolarity.Within polarity (m' s') (m polarity s)) :
    polarity.Within (DnfHolds m' cs') (PolarHolds m polarity cs) := by
  refine RuntimeEnvelopePolarity.Within.exists₂ hrel fun c hc c' hcc' => ?_
  refine .and (.forall₂ hcc'.1 fun s hs s' hss' => h _ s s' hss' ((hP c hc).1 s hs)) ?_
  exact .forall₂ hcc'.2 fun s hs s' hss' => .not (h _ s s' hss' ((hP c hc).2 s hs))

theorem Conj.Rel.imp {R R' : T → T → Prop} {c c' : Conj T} (h : c.Rel R c')
    (hR : ∀ s s', R s s' → R' s s') : c.Rel R' c' := ⟨h.1.imp hR, h.2.imp hR⟩

theorem Each.imp {K K' : T → Prop} {cs : List (Conj T)} (h : Each K cs) (hK : ∀ s, K s → K' s) :
    Each K' cs :=
  fun c hc => ⟨fun s hs => hK s ((h c hc).1 s hs), fun s hs => hK s ((h c hc).2 s hs)⟩

theorem Each.of_rel {R : T → T → Prop} {K K' : T → Prop} {cs cs' : List (Conj T)}
    (hrel : List.Forall₂ (Conj.Rel R) cs cs') (hK : Each K cs)
    (h : ∀ s s', K s → R s s' → K' s') : Each K' cs' := by
  intro c' hc'
  obtain ⟨c, hc, hpos, hneg⟩ := exists_of_forall₂_right hrel hc'
  constructor
  · intro s' hs'
    obtain ⟨s, hs, hss'⟩ := exists_of_forall₂_right hpos hs'
    exact h s s' ((hK c hc).1 s hs) hss'
  · intro s' hs'
    obtain ⟨s, hs, hss'⟩ := exists_of_forall₂_right hneg hs'
    exact h s s' ((hK c hc).2 s hs) hss'

theorem Conj.Rel.refl {R : T → T → Prop} (hR : ∀ s, R s s) (c : Conj T) : c.Rel R c :=
  ⟨List.forall₂_same.mpr fun s _ => hR s, List.forall₂_same.mpr fun s _ => hR s⟩

end Clauses

/-! ## Bounds -/

/-- What is seen of a struct is its schema; one with fields can not be told from the others of the
schema. -/
def MapSig.Seen (M : Ty → Set Val) (polarity : RuntimeEnvelopePolarity) (tag : MapTag)
    (fields : MapKey → Option Val) (s : MapSig) : Prop :=
  match s.tag, polarity with
  | .plain, _ => s.Holds M tag fields
  | .struct _, .positive => s.tag = tag
  | .struct _, .negative => s.tag = tag ∧ s.fields = []

section Seen

variable {M : Ty → Set Val} {s : MapSig} {tag : MapTag} {fields : MapKey → Option Val}

theorem MapSig.seen_plain {q : RuntimeEnvelopePolarity} (h : s.tag = .plain) :
    s.Seen M q tag fields ↔ s.Holds M tag fields := by
  unfold Seen
  rw [h]

theorem MapSig.seen_positive {name : List String} (h : s.tag = .struct name) :
    s.Seen M .positive tag fields ↔ s.tag = tag := by
  unfold Seen
  rw [h]

theorem MapSig.seen_negative {name : List String} (h : s.tag = .struct name) :
    s.Seen M .negative tag fields ↔ s.tag = tag ∧ s.fields = [] := by
  unfold Seen
  rw [h]

end Seen

section Bounds

variable (calls : Calls) (X : Ty → Set Val) (M : RuntimeEnvelopePolarity → Ty → Set Val)

/-- The axes of a descriptor, where `X` says what the types it names mean and `M` what the bounds of
these types are. -/
def Shape.Bounded (polarity : RuntimeEnvelopePolarity) (d : Descr) : Shape Val → Prop
  | .int _ => d.basic.int
  | .float _ => d.basic.float
  | .binary _ => d.basic.binary
  | .atom name => d.atoms.contains name
  | .opaqueOf tag => d.opaques.contains tag
  | .tuple vs => PolarHolds (fun q s => s.Holds (M q) vs) polarity d.tuples
  | .list vs => PolarHolds (fun q s => ListSig.Holds (M q) vs s) polarity d.lists
  | .resource v => PolarHolds (fun q s => s.Holds (M q) v) polarity d.resources
  | .map tag fields => PolarHolds (fun q s => s.Seen (M q) q tag fields) polarity d.maps
  | .fn f captures =>
    match polarity with
    | .positive => ∃ c ∈ d.funcs, ∀ p ∈ c.pos, ∀ l, p.lit = some l → l.Holds X f captures
    | .negative => DnfHolds (ArrowSig.Holds calls X f captures) d.funcs

def Descr.Bounded (d : Descr) (polarity : RuntimeEnvelopePolarity) (v : Val) : Prop :=
  (polarity = .positive ∧ d.vars.values ≠ ∅) ∨
    admits d.brands v.brand = true ∧ v.shape.Bounded calls X M polarity d

end Bounds

/-- The bounds of a type, cut at depth `n`. -/
def TyCtx.bound (cx : TyCtx) (calls : Calls) : Nat → RuntimeEnvelopePolarity → Ty → Set Val
  | 0, .positive, _ => Set.univ
  | 0, .negative, _ => ∅
  | n + 1, polarity, t =>
    {v | (cx.descr t).Bounded calls (cx.meaning calls) (bound cx calls n) polarity v}

/-! ## Ground arrows -/

/-- A property of the types that the structural axes name, each at its polarity.  The fields of a
struct are not looked at. -/
structure Descr.PolarNaming (P : RuntimeEnvelopePolarity → Ty → Prop)
    (polarity : RuntimeEnvelopePolarity) (d : Descr) : Prop where
  tuples : PolarEach (fun q s => ∀ t ∈ s.elems, P q t) polarity d.tuples
  lists : PolarEach (fun q s => ∀ t, s.elem = some t → P q t) polarity d.lists
  resources : PolarEach (fun q s => P q s.payload) polarity d.resources
  maps : PolarEach (fun q s => s.tag = .plain → ∀ f ∈ s.fields, P q f.2) polarity d.maps

/-- The arrows of a type have no variables in their arguments and results. -/
def GroundArrows (cx : TyCtx) (d : Descr) : Prop :=
  Each (fun s => ∀ u ∈ s.ret :: s.args, (cx.descr u).hasVars cx = false) d.funcs

/-- The arrows in negative positions have no variables in their arguments and results, down to depth
`n`. -/
def NegativeArrowsGround (cx : TyCtx) : Nat → RuntimeEnvelopePolarity → Ty → Prop
  | 0, _, _ => True
  | n + 1, polarity, t =>
    (polarity = .positive ∧ (cx.descr t).vars.values ≠ ∅) ∨
      (polarity = .negative → GroundArrows cx (cx.descr t)) ∧
      (cx.descr t).PolarNaming (NegativeArrowsGround cx n) polarity

/-! ## Replaced types -/

section Replaced

variable (Q : Ty → Ty → Prop)

def TupleSig.Replaced (s s' : TupleSig) : Prop := List.Forall₂ Q s.elems s'.elems

def ListSig.Replaced (s s' : ListSig) : Prop := s'.empty = s.empty ∧ Option.Rel Q s.elem s'.elem

def ResourceSig.Replaced (s s' : ResourceSig) : Prop := Q s.payload s'.payload

def ArrowSig.Replaced (s s' : ArrowSig) : Prop :=
  List.Forall₂ Q s.args s'.args ∧ Q s.ret s'.ret ∧ s'.lit = s.lit

def MapSig.Replaced (s s' : MapSig) : Prop :=
  s'.tag = s.tag ∧ List.Forall₂ (fun f f' => f'.1 = f.1 ∧ Q f.2 f'.2) s.fields s'.fields

/-- A descriptor with each type it names replaced by a related one. -/
structure Descr.Replaced (d d' : Descr) : Prop where
  basic : d'.basic = d.basic
  atoms : d'.atoms = d.atoms
  opaques : d'.opaques = d.opaques
  brands : d'.brands = d.brands
  tuples : List.Forall₂ (Conj.Rel (TupleSig.Replaced Q)) d.tuples d'.tuples
  lists : List.Forall₂ (Conj.Rel ( ListSig.Replaced Q)) d.lists d'.lists
  resources : List.Forall₂ (Conj.Rel (ResourceSig.Replaced Q)) d.resources d'.resources
  funcs : List.Forall₂ (Conj.Rel (ArrowSig.Replaced Q)) d.funcs d'.funcs
  maps : List.Forall₂ (Conj.Rel (MapSig.Replaced Q)) d.maps d'.maps

variable {Q} {Q' : Ty → Ty → Prop} {P : Ty → Prop}

theorem TupleSig.Replaced.imp {s s' : TupleSig} (h : s.Replaced Q s')
    (hQ : ∀ t u, Q t u → Q' t u) : s.Replaced Q' s' := List.Forall₂.imp hQ h

theorem ListSig.Replaced.imp {s s' : ListSig} (h : s.Replaced Q s')
    (hQ : ∀ t u, Q t u → Q' t u) : s.Replaced Q' s' := by
  obtain ⟨hempty, helem⟩ := h
  refine ⟨hempty, ?_⟩
  generalize s.elem = elem, s'.elem = elem' at helem
  cases helem with
  | none => exact .none
  | some htu => exact .some (hQ _ _ htu)

theorem ArrowSig.Replaced.imp {s s' : ArrowSig} (h : s.Replaced Q s')
    (hQ : ∀ t u, Q t u → Q' t u) : s.Replaced Q' s' :=
  ⟨h.1.imp hQ, hQ _ _ h.2.1, h.2.2⟩

theorem MapSig.Replaced.imp {s s' : MapSig} (h : s.Replaced Q s')
    (hQ : ∀ t u, Q t u → Q' t u) : s.Replaced Q' s' :=
  ⟨h.1, h.2.imp fun _ _ hf => ⟨hf.1, hQ _ _ hf.2⟩⟩

theorem MapSig.replaced_withValues {s : MapSig} {values : List Ty}
    (h : List.Forall₂ (fun f u => Q f.2 u) s.fields values) :
    s.Replaced Q (s.withValues values) := by
  refine ⟨rfl, ?_⟩
  show List.Forall₂ _ s.fields (s.fields.zipWith (fun field t => (field.1, t)) values)
  generalize s.fields = fields at h
  induction h with
  | nil => exact .nil
  | cons hfu _ ih => exact .cons ⟨rfl, hfu⟩ ih

theorem MapSig.values_withValues {R : MapKey × Ty → Ty → Prop} {s : MapSig} {values : List Ty}
    (h : List.Forall₂ R s.fields values) : (s.withValues values).fields.map Prod.snd = values := by
  show (s.fields.zipWith (fun field t => (field.1, t)) values).map Prod.snd = values
  generalize s.fields = fields at h
  induction h with
  | nil => rfl
  | cons _ _ ih => exact congrArg _ ih

theorem Descr.Replaced.naming {d d' : Descr} (h : d.Replaced Q d') (hQ : ∀ t u, Q t u → P u)
    (hd : d.EachSig (.naming P)) : d'.EachSig (.naming P) where
  tuples := Each.of_rel h.tuples hd.tuples fun s s' _ hs t ht => by
    obtain ⟨u, -, hut⟩ := exists_of_forall₂_right hs ht
    exact hQ u t hut
  lists := Each.of_rel h.lists hd.lists fun s s' _ hs t ht => by
    obtain ⟨-, helem⟩ := hs
    rw [ht] at helem
    generalize s.elem = elem at helem
    cases helem with
    | some hut => exact hQ _ t hut
  resources := Each.of_rel h.resources hd.resources fun s s' _ hs => hQ _ _ hs
  funcs := Each.of_rel h.funcs hd.funcs fun s s' hcaps ⟨hargs, hret, hlit⟩ => by
    refine ⟨hQ _ _ hret, fun t ht => ?_, ?_⟩
    · obtain ⟨u, -, hut⟩ := exists_of_forall₂_right hargs ht
      exact hQ u t hut
    · rw [hlit]
      exact hcaps.2.2
  maps := Each.of_rel h.maps hd.maps fun s s' _ hs f hf => by
    obtain ⟨g, -, hgf⟩ := exists_of_forall₂_right hs.2 hf
    exact hQ g.2 f.2 hgf.2

end Replaced

section Within

variable {Q : Ty → Ty → Prop} {q : RuntimeEnvelopePolarity} {X M : Ty → Set Val}

theorem within_listProd {ts us : List Ty}
    (h : List.Forall₂ (fun t u => ∀ v, q.Within (v ∈ X u) (v ∈ M t)) ts us) :
    ∀ vs, q.Within (vs ∈ listProd (us.map X)) (vs ∈ listProd (ts.map M)) := by
  induction h with
  | nil => exact fun vs => .of_iff Iff.rfl
  | cons htu _ ih =>
    intro vs
    cases vs with
    | nil => exact .of_iff ⟨fun h => (nomatch h), fun h => (nomatch h)⟩
    | cons v vs =>
      simp only [List.map_cons, cons_mem_listProd]
      exact .and (htu v) (ih vs)

theorem TupleSig.Replaced.within {s s' : TupleSig} (h : s.Replaced Q s')
    (hQ : ∀ t ∈ s.elems, ∀ u, Q t u → ∀ v, q.Within (v ∈ X u) (v ∈ M t)) (vs : List Val) :
    q.Within (s'.Holds X vs) (s.Holds M vs) := by
  exact within_listProd (forall₂_imp_mem h fun t ht u htu => hQ t ht u htu) vs

theorem ListSig.Replaced.within {s s' : ListSig} (h : s.Replaced Q s')
    (hQ : ∀ t, s.elem = some t → ∀ u, Q t u → ∀ v, q.Within (v ∈ X u) (v ∈ M t))
    (vs : List Val) : q.Within ( ListSig.Holds X vs s') ( ListSig.Holds M vs s) := by
  obtain ⟨hempty, helem⟩ := h
  cases vs with
  | nil => exact .of_iff (by simp only [ListSig.Holds, hempty])
  | cons v vs =>
    simp only [ListSig.Holds]
    cases hs : s.elem with
    | none =>
      cases hs' : s'.elem with
      | none => exact .of_iff (iff_of_false (by rintro ⟨_, ⟨⟩, -⟩) (by rintro ⟨_, ⟨⟩, -⟩))
      | some u =>
        rw [hs, hs'] at helem
        cases helem
    | some t =>
      cases hs' : s'.elem with
      | none =>
        rw [hs, hs'] at helem
        cases helem
      | some u =>
        rw [hs, hs'] at helem
        cases helem with
        | some htu =>
          simp only [Option.some.injEq, exists_eq_left']
          exact .forall₂ (List.forall₂_same.mpr fun _ _ => rfl)
            fun w _ w' hw => hw ▸ hQ t hs u htu w

theorem MapSig.Replaced.within {s s' : MapSig} (h : s.Replaced Q s')
    (hQ : s.tag = .plain → ∀ f ∈ s.fields, ∀ u, Q f.2 u → ∀ v, q.Within (v ∈ X u) (v ∈ M f.2))
    (tag : MapTag) (fields : MapKey → Option Val) :
    q.Within (s'.Holds X tag fields) (s.Seen M q tag fields) := by
  obtain ⟨htag, hfields⟩ := h
  cases hs : s.tag with
  | plain =>
    rw [MapSig.seen_plain hs, MapSig.Holds, MapSig.Holds, htag]
    refine .and (.of_iff Iff.rfl) (.forall₂ hfields fun f hf f' ⟨hkey, hff'⟩ => ?_)
    rw [hkey]
    cases hget : fields f.1 with
    | none => exact .of_iff ⟨fun ⟨_, h, _⟩ => (nomatch h), fun ⟨_, h, _⟩ => (nomatch h)⟩
    | some v =>
      simp only [Option.some.injEq, exists_eq_left']
      exact hQ hs f hf f'.2 hff' v
  | struct name =>
    cases q with
    | positive =>
      rw [MapSig.seen_positive hs, ← htag]
      exact And.left
    | negative =>
      rw [MapSig.seen_negative hs]
      rintro ⟨hsame, hnil⟩
      rw [hnil] at hfields
      refine ⟨htag.trans hsame, ?_⟩
      rw [List.forall₂_nil_left_iff.mp hfields]
      exact fun _ h => nomatch h

variable {calls : Calls} {N : RuntimeEnvelopePolarity → Ty → Set Val}
  {P : RuntimeEnvelopePolarity → Ty → Prop} {d d' : Descr}

/-- A descriptor with its types replaced is within its bounds, if the types that replace others are
within theirs. -/
theorem Descr.Replaced.within (calls : Calls) (h : d.Replaced Q d')
    (hQ : ∀ q t u, Q t u → P q t → ∀ v, RuntimeEnvelopePolarity.Within q (v ∈ X u) (v ∈ N q t))
    (hP : d.PolarNaming P q) (harrows : q = .negative →
      Each (fun s => ∀ t ∈ s.ret :: s.args, ∀ u, Q t u → X u = X t) d.funcs) (v : Val) :
    q.Within (d'.Mem calls X v) (admits d.brands v.brand = true ∧
      v.shape.Bounded calls X N q d) := by
  rw [Descr.Mem, h.brands]
  refine .and (.of_iff Iff.rfl) ?_
  cases v.shape with
  | int n => exact .of_iff (by simp only [Shape.In, Shape.Bounded, h.basic])
  | float bits => exact .of_iff (by simp only [Shape.In, Shape.Bounded, h.basic])
  | binary bits => exact .of_iff (by simp only [Shape.In, Shape.Bounded, h.basic])
  | atom name => exact .of_iff (by simp only [Shape.In, Shape.Bounded, h.atoms])
  | opaqueOf tag => exact .of_iff (by simp only [Shape.In, Shape.Bounded, h.opaques])
  | tuple vs =>
    exact PolarHolds.within h.tuples hP.tuples fun q s s' hs hsP =>
      hs.within (fun t ht u htu => hQ q t u htu (hsP t ht)) vs
  | list vs =>
    exact PolarHolds.within h.lists hP.lists fun q s s' hs hsP =>
      hs.within (fun t ht u htu => hQ q t u htu (hsP t ht)) vs
  | resource w =>
    exact PolarHolds.within h.resources hP.resources fun q s s' hs hsP => hQ q _ _ hs hsP w
  | map tag fields =>
    exact PolarHolds.within h.maps hP.maps fun q s s' hs hsP =>
      hs.within (fun htag f hf u hu => hQ q f.2 u hu (hsP htag f hf)) tag fields
  | fn f captures =>
    cases q with
    | positive =>
      rintro ⟨c', hc', hpos, -⟩
      obtain ⟨c, hc, hcc'⟩ := exists_of_forall₂_right h.funcs hc'
      refine ⟨c, hc, fun p hp l hl => ?_⟩
      obtain ⟨p', hp', -, -, hlit⟩ := exists_of_forall₂_left hcc'.1 hp
      have hholds := hpos p' hp'
      rw [ArrowSig.Holds, hlit, hl] at hholds
      exact hholds
    | negative =>
      have hsig : ∀ s s' : ArrowSig, s.Replaced Q s' →
          (∀ t ∈ s.ret :: s.args, ∀ u, Q t u → X u = X t) →
          (s'.Holds calls X f captures ↔ s.Holds calls X f captures) := by
        rintro s s' ⟨hargs, hret, hlit⟩ hsame
        have hargs' : s'.args.map X = s.args.map X :=
          map_eq_of_forall₂ hargs fun t ht u htu => hsame t (.tail _ ht) u htu
        have hret' : X s'.ret = X s.ret := hsame _ (.head _) _ hret
        simp only [ArrowSig.Holds, ArrowSig.Maps, hlit, hargs', hret']
      rintro ⟨c, hc, hpos, hneg⟩
      obtain ⟨c', hc', hcc'⟩ := exists_of_forall₂_left h.funcs hc
      have hsame := harrows rfl c hc
      refine ⟨c', hc', fun s' hs' => ?_, fun s' hs' hholds => ?_⟩
      · obtain ⟨s, hs, hss'⟩ := exists_of_forall₂_right hcc'.1 hs'
        exact (hsig s s' hss' (hsame.1 s hs)).mpr (hpos s hs)
      · obtain ⟨s, hs, hss'⟩ := exists_of_forall₂_right hcc'.2 hs'
        exact hneg s hs ((hsig s s' hss' (hsame.2 s hs)).mp hholds)

end Within

theorem Descr.Replaced.refl (d : Descr) : d.Replaced (fun t u => u = t) d where
  basic := rfl
  atoms := rfl
  opaques := rfl
  brands := rfl
  tuples := List.forall₂_same.mpr fun c _ =>
    .refl (fun s => by
      rw [TupleSig.Replaced, List.forall₂_same]
      exact fun _ _ => rfl) c
  lists := List.forall₂_same.mpr fun c _ => .refl (fun s => ⟨rfl, by
    cases s.elem with
    | none => exact .none
    | some t => exact .some rfl⟩) c
  resources := List.forall₂_same.mpr fun c _ =>
    .refl (fun s : ResourceSig => (rfl : s.Replaced _ s)) c
  funcs := List.forall₂_same.mpr fun c _ =>
    .refl (fun s => ⟨List.forall₂_same.mpr fun _ _ => rfl, rfl, rfl⟩) c
  maps := List.forall₂_same.mpr fun c _ =>
    .refl (fun s => ⟨rfl, List.forall₂_same.mpr fun _ _ => ⟨rfl, rfl⟩⟩) c

theorem PolarEach.of_forall {T : Type} {P : RuntimeEnvelopePolarity → T → Prop}
    (h : ∀ q s, P q s) (q : RuntimeEnvelopePolarity) (cs : List (Conj T)) : PolarEach P q cs :=
  fun _ _ => ⟨fun s _ => h q s, fun s _ => h q.flipped s⟩

variable {cx cx' : TyCtx} {calls : Calls}

theorem TyCtx.within_bound_zero {q : RuntimeEnvelopePolarity} {t : Ty} {X : Set Val} {v : Val} :
    q.Within (v ∈ X) (v ∈ cx.bound calls 0 q t) := by
  cases q with
  | positive => exact fun _ => Set.mem_univ v
  | negative => exact fun h => h.elim

/-- The values are within the bounds of a type, at every depth. -/
def WithinBounds (cx : TyCtx) (calls : Calls) (t : Ty) (X : Set Val) : Prop :=
  ∀ n q, NegativeArrowsGround cx n q t → ∀ v,
    RuntimeEnvelopePolarity.Within q (v ∈ X) (v ∈ cx.bound calls n q t)

theorem TyCtx.meaning_within_bound (n : Nat) : ∀ (q : RuntimeEnvelopePolarity) (t : Ty) (v : Val),
    q.Within (v ∈ cx.meaning calls t) (v ∈ cx.bound calls n q t) := by
  induction n with
  | zero => exact fun _ _ _ => within_bound_zero
  | succ n ih =>
    intro q t v
    have hwithin := (Descr.Replaced.refl (cx.descr t)).within calls (q := q)
      (X := cx.meaning calls) (N := cx.bound calls n) (P := fun _ _ => True)
      (fun q t u htu _ => htu ▸ ih q t)
      ⟨.of_forall (fun _ _ _ _ => trivial) _ _, .of_forall (fun _ _ _ _ => trivial) _ _,
        .of_forall (fun _ _ => trivial) _ _, .of_forall (fun _ _ _ _ _ => trivial) _ _⟩
      (fun _ _ _ => ⟨fun _ _ _ _ _ h => h ▸ rfl, fun _ _ _ _ _ h => h ▸ rfl⟩) v
    show q.Within (v ∈ (cx.descr t).meaning cx calls) _
    rw [Descr.mem_meaning]
    cases q with
    | positive => exact fun h => .inr (hwithin h)
    | negative =>
      rintro (⟨h, -⟩ | h)
      · exact nomatch h
      · exact hwithin h

/-! ## Larger arenas -/

theorem TyCtx.Extends.hasVarsAt_eq (h : cx.Extends cx') (n : Nat) : ∀ {d : Descr}, cx.Knows d →
    d.hasVarsAt cx' n = d.hasVarsAt cx n := by
  induction n with
  | zero => exact fun _ => rfl
  | succ n ih =>
    intro d hd
    rw [Descr.hasVarsAt, Descr.hasVarsAt]
    congr 1
    refine any_congr_mem fun t ht => ?_
    rw [h.descr_eq (TyCtx.knows_iff.mp hd t ht)]
    exact ih (cx.knows_descr t)

theorem TyCtx.Extends.hasVars_eq (h : cx.Extends cx') {d : Descr} (hd : cx.Knows d) :
    d.hasVars cx' = d.hasVars cx := h.hasVarsAt_eq d.rank hd

theorem PolarEach.imp {T : Type} {P P' : RuntimeEnvelopePolarity → T → Prop} {K : T → Prop}
    {q : RuntimeEnvelopePolarity} {cs : List (Conj T)} (h : PolarEach P q cs) (hK : Each K cs)
    (himp : ∀ q s, K s → P q s → P' q s) : PolarEach P' q cs :=
  fun c hc => ⟨fun s hs => himp q s ((hK c hc).1 s hs) ((h c hc).1 s hs),
    fun s hs => himp q.flipped s ((hK c hc).2 s hs) ((h c hc).2 s hs)⟩

theorem NegativeArrowsGround.of_extends (h : cx.Extends cx') (n : Nat) :
    ∀ {q : RuntimeEnvelopePolarity} {t : Ty}, t < cx.arena.length →
      NegativeArrowsGround cx n q t → NegativeArrowsGround cx' n q t := by
  induction n with
  | zero => exact fun _ _ => trivial
  | succ n ih =>
    intro q t ht hground
    have hknows := cx.knows_descr t
    rw [NegativeArrowsGround, h.descr_eq ht]
    refine hground.imp id fun ⟨harrows, hnaming⟩ => ⟨fun hq c hc => ?_, ?_⟩
    · have hsig : ∀ s : ArrowSig, (SigPred.naming (· < cx.arena.length)).arrow s →
          (∀ u ∈ s.ret :: s.args, (cx.descr u).hasVars cx = false) →
          ∀ u ∈ s.ret :: s.args, (cx'.descr u).hasVars cx' = false := by
        rintro s ⟨hret, hargs, -⟩ hs u hu
        have hlt : u < cx.arena.length := by
          rcases List.mem_cons.mp hu with rfl | hu
          · exact hret
          · exact hargs u hu
        rw [h.descr_eq hlt, h.hasVars_eq (cx.knows_descr u)]
        exact hs u hu
      exact ⟨fun s hs => hsig s ((hknows.funcs c hc).1 s hs) ((harrows hq c hc).1 s hs),
        fun s hs => hsig s ((hknows.funcs c hc).2 s hs) ((harrows hq c hc).2 s hs)⟩
    · exact ⟨hnaming.tuples.imp hknows.tuples fun q s hs hP t ht => ih (hs t ht) (hP t ht),
        hnaming.lists.imp hknows.lists fun q s hs hP t ht => ih (hs t ht) (hP t ht),
        hnaming.resources.imp hknows.resources fun q s hs hP => ih hs hP,
        hnaming.maps.imp hknows.maps fun q s hs hP htag f hf => ih (hs f hf) (hP htag f hf)⟩

end Fz.Types
