import Fz.Base.Antichain
import Fz.Base.Run
import Fz.Base.Wp
import Fz.Types.Dominance

/-!
# Rows of activation inputs

The inputs of an activation arrive as rows of types.  A row set keeps an antichain of them, in the
activation order, with the join of each column.  An incoming row is dropped when a standing row says
the same or dominates it, and takes the place of the standing rows it dominates.  More than eight
rows are replaced by the one row of their joins.

Joins are interned, so the operations are computations on the store of types.
-/

namespace Fz.Facts

open Base Types
open Terms ( FunctionDenotation)

/-- How an operation on a row set can fail. -/
inductive RowFault where
  | types (fault : Fault)
  /-- The rows of one activation have one arity. -/
  | arity
  deriving DecidableEq

abbrev RowM := StateT Types (Except RowFault)

/-- What an operation reads besides the store: the storage order and the rounds of interning, and
the addresses and origins that the activation order is read from. -/
structure RowEnv where
  order : ClauseOrder
  rounds : Nat
  paths : List (List AddrStep)
  origins : Nat → FunctionDenotation

abbrev ActivationInputRow := List Ty

structure ActivationInputAlternatives where
  rows : List ActivationInputRow
  joined : List Ty

def ACTIVATION_INPUT_ROW_BUDGET : Nat := 8

/-! ## Joins of columns -/

section Columns

variable (env : RowEnv)

def joinUnion (a b : Ty) : RowM Ty := fun types =>
  match types.union env.order env.rounds a b with
  | .ok (t, s) => .ok (t, s.toTypes)
  | .error fault => .error (.types fault)

def joinColumn (current next : Ty) : RowM Ty := do
  let types ← get
  if current = next ∨ types.cx.isEquivalent current next then pure current
  else joinUnion env current next

def joinColumns : List Ty → List Ty → RowM (List Ty)
  | [], [] => pure []
  | current :: currents, next :: nexts => do
    let joined ← joinColumn env current next
    let rest ← joinColumns currents nexts
    pure (joined :: rest)
  | _, _ => throw .arity

/-- The pointwise join of two rows, with the empty row as the bottom. -/
def joinRow (current next : List Ty) : RowM (List Ty) :=
  if current.isEmpty then pure next else joinColumns env current next

def joinRows : List Ty → List ActivationInputRow → RowM (List Ty)
  | joined, [] => pure joined
  | joined, row :: rows => do
    let joined ← joinRow env joined row
    joinRows joined rows

end Columns

/-! ## Row sets -/

namespace ActivationInputAlternatives

variable (env : RowEnv)

def bottom : ActivationInputAlternatives := ⟨[], []⟩

def fromRow (columns : List Ty) : ActivationInputAlternatives := ⟨[columns], columns⟩

/-- Insert one row, keeping the rows an antichain. -/
def insertRow (rows : List ActivationInputRow) (row : ActivationInputRow) :
    RowM (List ActivationInputRow) := do
  let types ← get
  if rows.head?.any fun first => first.length ≠ row.length then throw .arity
  else pure (offer types.cx.rowEquivalent types.cx.rowDominates rows row)

def insertRows : List ActivationInputRow → List ActivationInputRow → RowM (List ActivationInputRow)
  | rows, [] => pure rows
  | rows, row :: rest => do
    let rows ← insertRow rows row
    insertRows rows rest

/-- Sort the rows, join their columns, and collapse them if they are too many. -/
def rebuild (rows : List ActivationInputRow) : RowM ActivationInputAlternatives := do
  let types ← get
  let rows := sortBy (cmpActivationTys env.paths env.origins types.cx) rows
  let joined ← joinRows env [] rows
  if rows.length > ACTIVATION_INPUT_ROW_BUDGET then pure ⟨[joined], joined⟩
  else pure ⟨rows, joined⟩

def pushRow (set : ActivationInputAlternatives) (columns : List Ty) :
    RowM ActivationInputAlternatives := do
  let rows ← insertRow set.rows columns
  rebuild env rows

def joinAssign (set other : ActivationInputAlternatives) : RowM ActivationInputAlternatives :=
  if set.rows.isEmpty then pure other
  else do
    let rows ← insertRows set.rows other.rows
    rebuild env rows

def equivalent (cx : TyCtx) (set other : ActivationInputAlternatives) : Bool :=
  set.rows.length = other.rows.length &&
    (set.rows.zip other.rows).all fun (left, right) => cx.rowEquivalent left right

end ActivationInputAlternatives

/-! ## Judgements that joins respect -/

/-- A set of types of the store, closed under joins, and a preorder on it that follows from
subtyping and has joins as upper bounds.  Both survive the growth of the store. -/
structure Respected (env : RowEnv) (S : TyCtx → Ty → Prop) (B : TyCtx → Ty → Ty → Prop) : Prop where
  known : ∀ {cx t}, S cx t → t < cx.arena.length
  grows : ∀ {cx cx' t}, cx.Extends cx' → S cx t → S cx' t
  keeps : ∀ {cx cx' a b}, cx.Extends cx' → S cx a → S cx b → B cx a b → B cx' a b
  subtype : ∀ {cx a b}, S cx a → S cx b → cx.isSubtype a b = true → B cx a b
  trans : ∀ {cx a b c}, S cx a → S cx b → S cx c → B cx a b → B cx b c → B cx a c
  union : ∀ {types : Types} {a b t s}, S types.cx a → S types.cx b →
    types.union env.order env.rounds a b = .ok (t, s) → S s.cx t ∧ B s.cx a t ∧ B s.cx b t

variable {env : RowEnv} {S : TyCtx → Ty → Prop} {B : TyCtx → Ty → Ty → Prop}

namespace Respected

variable (h : Respected env S B)

include h

theorem refl {cx : TyCtx} {t : Ty} (ht : S cx t) : B cx t t :=
  h.subtype ht ht (TyCtx.isSubtype_refl t)

theorem knowsRow {cx : TyCtx} {row : List Ty} (hrow : ∀ t ∈ row, S cx t) : cx.KnowsRow row :=
  fun t ht => h.known (hrow t ht)

theorem row_of_below {cx : TyCtx} {a b : List Ty} (ha : ∀ t ∈ a, S cx t) (hb : ∀ t ∈ b, S cx t)
    (hab : cx.RowBelow a b) : List.Forall₂ (B cx) a b := by
  induction hab with
  | nil => exact .nil
  | cons hxy _ ih =>
    obtain ⟨hx, ha⟩ := List.forall_mem_cons.mp ha
    obtain ⟨hy, hb⟩ := List.forall_mem_cons.mp hb
    exact .cons (h.subtype hx hy hxy) (ih ha hb)

theorem row_refl {cx : TyCtx} {row : List Ty} (hrow : ∀ t ∈ row, S cx t) :
    List.Forall₂ (B cx) row row := by
  induction row with
  | nil => exact .nil
  | cons t row ih =>
    obtain ⟨ht, hrow⟩ := List.forall_mem_cons.mp hrow
    exact .cons (h.refl ht) (ih hrow)

theorem row_trans {cx : TyCtx} {a b c : List Ty} (ha : ∀ t ∈ a, S cx t) (hb : ∀ t ∈ b, S cx t)
    (hc : ∀ t ∈ c, S cx t) (hab : List.Forall₂ (B cx) a b) (hbc : List.Forall₂ (B cx) b c) :
    List.Forall₂ (B cx) a c := by
  induction hab generalizing c with
  | nil => exact hbc
  | cons hxy _ ih =>
    cases hbc with
    | cons hyz hbc =>
      obtain ⟨hx, ha⟩ := List.forall_mem_cons.mp ha
      obtain ⟨hy, hb⟩ := List.forall_mem_cons.mp hb
      obtain ⟨hz, hc⟩ := List.forall_mem_cons.mp hc
      exact .cons (h.trans hx hy hz hxy hyz) (ih ha hb hc hbc)

theorem row_keeps {cx cx' : TyCtx} (hext : cx.Extends cx') {a b : List Ty}
    (ha : ∀ t ∈ a, S cx t) (hb : ∀ t ∈ b, S cx t) (hab : List.Forall₂ (B cx) a b) :
    List.Forall₂ (B cx') a b := by
  induction hab with
  | nil => exact .nil
  | cons hxy _ ih =>
    obtain ⟨hx, ha⟩ := List.forall_mem_cons.mp ha
    obtain ⟨hy, hb⟩ := List.forall_mem_cons.mp hb
    exact .cons (h.keeps hext hx hy hxy) (ih ha hb)

/-! ### Joins -/

theorem wp_joinColumn {a b : Ty} {s : Types} (ha : S s.cx a) (hb : S s.cx b) :
    wp (joinColumn env a b) (fun t s' => s.cx.Extends s'.cx ∧ S s'.cx t ∧ B s'.cx a t ∧ B s'.cx b t)
      (fun _ => False) s := by
  unfold joinColumn
  simp only [wp_bind, wp_get]
  split
  · rename_i hsame
    refine ⟨List.prefix_rfl, ha, h.refl ha, ?_⟩
    rcases hsame with rfl | hsame
    · exact h.refl ha
    · exact h.subtype hb ha (TyCtx.isEquivalent_iff.mp hsame).2
  · obtain ⟨t, s', hunion, _, hext⟩ := s.union_grows env.order env.rounds (h.known ha) (h.known hb)
    have hrun : joinUnion env a b s = .ok (t, s'.toTypes) := by rw [joinUnion, hunion]
    exact wp_of_ok hrun ⟨hext, h.union ha hb hunion⟩

theorem wp_joinColumns {a b : List Ty} {s : Types} (ha : ∀ t ∈ a, S s.cx t)
    (hb : ∀ t ∈ b, S s.cx t) : wp (joinColumns env a b)
      (fun joined s' => s.cx.Extends s'.cx ∧ (∀ t ∈ joined, S s'.cx t) ∧
        List.Forall₂ (B s'.cx) a joined ∧ List.Forall₂ (B s'.cx) b joined)
      (fun e => a.length ≠ b.length ∧ e = .arity) s := by
  induction a generalizing b s with
  | nil =>
    cases b with
    | nil => exact ⟨List.prefix_rfl, nofun, .nil, .nil⟩
    | cons y b => exact ⟨nofun, rfl⟩
  | cons x a ih =>
    cases b with
    | nil => exact ⟨nofun, rfl⟩
    | cons y b =>
      obtain ⟨hx, ha⟩ := List.forall_mem_cons.mp ha
      obtain ⟨hy, hb⟩ := List.forall_mem_cons.mp hb
      rw [joinColumns, wp_bind]
      refine (h.wp_joinColumn hx hy).mono ?_ nofun
      rintro t s₁ ⟨hext₁, ht, hxt, hyt⟩
      rw [wp_bind]
      refine (ih (fun t ht => h.grows hext₁ (ha t ht)) fun t ht => h.grows hext₁ (hb t ht)).mono ?_
        ?_
      · rintro joined s₂ ⟨hext₂, hjoined, haj, hbj⟩
        refine ⟨hext₁.trans hext₂, List.forall_mem_cons.mpr ⟨h.grows hext₂ ht, hjoined⟩, ?_, ?_⟩
        · exact .cons (h.keeps hext₂ (h.grows hext₁ hx) ht hxt) haj
        · exact .cons (h.keeps hext₂ (h.grows hext₁ hy) ht hyt) hbj
      · rintro e ⟨hlen, rfl⟩
        exact ⟨fun heq => hlen (Nat.succ.inj heq), rfl⟩

/-- The join of rows of one arity covers them. -/
theorem wp_joinRows (before : List ActivationInputRow) {n : Nat} {joined : List Ty}
    {rows : List ActivationInputRow} {s : Types}
    (hjoined : ∀ t ∈ joined, S s.cx t) (hlength : joined = [] ∨ joined.length = n)
    (hrows : ∀ r ∈ rows, r.length = n ∧ ∀ t ∈ r, S s.cx t)
    (hbefore : ∀ r ∈ before, r.length = n ∧ (∀ t ∈ r, S s.cx t) ∧ List.Forall₂ (B s.cx) r joined) :
    wp (joinRows env joined rows) (fun out s' => s.cx.Extends s'.cx ∧ (∀ t ∈ out, S s'.cx t) ∧
        ∀ r ∈ before ++ rows, List.Forall₂ (B s'.cx) r out) (fun _ => False) s := by
  induction rows generalizing joined before s with
  | nil => exact ⟨List.prefix_rfl, hjoined, fun r hr => (hbefore r (by simpa using hr)).2.2⟩
  | cons row rows ih =>
    obtain ⟨⟨hlen, hrow⟩, hrows⟩ := List.forall_mem_cons.mp hrows
    have hstep : wp (joinRow env joined row)
        (fun out s' => s.cx.Extends s'.cx ∧ (∀ t ∈ out, S s'.cx t) ∧
          ∀ r ∈ before ++ [row], List.Forall₂ (B s'.cx) r out) (fun _ => False) s := by
      unfold joinRow
      split
      · rename_i hnil
        rw [List.isEmpty_iff] at hnil
        subst hnil
        refine ⟨List.prefix_rfl, hrow, fun r hr => ?_⟩
        rcases List.mem_append.mp hr with hr | hr
        -- the rows so far are empty, so this one is
        · obtain ⟨hr, _, hbelow⟩ := hbefore r hr
          cases hbelow
          obtain rfl := List.eq_nil_of_length_eq_zero (hlen.trans hr.symm)
          exact .nil
        · rw [List.mem_singleton.mp hr]
          exact h.row_refl hrow
      · rename_i hcons
        have hsame : joined.length = row.length := by
          rcases hlength with rfl | hlength
          · exact absurd rfl hcons
          · exact hlength.trans hlen.symm
        refine (h.wp_joinColumns hjoined hrow).mono ?_ fun _ he => he.1 hsame
        rintro out s' ⟨hext, hout, hcurrent, hnext⟩
        refine ⟨hext, hout, fun r hr => ?_⟩
        rcases List.mem_append.mp hr with hr | hr
        · obtain ⟨_, hr, hbelow⟩ := hbefore r hr
          have hgrow : ∀ {ts : List Ty}, (∀ t ∈ ts, S s.cx t) → ∀ t ∈ ts, S s'.cx t :=
            fun hts t ht => h.grows hext (hts t ht)
          exact h.row_trans (hgrow hr) (hgrow hjoined) hout (h.row_keeps hext hr hjoined hbelow)
            hcurrent
        · rw [List.mem_singleton.mp hr]
          exact hnext
    rw [joinRows, wp_bind]
    refine hstep.imp ?_
    rintro joined₁ s₁ ⟨hext₁, hjoined₁, hcovers₁⟩
    have hlast := hcovers₁ row (List.mem_append_right _ (List.mem_singleton_self row))
    refine (ih _ hjoined₁ (.inr (hlast.length_eq.symm.trans hlen))
      (fun r hr => ⟨(hrows r hr).1, fun t ht => h.grows hext₁ ((hrows r hr).2 t ht)⟩)
      (fun r hr => ⟨?_, fun t ht => h.grows hext₁ ?_, hcovers₁ r hr⟩)).imp ?_
    · rcases List.mem_append.mp hr with hr | hr
      · exact (hbefore r hr).1
      · exact List.mem_singleton.mp hr ▸ hlen
    · rcases List.mem_append.mp hr with hr | hr
      · exact (hbefore r hr).2.1 t ht
      · exact hrow t (List.mem_singleton.mp hr ▸ ht)
    · rintro out s₂ ⟨hext₂, hout, hall⟩
      refine ⟨hext₁.trans hext₂, hout, fun r hr => hall r ?_⟩
      rwa [List.append_assoc, List.singleton_append]

end Respected

/-! ## What a row set keeps -/

/-- The rows of a set in the making: an antichain of one arity that covers what was inserted. -/
structure Standing (S : TyCtx → Ty → Prop) (B : TyCtx → Ty → Ty → Prop) (cx : TyCtx)
    (inserted rows : List ActivationInputRow) : Prop where
  types : ∀ r ∈ rows, ∀ t ∈ r, S cx t
  inserted_types : ∀ r ∈ inserted, ∀ t ∈ r, S cx t
  arity : ∃ n, ∀ r ∈ rows, r.length = n
  incomparable : rows.Pairwise (Incomparable cx.rowDominates)
  covers : ∀ r ∈ inserted, ∃ s ∈ rows, List.Forall₂ (B cx) r s

/-- A row set after an operation. -/
structure Kept (S : TyCtx → Ty → Prop) (B : TyCtx → Ty → Ty → Prop) (cx : TyCtx)
    (inserted : List ActivationInputRow) (set : ActivationInputAlternatives) : Prop
    extends Standing S B cx inserted set.rows where
  budget : set.rows.length ≤ ACTIVATION_INPUT_ROW_BUDGET
  joined_types : ∀ t ∈ set.joined, S cx t
  joined_covers : ∀ r ∈ inserted, List.Forall₂ (B cx) r set.joined

section Keeps

variable (h : Respected env S B) {cx cx' : TyCtx} {inserted rows : List ActivationInputRow}
  {set other : ActivationInputAlternatives}

include h

theorem Standing.grows (hs : Standing S B cx inserted rows) (hext : cx.Extends cx') :
    Standing S B cx' inserted rows where
  types r hr t ht := h.grows hext (hs.types r hr t ht)
  inserted_types r hr t ht := h.grows hext (hs.inserted_types r hr t ht)
  arity := hs.arity
  incomparable := by
    refine List.Pairwise.imp_of_mem (fun {a b} ha hb hab => ?_) hs.incomparable
    have ha := h.knowsRow (hs.types a ha)
    have hb := h.knowsRow (hs.types b hb)
    exact ⟨(hext.rowDominates_eq ha hb).trans hab.1, (hext.rowDominates_eq hb ha).trans hab.2⟩
  covers r hr := by
    obtain ⟨s, hs', hbelow⟩ := hs.covers r hr
    exact ⟨s, hs', h.row_keeps hext (hs.inserted_types r hr) (hs.types s hs') hbelow⟩

theorem Kept.grows (hs : Kept S B cx inserted set) (hext : cx.Extends cx') :
    Kept S B cx' inserted set where
  toStanding := hs.toStanding.grows h hext
  budget := hs.budget
  joined_types t ht := h.grows hext (hs.joined_types t ht)
  joined_covers r hr :=
    h.row_keeps hext (hs.inserted_types r hr) hs.joined_types (hs.joined_covers r hr)

theorem Standing.offer {row : ActivationInputRow} (hs : Standing S B cx inserted rows)
    (hrow : ∀ t ∈ row, S cx t) (harity : ∀ first ∈ rows.head?, first.length = row.length) :
    Standing S B cx (inserted ++ [row]) (offer cx.rowEquivalent cx.rowDominates rows row) where
  types r hr := by
    rcases mem_of_mem_offer hr with hr | rfl
    · exact hs.types r hr
    · exact hrow
  inserted_types r hr := by
    rcases List.mem_append.mp hr with hr | hr
    · exact hs.inserted_types r hr
    · exact List.mem_singleton.mp hr ▸ hrow
  arity := by
    obtain ⟨n, hn⟩ := hs.arity
    refine ⟨row.length, fun r hr => ?_⟩
    rcases mem_of_mem_offer hr with hr | rfl
    · cases rows with
      | nil => cases hr
      | cons first rows =>
        exact ((hn r hr).trans (hn first (.head _)).symm).trans (harity first rfl)
    · rfl
  incomparable := offer_incomparable hs.incomparable
  covers r hr := by
    have hbelow : ∀ {a b : ActivationInputRow}, (∀ t ∈ a, S cx t) → (∀ t ∈ b, S cx t) →
        cx.rowDominates a b = true → List.Forall₂ (B cx) a b := fun ha hb hdom =>
      h.row_of_below ha hb (TyCtx.rowBelow_of_dominates hdom)
    refine offer_covers (R := List.Forall₂ (B cx)) (h.row_refl hrow) (fun s hs' hsame => ?_)
      (fun s hs' => hbelow hrow (hs.types s hs')) (fun s hs' => hbelow (hs.types s hs') hrow)
      (fun r hr s hs' hrs hsrow => ?_) hs.covers r ?_
    · exact h.row_of_below hrow (hs.types s hs') (TyCtx.rowEquivalent_iff.mp hsame).2
    · exact h.row_trans (hs.inserted_types r hr) (hs.types s hs') hrow hrs hsrow
    · rcases List.mem_append.mp hr with hr | hr
      · exact .inl hr
      · exact .inr (List.mem_singleton.mp hr)

theorem Standing.wp_insertRow {row : ActivationInputRow} {s : Types}
    (hs : Standing S B s.cx inserted rows) (hrow : ∀ t ∈ row, S s.cx t) :
    wp (ActivationInputAlternatives.insertRow rows row)
      (fun rows' s' => s' = s ∧ Standing S B s.cx (inserted ++ [row]) rows')
      (fun e => e = .arity) s := by
  rw [ActivationInputAlternatives.insertRow, wp_bind, wp_get]
  split
  · exact rfl
  · rename_i harity
    refine ⟨rfl, hs.offer h hrow fun first hfirst => ?_⟩
    by_contra hne
    refine harity ?_
    rw [Option.mem_def.mp hfirst]
    exact decide_eq_true hne

theorem Standing.wp_insertRows {more : List ActivationInputRow} {s : Types}
    (hs : Standing S B s.cx inserted rows) (hmore : ∀ r ∈ more, ∀ t ∈ r, S s.cx t) :
    wp (ActivationInputAlternatives.insertRows rows more)
      (fun rows' s' => s' = s ∧ Standing S B s.cx (inserted ++ more) rows')
      (fun e => e = .arity) s := by
  induction more generalizing rows inserted with
  | nil => exact ⟨rfl, (List.append_nil inserted).symm ▸ hs⟩
  | cons row more ih =>
    obtain ⟨hrow, hmore⟩ := List.forall_mem_cons.mp hmore
    rw [ActivationInputAlternatives.insertRows, wp_bind]
    refine (hs.wp_insertRow h hrow).imp ?_
    rintro rows₁ s₁ ⟨rfl, hs₁⟩
    have hrest := ih hs₁ hmore
    rwa [List.append_assoc, List.singleton_append] at hrest

theorem Standing.wp_rebuild {s : Types} (hs : Standing S B s.cx inserted rows) :
    wp (ActivationInputAlternatives.rebuild env rows)
      (fun set s' => s.cx.Extends s'.cx ∧ Kept S B s'.cx inserted set) (fun _ => False) s := by
  obtain ⟨n, hn⟩ := hs.arity
  unfold ActivationInputAlternatives.rebuild
  rw [wp_bind, wp_get]
  have hperm : (sortBy (cmpActivationTys env.paths env.origins s.cx) rows).Perm rows :=
    List.perm_insertionSort _ rows
  generalize sortBy (cmpActivationTys env.paths env.origins s.cx) rows = ordered at hperm
  dsimp only
  rw [wp_bind]
  have hnil : ∀ t ∈ ([] : List Ty), S s.cx t := nofun
  refine (h.wp_joinRows [] (n := n) hnil (.inl rfl) (fun r hr => ?_) nofun).imp ?_
  · exact ⟨hn r (hperm.mem_iff.mp hr), hs.types r (hperm.mem_iff.mp hr)⟩
  · rintro joined s' ⟨hext, hjoined, hcovers⟩
    have hs' := hs.grows h hext
    have hall : ∀ r ∈ inserted, List.Forall₂ (B s'.cx) r joined := by
      intro r hr
      obtain ⟨row, hrow, hbelow⟩ := hs'.covers r hr
      exact h.row_trans (hs'.inserted_types r hr) (hs'.types row hrow) hjoined hbelow
        (hcovers row (hperm.mem_iff.mpr hrow))
    split
    · refine ⟨hext, ⟨?_, hs'.inserted_types, ⟨joined.length, ?_⟩, List.pairwise_singleton _ _, ?_⟩,
        ?_, hjoined, hall⟩
      · exact fun r hr => List.mem_singleton.mp hr ▸ hjoined
      · exact fun r hr => List.mem_singleton.mp hr ▸ rfl
      · exact fun r hr => ⟨joined, List.mem_singleton_self joined, hall r hr⟩
      · exact Nat.le_add_left 1 7
    · rename_i hbudget
      refine ⟨hext, ⟨?_, hs'.inserted_types, ⟨n, ?_⟩, ?_, ?_⟩, Nat.le_of_not_lt hbudget, hjoined,
        hall⟩
      · exact fun r hr => hs'.types r (hperm.mem_iff.mp hr)
      · exact fun r hr => hn r (hperm.mem_iff.mp hr)
      · exact hperm.symm.pairwise hs'.incomparable fun hab => ⟨hab.2, hab.1⟩
      · intro r hr
        obtain ⟨row, hrow, hbelow⟩ := hs'.covers r hr
        exact ⟨row, hperm.mem_iff.mpr hrow, hbelow⟩

theorem Kept.wp_pushRow {columns : List Ty} {s : Types} (hs : Kept S B s.cx inserted set)
    (hcolumns : ∀ t ∈ columns, S s.cx t) : wp (set.pushRow env columns)
      (fun set' s' => s.cx.Extends s'.cx ∧ Kept S B s'.cx (inserted ++ [columns]) set')
      (fun e => e = .arity) s := by
  rw [ActivationInputAlternatives.pushRow, wp_bind]
  refine (hs.toStanding.wp_insertRow h hcolumns).imp ?_
  rintro rows s' ⟨rfl, hs'⟩
  exact (hs'.wp_rebuild h).mono (fun _ _ hkept => hkept) nofun

theorem Kept.wp_joinAssign {inserted' : List ActivationInputRow} {s : Types}
    (hs : Kept S B s.cx inserted set) (hother : Kept S B s.cx inserted' other) :
    wp (set.joinAssign env other)
      (fun set' s' => s.cx.Extends s'.cx ∧ Kept S B s'.cx (inserted ++ inserted') set')
      (fun e => e = .arity) s := by
  unfold ActivationInputAlternatives.joinAssign
  split
  · rename_i hempty
    have hnil : inserted = [] := by
      refine List.eq_nil_iff_forall_not_mem.mpr fun r hr => ?_
      obtain ⟨row, hrow, _⟩ := hs.covers r hr
      rw [List.isEmpty_iff.mp hempty] at hrow
      cases hrow
    subst hnil
    exact ⟨List.prefix_rfl, hother⟩
  · rw [wp_bind]
    refine (hs.toStanding.wp_insertRows h hother.types).imp ?_
    rintro rows s' ⟨rfl, hrows⟩
    have hall : Standing S B s'.cx (inserted ++ inserted') rows := by
      refine ⟨hrows.types, fun r hr => ?_, hrows.arity, hrows.incomparable, fun r hr => ?_⟩
      · rcases List.mem_append.mp hr with hr | hr
        · exact hs.inserted_types r hr
        · exact hother.inserted_types r hr
      · rcases List.mem_append.mp hr with hr | hr
        · exact hrows.covers r (List.mem_append_left _ hr)
        · obtain ⟨row, hrow, hbelow⟩ := hother.covers r hr
          obtain ⟨standing, hstanding, hcovers⟩ := hrows.covers row (List.mem_append_right _ hrow)
          exact ⟨standing, hstanding, h.row_trans (hother.inserted_types r hr)
            (hother.types row hrow) (hrows.types standing hstanding) hbelow hcovers⟩
    exact (hall.wp_rebuild h).mono (fun _ _ hkept => hkept) nofun

theorem Kept.fromRow {columns : List Ty} (hcolumns : ∀ t ∈ columns, S cx t) :
    Kept S B cx [columns] (.fromRow columns) where
  types r hr := List.mem_singleton.mp hr ▸ hcolumns
  inserted_types r hr := List.mem_singleton.mp hr ▸ hcolumns
  arity := ⟨columns.length, fun r hr => List.mem_singleton.mp hr ▸ rfl⟩
  incomparable := List.pairwise_singleton _ _
  covers r hr := by
    rw [List.mem_singleton.mp hr]
    exact ⟨columns, List.mem_singleton_self columns, h.row_refl hcolumns⟩
  budget := Nat.le_add_left 1 7
  joined_types := hcolumns
  joined_covers r hr := by
    rw [List.mem_singleton.mp hr]
    exact h.row_refl hcolumns

omit h in
theorem Kept.bottom : Kept S B cx [] .bottom where
  types := nofun
  inserted_types := nofun
  arity := ⟨0, nofun⟩
  incomparable := .nil
  covers := nofun
  budget := Nat.zero_le _
  joined_types := nofun
  joined_covers := nofun

end Keeps

end Fz.Facts
