import Fz.Base.Except
import Fz.Facts.Rows

/-!
# Runs of row sets

Row sets are built from single rows, by pushing rows and by joining other row sets, in any order and
over one store of types that other work grows as well.  In every state of a run the rows of a set
are an antichain of at most eight rows.

That every row ever inserted stays below a row of the set, and below the joins, is not true of every
run.  A row is skipped when a standing row is equivalent to it, and that row can later be absorbed
by one that is above it and not above the row that was skipped, because subtyping is not transitive
on closure literals.  It is true when the columns are taken from types on which subtyping is
transitive and joins are upper bounds (`Lawful`).
-/

namespace Fz.Facts

open Base Types

/-- Row sets by number over one store, with what was ever inserted into each.  No operation reads
the record of what was inserted. -/
structure RowSystem where
  types : Types
  sets : Nat → ActivationInputAlternatives
  inserted : Nat → List ActivationInputRow

inductive RowOp where
  | fromRow (i : Nat) (columns : List Ty)
  | pushRow (i : Nat) (columns : List Ty)
  | joinAssign (i j : Nat)
  /-- The store is used elsewhere. -/
  | intern (d : Descr)

namespace RowSystem

variable (env : RowEnv)

def start (types : Types) : RowSystem := ⟨types, fun _ => .bottom, fun _ => []⟩

/-- A set is replaced. -/
def put (s : RowSystem) (i : Nat) (inserted : List ActivationInputRow)
    (result : ActivationInputAlternatives × Types) : RowSystem where
  types := result.2
  sets := Function.update s.sets i result.1
  inserted := Function.update s.inserted i inserted

def knows (s : RowSystem) (columns : List Ty) : Bool :=
  columns.all fun t => t < s.types.cx.arena.length

/-- One call.  The types that an argument names are types of the store. -/
def step (s : RowSystem) : RowOp → Option (RowSystem × List Unit)
  | .fromRow i columns =>
    if s.knows columns then some (s.put i [columns] (.fromRow columns, s.types), []) else none
  | .pushRow i columns =>
    if s.knows columns then
      (((s.sets i).pushRow env columns s.types).toOption).map fun result =>
        (s.put i (s.inserted i ++ [columns]) result, [])
    else none
  | .joinAssign i j =>
    (((s.sets i).joinAssign env (s.sets j) s.types).toOption).map fun result =>
      (s.put i (s.inserted i ++ s.inserted j) result, [])
  | .intern d =>
    if s.knows d.children then
      ((s.types.intern env.order env.rounds d).toOption).map fun result =>
        ({ s with types := result.2.toTypes }, [])
    else none

/-- The columns that an operation inserts. -/
def columnsOf : RowOp → List Ty
  | .fromRow _ columns => columns
  | .pushRow _ columns => columns
  | .joinAssign _ _ => []
  | .intern _ => []

/-- The columns that an operation inserts are in a set of types. -/
def Inserts (S : TyCtx → Ty → Prop) (s : RowSystem) (op : RowOp) : Prop :=
  ∀ t ∈ columnsOf op, S s.types.cx t

/-- Every set covers what was inserted into it. -/
def Keeps (S : TyCtx → Ty → Prop) (B : TyCtx → Ty → Ty → Prop) (s : RowSystem) : Prop :=
  ∀ i, Kept S B s.types.cx (s.inserted i) (s.sets i)

variable {env} {S : TyCtx → Ty → Prop} {B : TyCtx → Ty → Ty → Prop} {s s' : RowSystem}

theorem Keeps.put (h : Respected env S B) (hs : Keeps S B s) {i : Nat}
    {inserted : List ActivationInputRow} {set : ActivationInputAlternatives} {types : Types}
    (hext : s.types.cx.Extends types.cx) (hkept : Kept S B types.cx inserted set) :
    Keeps S B (s.put i inserted (set, types)) := by
  intro j
  unfold RowSystem.put
  rcases eq_or_ne j i with rfl | hne
  · simp only [Function.update_self]
    exact hkept
  · simp only [Function.update_of_ne hne]
    exact (hs j).grows h hext

theorem Keeps.step (h : Respected env S B) (hs : Keeps S B s) {op : RowOp} (hop : Inserts S s op)
    {events : List Unit} (hstep : s.step env op = some (s', events)) :
    Keeps S B s' ∧ s.types.cx.Extends s'.types.cx := by
  cases op with
  | fromRow i columns =>
    simp only [RowSystem.step] at hstep
    split at hstep
    · cases hstep
      exact ⟨hs.put h List.prefix_rfl (Kept.fromRow h hop), List.prefix_rfl⟩
    · cases hstep
  | pushRow i columns =>
    simp only [RowSystem.step] at hstep
    split at hstep
    · obtain ⟨⟨set, types⟩, hresult, heq⟩ := Option.map_eq_some_iff.mp hstep
      cases heq
      obtain ⟨hext, hkept⟩ := ((hs i).wp_pushRow h hop).of_toOption hresult
      exact ⟨hs.put h hext hkept, hext⟩
    · cases hstep
  | joinAssign i j =>
    obtain ⟨⟨set, types⟩, hresult, heq⟩ := Option.map_eq_some_iff.mp hstep
    cases heq
    obtain ⟨hext, hkept⟩ := ((hs i).wp_joinAssign h (hs j)).of_toOption hresult
    exact ⟨hs.put h hext hkept, hext⟩
  | intern d =>
    simp only [RowSystem.step] at hstep
    split at hstep
    · rename_i hknows
      have hknows : s.types.cx.Knows d :=
        TyCtx.knows_iff.mpr fun t ht => of_decide_eq_true (List.all_eq_true.mp hknows t ht)
      obtain ⟨t, types, hrun, _, hext, _⟩ := s.types.intern_spec env.order env.rounds hknows
      rw [hrun] at hstep
      cases hstep
      exact ⟨fun i => (hs i).grows h hext, hext⟩
    · cases hstep

theorem Keeps.run (h : Respected env S B) {types : Types} {ops : List RowOp} {events : List Unit}
    (hrun : Run (RowSystem.step env) (Inserts S) (start types) ops events s) : Keeps S B s :=
  hrun.inv (fun _ => Kept.bottom) fun _ _ _ _ hs hop hstep => (hs.step h hop hstep).1

theorem inserts_known {op : RowOp} {events : List Unit}
    (hstep : s.step env op = some (s', events)) :
    Inserts (fun cx t => t < cx.arena.length) s op := by
  have hknows : ∀ {columns : List Ty}, s.knows columns = true →
      ∀ t ∈ columns, t < s.types.cx.arena.length := fun hknows t ht =>
    of_decide_eq_true (List.all_eq_true.mp hknows t ht)
  cases op with
  | fromRow i columns =>
    simp only [RowSystem.step] at hstep
    split at hstep
    · rename_i h
      exact hknows h
    · cases hstep
  | pushRow i columns =>
    simp only [RowSystem.step] at hstep
    split at hstep
    · rename_i h
      exact hknows h
    · cases hstep
  | joinAssign i j => exact nofun
  | intern d => exact nofun

end RowSystem

/-! ## Coverage -/

theorem respected_known (env : RowEnv) :
    Respected env (fun cx t => t < cx.arena.length) fun _ _ _ => True where
  known ht := ht
  grows hext ht := Nat.lt_of_lt_of_le ht hext.length_le
  keeps _ _ _ _ := trivial
  subtype _ _ _ := trivial
  trans _ _ _ _ _ := trivial
  union {types a b t s} ha hb hunion := by
    obtain ⟨t', s', hunion', hlt, _⟩ := types.union_grows env.order env.rounds ha hb
    cases hunion'.symm.trans hunion
    exact ⟨hlt, trivial, trivial⟩

theorem RowSystem.run_known {env : RowEnv} {types : Types} {ops : List RowOp} {events : List Unit}
    {s : RowSystem} (hrun : Run (RowSystem.step env) anyStep (.start types) ops events s) :
    Keeps (fun cx t => t < cx.arena.length) (fun _ _ _ => True) s ∧
      types.cx.Extends s.types.cx := by
  induction hrun with
  | start => exact ⟨fun _ => Kept.bottom, List.prefix_rfl⟩
  | snoc _ _ hstep ih =>
    obtain ⟨hkeeps, hext⟩ := ih.1.step (respected_known env) (inserts_known hstep) hstep
    exact ⟨hkeeps, ih.2.trans hext⟩

theorem RowSystem.run_inserts {env : RowEnv} {S : TyCtx → Ty → Prop} {types : Types}
    (hgrows : ∀ {cx cx' t}, cx.Extends cx' → S cx t → S cx' t) {ops : List RowOp}
    {events : List Unit} {s : RowSystem}
    (hrun : Run (RowSystem.step env) anyStep (.start types) ops events s)
    (hops : ∀ op ∈ ops, ∀ t ∈ columnsOf op, S types.cx t) :
    Run (RowSystem.step env) (Inserts S) (.start types) ops events s := by
  induction hrun with
  | start => exact .start
  | @snoc ops events s op s' events' hrun _ hstep ih =>
    have hext := (run_known hrun).2
    refine .snoc (ih fun op' hop' => hops op' (List.mem_append_left _ hop')) (fun t ht => ?_) hstep
    exact hgrows hext (hops op (List.mem_append_right _ (List.mem_singleton_self op)) t ht)

/-- A set of types of the store, closed under joins, on which subtyping is transitive and joins are
upper bounds. -/
structure Lawful (env : RowEnv) (S : TyCtx → Ty → Prop) : Prop where
  known : ∀ {cx t}, S cx t → t < cx.arena.length
  grows : ∀ {cx cx' t}, cx.Extends cx' → S cx t → S cx' t
  trans : ∀ {cx a b c}, S cx a → S cx b → S cx c → cx.isSubtype a b = true →
    cx.isSubtype b c = true → cx.isSubtype a c = true
  union : ∀ {types : Types} {a b t s}, S types.cx a → S types.cx b →
    types.union env.order env.rounds a b = .ok (t, s) →
    S s.cx t ∧ s.cx.isSubtype a t = true ∧ s.cx.isSubtype b t = true

theorem Lawful.respected {env : RowEnv} {S : TyCtx → Ty → Prop} (h : Lawful env S) :
    Respected env S fun cx a b => cx.isSubtype a b = true where
  known := h.known
  grows := h.grows
  keeps hext ha hb hab := (hext.isSubtype_eq (h.known ha) (h.known hb)).trans hab
  subtype _ _ hab := hab
  trans := h.trans
  union := h.union

/-- In every run the rows of a set are an antichain of at most eight rows.  If all inserted columns
are lawful, every row ever inserted is below a row of its set, and below the joins. -/
theorem run_rows_kept (env : RowEnv) (types : Types) :
    (∀ ops events s, Run (RowSystem.step env) anyStep (.start types) ops events s → ∀ i,
      (s.sets i).rows.Pairwise (Incomparable s.types.cx.rowDominates) ∧
      (s.sets i).rows.length ≤ ACTIVATION_INPUT_ROW_BUDGET) ∧ ∀ S, Lawful env S → ∀ ops events s,
      Run (RowSystem.step env) (RowSystem.Inserts S) (.start types) ops events s → ∀ i,
        (∀ row ∈ s.inserted i, ∃ standing ∈ (s.sets i).rows, s.types.cx.RowBelow row standing) ∧
        ∀ row ∈ s.inserted i, s.types.cx.RowBelow row (s.sets i).joined := by
  refine ⟨fun ops events s hrun i => ?_, fun S hS ops events s hrun i => ?_⟩
  · have hkeeps := (RowSystem.run_known hrun).1
    exact ⟨(hkeeps i).incomparable, (hkeeps i).budget⟩
  · have hkept := RowSystem.Keeps.run hS.respected hrun i
    exact ⟨hkept.covers, hkept.joined_covers⟩

/-! ## Samples -/

section Samples

/-- The values of some basic kinds. -/
def kind (b : BasicBits) : Descr := { Descr.unbranded with basic := b }

theorem isSubtype_kind (cx : TyCtx) (a b : BasicBits) :
    (kind a).isSubtype cx (kind b) = (a.intersect b.neg).isEmpty := by
  obtain ⟨a₁, a₂, a₃⟩ := a
  obtain ⟨b₁, b₂, b₃⟩ := b
  cases a₁ <;> cases a₂ <;> cases a₃ <;> cases b₁ <;> cases b₂ <;> cases b₃ <;> rfl

theorem union_kind {a b : BasicBits} (ha : a.isEmpty = false) (hb : b.isEmpty = false) :
    (kind a).union (kind b) = kind (a.union b) := by
  have hlook : ∀ {c : BasicBits}, c.isEmpty = false → (kind c).looksEmpty = false := by
    intro c hc
    simp only [Descr.looksEmpty, Descr.structureLooksEmpty, kind, hc]
    rfl
  rw [Descr.union, hlook ha, hlook hb]
  rfl

/-- Types of basic kinds, in a store that has one for every choice of kinds. -/
def OfKind (cx : TyCtx) (t : Ty) : Prop :=
  (∀ b : BasicBits, b.isEmpty = false → kind b ∈ cx.arena) ∧ t < cx.arena.length ∧
    ∃ b : BasicBits, b.isEmpty = false ∧ cx.descr t = kind b

theorem isSubtype_ofKind {cx : TyCtx} {s t : Ty} {a b : BasicBits} (hs : cx.descr s = kind a)
    (ht : cx.descr t = kind b) : cx.isSubtype s t = true ↔ (a.intersect b.neg).isEmpty = true := by
  unfold TyCtx.isSubtype
  rw [hs, ht, isSubtype_kind, Bool.or_eq_true, decide_eq_true_iff, or_iff_right_iff_imp]
  rintro rfl
  obtain rfl : a = b := congrArg Descr.basic (hs.symm.trans ht)
  obtain ⟨a₁, a₂, a₃⟩ := a
  cases a₁ <;> cases a₂ <;> cases a₃ <;> rfl

theorem kind_trans {a b c : BasicBits} (hab : (a.intersect b.neg).isEmpty = true)
    (hbc : (b.intersect c.neg).isEmpty = true) : (a.intersect c.neg).isEmpty = true := by
  revert hab hbc
  obtain ⟨a₁, a₂, a₃⟩ := a
  obtain ⟨b₁, b₂, b₃⟩ := b
  obtain ⟨c₁, c₂, c₃⟩ := c
  revert a₁ a₂ a₃ b₁ b₂ b₃ c₁ c₂ c₃
  decide

theorem kind_union {a : BasicBits} (ha : a.isEmpty = false) (b : BasicBits) :
    (a.union b).isEmpty = false ∧ (a.intersect (a.union b).neg).isEmpty = true ∧
      (b.intersect (a.union b).neg).isEmpty = true := by
  revert ha
  obtain ⟨a₁, a₂, a₃⟩ := a
  obtain ⟨b₁, b₂, b₃⟩ := b
  revert a₁ a₂ a₃ b₁ b₂ b₃
  decide

theorem intern_of_lookup {env : RowEnv} {types : Types} {d : Descr} {t : Ty}
    (h : types.cx.lookup d = some t) :
    types.intern env.order env.rounds d = .ok (t, ⟨types, []⟩) := by
  show internAt env.order env.rounds (d.rank + 2) d ⟨types, []⟩ = _
  rw [internAt, StateT.get_bind_run, h]
  rfl

theorem lawful_ofKind (env : RowEnv) : Lawful env OfKind where
  known ht := ht.2.1
  grows := by
    rintro cx cx' t hext ⟨hall, hlt, b, hb, ht⟩
    exact ⟨fun b hb => hext.subset (hall b hb), Nat.lt_of_lt_of_le hlt hext.length_le, b, hb,
      (hext.descr_eq hlt).trans ht⟩
  trans := by
    rintro cx s t u ⟨_, _, a, _, hs⟩ ⟨_, _, b, _, ht⟩ ⟨_, _, c, _, hu⟩ hst htu
    rw [isSubtype_ofKind hs ht] at hst
    rw [isSubtype_ofKind ht hu] at htu
    rw [isSubtype_ofKind hs hu]
    exact kind_trans hst htu
  union := by
    rintro types s t u out ⟨hall, hlt, a, ha, hs⟩ ⟨_, _, b, hb, ht⟩ hunion
    have hnone : ∀ {t : Ty} {b : BasicBits}, b.isEmpty = false →
        types.cx.descr t = kind b → t ≠ types.none := by
      rintro _ b hb ht rfl
      rw [TyCtx.descr, List.getD_eq_getElem?_getD, types.none_eq] at ht
      have hbits : BasicBits.none = b := congrArg Descr.basic ht
      subst hbits
      cases hb
    unfold Types.union at hunion
    split at hunion
    · rename_i heq
      subst heq
      cases hunion
      exact ⟨⟨hall, hlt, a, ha, hs⟩, TyCtx.isSubtype_refl s, TyCtx.isSubtype_refl s⟩
    · rw [if_neg (hnone ha hs), if_neg (hnone hb ht), hs, ht, union_kind ha hb] at hunion
      obtain ⟨hne, hleft, hright⟩ := kind_union ha b
      obtain ⟨v, hv⟩ := Option.isSome_iff_exists.mp (List.isSome_idxOf?.mpr (hall _ hne))
      obtain ⟨hvlt, hdescr⟩ := TyCtx.lookup_spec hv
      rw [intern_of_lookup hv] at hunion
      cases hunion
      refine ⟨⟨hall, hvlt, a.union b, hne, hdescr⟩, ?_, ?_⟩
      · exact (isSubtype_ofKind hs hdescr).mpr hleft
      · exact (isSubtype_ofKind ht hdescr).mpr hright

/-- A closure literal of one function, with an arrow from a type to itself. -/
def literalOver (t : Ty) : Descr :=
  { Descr.unbranded with funcs := [.posOf ⟨[t], t, some ⟨.closure, some 0, []⟩⟩] }

/-- The functions from integers to integers, and the lists of the literal over integers. -/
def arrowOrLiterals : Descr :=
  { Descr.unbranded with
    funcs := [.posOf ⟨[2], 2, none⟩]
    lists := [.posOf ⟨true, some 10⟩] }

/-- The core types, the basic kinds, the atoms, and one closure literal over the integers and over
the atoms. -/
def rowTypes : Types where
  cx := {
    arena := [Descr.none, Descr.any, kind ⟨false, true, false⟩, kind ⟨false, false, true⟩,
      kind ⟨true, false, false⟩, kind ⟨false, true, true⟩, kind ⟨true, true, false⟩,
      kind ⟨true, false, true⟩, kind ⟨true, true, true⟩, { Descr.unbranded with atoms := .any },
      literalOver 2, literalOver 9, arrowOrLiterals]
    children_lt := by
      intro t d h s hs
      match t, h with
      | 0, h | 1, h | 2, h | 3, h | 4, h | 5, h | 6, h | 7, h | 8, h | 9, h =>
        obtain rfl := Option.some.inj h
        exact nomatch hs
      | 10, h | 11, h | 12, h =>
        obtain rfl := Option.some.inj h
        revert s
        decide }
  none := 0
  any := 1
  none_eq := rfl
  any_eq := rfl

def rowEnv : RowEnv := ⟨storageOrder [], 4, [], fun _ => .named none "f" 1⟩

theorem rowTypes_ofKind : ∀ t ∈ [2, 3, 5], OfKind rowTypes.cx t := by
  have hall : ∀ b : BasicBits, b.isEmpty = false → kind b ∈ rowTypes.cx.arena := by
    rintro ⟨b₁, b₂, b₃⟩
    revert b₁ b₂ b₃
    decide
  intro t ht
  rcases List.mem_cons.mp ht with rfl | ht
  · exact ⟨hall, by decide, ⟨false, true, false⟩, rfl, rfl⟩
  · rcases List.mem_cons.mp ht with rfl | ht
    · exact ⟨hall, by decide, ⟨false, false, true⟩, rfl, rfl⟩
    · rw [List.mem_singleton.mp ht]
      exact ⟨hall, by decide, ⟨false, true, true⟩, rfl, rfl⟩

/-- A number takes the place of an integer and a float. -/
theorem numbers_absorb : ∃ s,
    Run (RowSystem.step rowEnv) (RowSystem.Inserts OfKind) (.start rowTypes)
      [.fromRow 0 [2], .pushRow 0 [3], .pushRow 0 [5]] [] s ∧
    (s.sets 0).rows = [[5]] ∧ (∃ standing ∈ (s.sets 0).rows, s.types.cx.RowBelow [2] standing) ∧
    s.types.cx.RowBelow [2] (s.sets 0).joined ∧
    (s.sets 0).rows.length ≤ ACTIVATION_INPUT_ROW_BUDGET := by
  obtain ⟨s, hany, hrows, hfirst⟩ : ∃ s, Run (RowSystem.step rowEnv) anyStep (.start rowTypes)
      [.fromRow 0 [2], .pushRow 0 [3], .pushRow 0 [5]] [] s ∧ (s.sets 0).rows = [[5]] ∧
      [2] ∈ s.inserted 0 :=
    ⟨_, Run.of_runActs (.of_forall (fun _ _ _ => trivial) _) rfl, rfl, by decide⟩
  have hcolumns : ∀ op ∈ [RowOp.fromRow 0 [2], .pushRow 0 [3], .pushRow 0 [5]],
      ∀ t ∈ RowSystem.columnsOf op, t ∈ [2, 3, 5] := by decide
  have hrun := RowSystem.run_inserts (S := OfKind) (lawful_ofKind rowEnv).grows hany
    fun op hop t ht => rowTypes_ofKind t (hcolumns op hop t ht)
  obtain ⟨hall, hcovers⟩ := run_rows_kept rowEnv rowTypes
  obtain ⟨hcovered, hjoined⟩ := hcovers OfKind (lawful_ofKind rowEnv) _ _ _ hrun 0
  exact ⟨s, hrun, hrows, hcovered [2] hfirst, hjoined [2] hfirst, (hall _ _ _ hany 0).2⟩

/-- The literal over atoms is skipped for the one over integers, which is then absorbed. -/
theorem skipped_row_lost : ∃ s, Run (RowSystem.step rowEnv) anyStep (.start rowTypes)
      [.fromRow 0 [10], .pushRow 0 [11], .pushRow 0 [12]] [] s ∧
    [11] ∈ s.inserted 0 ∧ (s.sets 0).rows = [[12]] ∧ ¬ s.types.cx.RowBelow [11] [12] ∧
    ¬ s.types.cx.RowBelow [11] (s.sets 0).joined := by
  refine ⟨_, Run.of_runActs (.of_forall (fun _ _ _ => trivial) _) rfl, ?_, rfl, ?_, ?_⟩
  · decide
  · rintro (_ | ⟨h, _⟩)
    revert h
    decide
  · rintro (_ | ⟨h, _⟩)
    revert h
    decide

end Samples

end Fz.Facts
