import Fz.Base.Lockstep
import Fz.Dispatch.Charged
import Fz.Dispatch.Journal

/-!
# The input demand is enough

Two runs of one plan, over inputs that agree on what the plan's demand observes, go hand in hand.
Their journals are the same, the same slots are filled, and what two slots hold agrees on every
demand that was charged for their subject.  A bitstring field is read off words that are the same,
so its slots hold the same value.

A question reads no more than it was charged, so both runs answer it alike.  What a match edge
projects need not be charged itself: the question that makes it safe was, and that is enough to
project in both runs or in neither.
-/

namespace Fz.Dispatch

open Fz.Base Fz.Bitstr

variable {TH C D : Type}

/-! ## Operands -/

/-- Two operands that agree on everything a plan was charged. -/
structure OperandsAgree (plan : PatternDispatchPlan TH D) (ops ops' : DispatchOperands) : Prop where
  inputs : ∀ (ordinal : Nat) (d : DispatchDemand), plan.graph.inputDemand[ordinal]? = some d →
    d.AgreeInput ops.inputs[ordinal]?.join ops'.inputs[ordinal]?.join
  pins : ∀ pin, plan.PinCharged pin → ops.pinned[pin]? = ops'.pinned[pin]?
  prepared : ops.prepared = ops'.prepared

/-! ## States -/

/-- What two slots of a subject hold agrees. -/
def SlotsAgree (plan : PatternDispatchPlan TH D) (s : SubjectId) :
    Option Bound → Option Bound → Prop
  | some b, some c => (∀ d, plan.Demands s d → d.Agree b c) ∧
      ((Exec.bitstringExtraction plan.graph.subjects s).isSome → b = c)
  | none, none => True
  | _, _ => False

structure StatesAgree (plan : PatternDispatchPlan TH D) (st st' : DispatchExecState) : Prop where
  journal : st.journal = st'.journal
  size : st.values.length = plan.graph.subjects.length
  size' : st'.values.length = plan.graph.subjects.length
  slots : ∀ s, SlotsAgree plan s (st.get s) (st'.get s)

section States

variable {plan : PatternDispatchPlan TH D} {st st' : DispatchExecState} {s : SubjectId}
  {b c : Bound}

theorem SlotsAgree.refl (plan : PatternDispatchPlan TH D) (s : SubjectId) (b : Bound) :
    SlotsAgree plan s (some b) (some b) := ⟨fun d _ => .refl d b, fun _ => rfl⟩

theorem SlotsAgree.cases {x y : Option Bound} (h : SlotsAgree plan s x y) :
    (x = none ∧ y = none) ∨ ∃ b c, x = some b ∧ y = some c := by
  cases x <;> cases y
  · exact .inl ⟨rfl, rfl⟩
  · exact h.elim
  · exact h.elim
  · exact .inr ⟨_, _, rfl, rfl⟩

theorem StatesAgree.held (h : StatesAgree plan st st') (hb : st.get s = some b)
    (hc : st'.get s = some c) : SlotsAgree plan s (some b) (some c) := by
  have hslots := h.slots s
  rw [hb, hc] at hslots
  exact hslots

theorem DispatchExecState.get_set (st : DispatchExecState) (s t : SubjectId) (b : Bound) :
    (st.set s b).get t = if t = s ∧ s < st.values.length then some b else st.get t := by
  by_cases ht : t = s
  · subst ht
    by_cases hlt : t < st.values.length
    · rw [if_pos ⟨rfl, hlt⟩, get_set_self hlt]
    · rw [if_neg fun h => hlt h.2]
      simp [get, set, Nat.le_of_not_lt hlt]
  · rw [if_neg fun h => ht h.1, get_set_ne ht]

theorem StatesAgree.set (h : StatesAgree plan st st') (hs : SlotsAgree plan s (some b) (some c)) :
    StatesAgree plan (st.set s b) (st'.set s c) where
  journal := congrArg (· ++ [s]) h.journal
  size := (List.length_set ..).trans h.size
  size' := (List.length_set ..).trans h.size'
  slots t := by
    rw [DispatchExecState.get_set, DispatchExecState.get_set, h.size, h.size']
    split
    next ht => exact ht.1 ▸ hs
    next => exact h.slots t

theorem StatesAgree.undo (h : StatesAgree plan st st') (branch : Nat) :
    StatesAgree plan (st.undo branch) (st'.undo branch) where
  journal := congrArg (List.take branch) h.journal
  size := (DispatchExecState.length_foldl_clear ..).trans h.size
  size' := (DispatchExecState.length_foldl_clear ..).trans h.size'
  slots s := by
    have hget : ∀ st : DispatchExecState,
        (st.undo branch).get s = if s ∈ st.journal.drop branch then none else st.get s :=
      fun st => DispatchExecState.getElem?_foldl_clear ..
    rw [hget, hget, h.journal]
    split
    · trivial
    · exact h.slots s

theorem statesAgree_new (plan : PatternDispatchPlan TH D) :
    StatesAgree plan (.new plan.graph.subjects.length) (.new plan.graph.subjects.length) where
  journal := rfl
  size := List.length_replicate
  size' := List.length_replicate
  slots s := by
    rw [DispatchExecState.get_new]
    trivial

end States

/-! ## Words and projections -/

/-- What has to agree on a source for a projection to be taken in both runs or in neither. -/
def shapeDemand : ProjectionKind → DispatchDemand
  | .tupleField _ => .tupleFields .nil
  | .listHead | .listTail => .listShape .ignore
  | .structField _ | .mapValue _ | .bitstringField _ => .whole

theorem shapeDemand_below (kind : ProjectionKind) (d : DispatchDemand) :
    (shapeDemand kind).Below (demandAtStep (.ofKind kind) d) := by
  cases kind with
  | tupleField index =>
    exact DispatchDemand.below_iff.mpr ⟨fun h => (nomatch h), fun b c h => ⟨h.1, h.2.1, trivial⟩⟩
  | listHead =>
    exact DispatchDemand.below_iff.mpr ⟨fun h => (nomatch h), fun b c h =>
      ⟨h.1, h.2.1, fun _ _ _ _ => trivial⟩⟩
  | listTail => exact DispatchDemand.below_whole _
  | structField field => exact .refl _
  | mapValue key => exact .refl _
  | bitstringField extraction => exact .refl _

theorem shapeDemand_ne_ignore (kind : ProjectionKind) : shapeDemand kind ≠ .ignore := by
  cases kind <;> exact fun h => nomatch h

/-- Two values that are built, or not, for the same reason. -/
def Bound.BuildAlike (b c : Bound) : Prop :=
  b.form = c.form ∧ ((∃ v w, b.word = .ok v ∧ c.word = .ok w) ∨
    ∃ why, b.word = .error why ∧ c.word = .error why)

theorem Bound.form_cases {b c : Bound} (h : b.form = c.form) :
    (∃ v w, b = .runtime v ∧ c = .runtime w) ∨ (b = .absent ∧ c = .absent) ∨
      (∃ lanes lanes', b = .tuple lanes ∧ c = .tuple lanes') ∨
      (∃ v w, b = .callable (some v) ∧ c = .callable (some w)) ∨
      (b = .callable none ∧ c = .callable none) := by
  rcases b with v | _ | lanes | (_ | v) <;> rcases c with w | _ | lanes' | (_ | w) <;>
    simp_all [form]

theorem Bound.buildAlike_of_form {b c : Bound} (h : b.form = c.form) (hlanes : b.form ≠ .lanes) :
    b.BuildAlike c := by
  refine ⟨h, ?_⟩
  rcases form_cases h with ⟨v, w, rfl, rfl⟩ | ⟨rfl, rfl⟩ | ⟨lanes, _, rfl, _⟩ |
    ⟨v, w, rfl, rfl⟩ | ⟨rfl, rfl⟩
  · exact .inl ⟨v, w, rfl, rfl⟩
  · exact .inr ⟨_, rfl, rfl⟩
  · exact absurd rfl hlanes
  · exact .inl ⟨v, w, rfl, rfl⟩
  · exact .inr ⟨_, rfl, rfl⟩

theorem Bound.BuildAlike.of_listSeen {b c : Bound} (h : b.form = c.form)
    (hseen : b.listSeen = c.listSeen) : b.BuildAlike c := by
  refine ⟨h, ?_⟩
  unfold Bound.listSeen at hseen
  cases hb : b.word with
  | ok v =>
    cases hc : c.word with
    | ok w => exact .inl ⟨v, w, rfl, rfl⟩
    | error why => rw [hb, hc] at hseen; cases hseen
  | error why =>
    cases hc : c.word with
    | ok w => rw [hb, hc] at hseen; cases hseen
    | error why' =>
      rw [hb, hc] at hseen
      cases hseen
      exact .inr ⟨why, rfl, rfl⟩

theorem Bound.BuildAlike.refl (b : Bound) : b.BuildAlike b := by
  refine ⟨rfl, ?_⟩
  cases b.word with
  | ok v => exact .inl ⟨v, v, rfl, rfl⟩
  | error why => exact .inr ⟨why, rfl, rfl⟩

section Runs

variable {rt : Runtime TH} {runHelper : RunHelper D} {plan : PatternDispatchPlan TH D}
  {ops ops' : DispatchOperands} {st st' : DispatchExecState} {s : SubjectId} {b c : Bound}

theorem SlotsAgree.built {v w : Value} (h : SlotsAgree plan s (some b) (some c))
    (hv : b.word = .ok v) (hw : c.word = .ok w) :
    SlotsAgree plan s (some (.runtime v)) (some (.runtime w)) := by
  refine ⟨fun d hd => (h.1 d hd).built hv hw, fun hf => ?_⟩
  cases h.2 hf
  cases hv.symm.trans hw
  rfl

theorem heldWord_lock (h : StatesAgree plan st st') (hb : st.get s = some b)
    (hc : st'.get s = some c) (hbuild : b.BuildAlike c) :
    Lock (StatesAgree plan) (Exec.heldWord s) (Exec.heldWord s)
      (fun v _ w _ => b.word = .ok v ∧ c.word = .ok w) st st' := by
  have hslots := h.held hb hc
  obtain ⟨hform, hword⟩ := hbuild
  unfold Lock
  rw [heldWord_run hb, heldWord_run hc]
  rcases Bound.form_cases hform with ⟨v, w, rfl, rfl⟩ | ⟨rfl, rfl⟩ | ⟨lanes, lanes', rfl, rfl⟩ |
    ⟨v, w, rfl, rfl⟩ | ⟨rfl, rfl⟩
  · exact .ok h ⟨rfl, rfl⟩
  · exact .error h
  · rcases hword with ⟨v, w, hv, hw⟩ | ⟨why, hv, hw⟩
    · simp only [hv, hw]
      exact .ok (h.set (hslots.built hv hw)) ⟨rfl, rfl⟩
    · simp only [hv, hw]
      exact .error h
  · exact .ok (h.set (hslots.built rfl rfl)) ⟨rfl, rfl⟩
  · exact .error h

theorem structFieldAt_eq (v : Value) (index : Nat) :
    structFieldAt v index = match v.positions with
      | none => .error .noMatch
      | some (_, fields) => match fields[index]? with
        | some field => .ok field
        | none => .error .abort := by
  cases v with
  | struct schema fields =>
    simp only [structFieldAt, Value.positions, List.getElem?_map]
    cases fields[index]? <;> rfl
  | _ => rfl

theorem mapLookup_congr (hops : ops.prepared = ops'.prepared) (map : Value) (key : GroundValue) :
    mapLookup rt plan.preparedKeys ops map key = mapLookup rt plan.preparedKeys ops' map key := by
  have hkey : constKeyValue rt plan.preparedKeys ops key =
      constKeyValue rt plan.preparedKeys ops' key := by
    unfold constKeyValue
    rw [hops]
  unfold mapLookup
  rw [hkey]

/-- How two projections end: both in a value, or both in one stop. -/
def ProjectAlike (b c : Bound) (kind : ProjectionKind) (r r' : Except DispatchStop Value) : Prop :=
  (∃ x y, r = .ok x ∧ r' = .ok y ∧ ∀ d : DispatchDemand,
    (demandAtStep (.ofKind kind) d).Agree b c → d.Agree (.runtime x) (.runtime y)) ∨
  ∃ stop, r = .error stop ∧ r' = .error stop

variable {kind : ProjectionKind}

theorem projectAlike_of_eq {r r' : Except DispatchStop Value}
    (h : r = r') : ProjectAlike b c kind r r' := by
  subst h
  cases r with
  | ok x => exact .inl ⟨x, x, rfl, rfl, fun d _ => .refl d _⟩
  | error stop => exact .inr ⟨stop, rfl, rfl⟩

theorem Value.cons_of_listKind {v : Value} (h : v.listKind = .cell) :
    ∃ head tail, v = .cons head tail := by
  cases v with
  | cons head tail => exact ⟨head, tail, rfl⟩
  | _ => cases h

theorem projectWord_of_not_cell {v : Value} (h : v.listKind ≠ .cell) :
    projectWord rt plan.preparedKeys ops v .listHead = .error .noMatch ∧
      projectWord rt plan.preparedKeys ops v .listTail = .error .noMatch := by
  cases v with
  | cons head tail => exact absurd rfl h
  | _ => exact ⟨rfl, rfl⟩

theorem Bound.listKind_eq {v w : Value} (hv : b.word = .ok v) (hw : c.word = .ok w)
    (h : b.listSeen = c.listSeen) : v.listKind = w.listKind := by
  rw [Bound.listSeen, Bound.listSeen, hv, hw] at h
  exact Except.ok.inj h

/-- Words that agree on their shape give up a field alike. -/
theorem projectWord_alike (hops : ops.prepared = ops'.prepared)
    {v w : Value} (hv : b.word = .ok v) (hw : c.word = .ok w) (h : (shapeDemand kind).Agree b c) :
    ProjectAlike b c kind (projectWord rt plan.preparedKeys ops v kind)
      (projectWord rt plan.preparedKeys ops' w kind) := by
  have hwhole : b = c → v = w := by
    rintro rfl
    cases hv.symm.trans hw
    rfl
  cases kind with
  | tupleField index =>
    rw [projectWord, projectWord, structFieldAt_eq, structFieldAt_eq]
    have harity := h.2.1
    rw [← Bound.arity_of_word hv, ← Bound.arity_of_word hw] at harity
    simp only [Bound.arity, Bound.positions, Bound.given, Option.bind_some, Option.map_map]
      at harity
    cases hp : v.positions with
    | none =>
      cases hq : w.positions with
      | none => exact .inr ⟨_, rfl, rfl⟩
      | some q => rw [hp, hq] at harity; cases harity
    | some p =>
      cases hq : w.positions with
      | none => rw [hp, hq] at harity; cases harity
      | some q =>
        rw [hp, hq] at harity
        have hlen : p.2.length = q.2.length := by
          simpa using (Prod.mk.inj (Option.some.inj harity)).2
        by_cases hlt : index < p.2.length
        · have hx := List.getElem?_eq_getElem hlt
          have hy := List.getElem?_eq_getElem (hlen ▸ hlt)
          refine .inl ⟨p.2[index], q.2[index], by simp only [hx], by simp only [hy], ?_⟩
          intro d hd
          refine (hd.built hv hw).2.2.1 _ _ ?_ ?_
          · simp [Bound.part, Bound.positions, Bound.given, hp, hx]
          · simp [Bound.part, Bound.positions, Bound.given, hq, hy]
        · refine .inr ⟨.abort, ?_, ?_⟩
          · simp only [List.getElem?_eq_none (Nat.le_of_not_lt hlt)]
          · simp only [List.getElem?_eq_none (hlen ▸ Nat.le_of_not_lt hlt)]
  | structField field =>
    cases hwhole h
    exact projectAlike_of_eq rfl
  | listHead =>
    have hkind := Bound.listKind_eq hv hw h.2.1
    by_cases hcell : v.listKind = .cell
    · obtain ⟨x, _, rfl⟩ := Value.cons_of_listKind hcell
      obtain ⟨y, _, rfl⟩ := Value.cons_of_listKind (hkind.symm.trans hcell)
      exact .inl ⟨x, y, rfl, rfl, fun d hd => (hd.built hv hw).2.2 _ _ rfl rfl⟩
    · exact .inr ⟨_, (projectWord_of_not_cell hcell).1, (projectWord_of_not_cell (hkind ▸ hcell)).1⟩
  | listTail =>
    have hkind := Bound.listKind_eq hv hw h.2.1
    by_cases hcell : v.listKind = .cell
    · obtain ⟨_, x, rfl⟩ := Value.cons_of_listKind hcell
      obtain ⟨_, y, rfl⟩ := Value.cons_of_listKind (hkind.symm.trans hcell)
      refine .inl ⟨x, y, rfl, rfl, fun d hd => ?_⟩
      cases hwhole hd
      exact .refl d _
    · exact .inr ⟨_, (projectWord_of_not_cell hcell).2, (projectWord_of_not_cell (hkind ▸ hcell)).2⟩
  | mapValue key =>
    cases hwhole h
    refine projectAlike_of_eq ?_
    rw [projectWord, projectWord, mapLookup_congr hops]
  | bitstringField extraction => exact projectAlike_of_eq rfl

theorem projectHeld_lanes {source : SubjectId} {lanes : List Bound} (index : Nat)
    (h : st.get source = some (.tuple lanes)) :
    Exec.projectHeld rt plan ops source (.tupleField index) st = match lanes[index]? with
      | some field => (.ok field, st)
      | none => (.error (.broken (.fieldOutOfBounds index)), st) := by
  rw [Exec.projectHeld, ExecM.run_get_bind, ExecM.run_ofExcept_bind, h]
  simp only [required]
  cases lanes[index]? <;> rfl

theorem projectHeld_word {source : SubjectId}
    (h : st.get source = some b)
    (hnot : ∀ index lanes, kind = .tupleField index → b ≠ .tuple lanes) :
    Exec.projectHeld rt plan ops source kind st = (do
      let word ← Exec.heldWord source
      let field ← ofExcept (projectWord rt plan.preparedKeys ops word kind)
      pure (.runtime field) : ExecM Bound) st := by
  rw [Exec.projectHeld, ExecM.run_get_bind, ExecM.run_ofExcept_bind, h]
  cases kind with
  | tupleField index =>
    cases b with
    | tuple lanes => exact absurd rfl (hnot index lanes rfl)
    | _ => rfl
  | _ => rfl

theorem buildAlike_of_shape (h : (shapeDemand kind).Agree b c)
    (hnot : ∀ index lanes, kind = .tupleField index → b ≠ .tuple lanes) : b.BuildAlike c := by
  cases kind with
  | tupleField index =>
    refine Bound.buildAlike_of_form h.1 fun hlanes => ?_
    cases b with
    | tuple lanes => exact hnot index lanes rfl rfl
    | callable word => cases word <;> cases hlanes
    | _ => cases hlanes
  | listHead => exact .of_listSeen h.1 h.2.1
  | listTail => exact .of_listSeen h.1 h.2.1
  | structField field => obtain rfl : b = c := h; exact .refl b
  | mapValue key => obtain rfl : b = c := h; exact .refl b
  | bitstringField extraction => obtain rfl : b = c := h; exact .refl b

/-- What two runs project out of two slots agrees on what was demanded through the projection. -/
theorem projectHeld_lock (h : StatesAgree plan st st') (hops : ops.prepared = ops'.prepared)
    {source : SubjectId} (hb : st.get source = some b)
    (hc : st'.get source = some c) (hshape : (shapeDemand kind).Agree b c) :
    Lock (StatesAgree plan) (Exec.projectHeld rt plan ops source kind)
      (Exec.projectHeld rt plan ops' source kind) (fun x _ y _ => ∀ d : DispatchDemand,
        (demandAtStep (.ofKind kind) d).Agree b c → d.Agree x y) st st' := by
  by_cases hlanes : ∃ index lanes, kind = .tupleField index ∧ b = .tuple lanes
  · obtain ⟨index, lanes, rfl, rfl⟩ := hlanes
    obtain ⟨lanes', rfl⟩ : ∃ lanes', c = .tuple lanes' := by
      rcases Bound.form_cases hshape.1 with ⟨_, _, hf, _⟩ | ⟨hf, _⟩ | ⟨_, lanes', _, hf⟩ |
        ⟨_, _, hf, _⟩ | ⟨hf, _⟩
      · cases hf
      · cases hf
      · exact ⟨lanes', hf⟩
      · cases hf
      · cases hf
    have hlen : lanes.length = lanes'.length := (Prod.mk.inj (Option.some.inj hshape.2.1)).2
    unfold Lock
    rw [projectHeld_lanes index hb, projectHeld_lanes index hc]
    by_cases hlt : index < lanes.length
    · have hx := List.getElem?_eq_getElem hlt
      have hy := List.getElem?_eq_getElem (hlen ▸ hlt)
      simp only [hx, hy]
      exact .ok h fun d hd => hd.2.2.1 _ _ hx hy
    · simp only [List.getElem?_eq_none (Nat.le_of_not_lt hlt),
        List.getElem?_eq_none (hlen ▸ Nat.le_of_not_lt hlt)]
      exact .error h
  · have hnot : ∀ index lanes, kind = .tupleField index → b ≠ .tuple lanes :=
      fun index lanes hk hl => hlanes ⟨index, lanes, hk, hl⟩
    have hbuild := buildAlike_of_shape hshape hnot
    have hnot' : ∀ index lanes, kind = .tupleField index → c ≠ .tuple lanes := by
      rintro index lanes rfl rfl
      rcases Bound.form_cases hbuild.1 with ⟨_, _, _, hf⟩ | ⟨_, hf⟩ | ⟨lanes', _, hf, _⟩ |
        ⟨_, _, _, hf⟩ | ⟨_, hf⟩
      · cases hf
      · cases hf
      · exact hnot index lanes' rfl hf
      · cases hf
      · cases hf
    have hword : Lock (StatesAgree plan)
        (do
          let word ← Exec.heldWord source
          let field ← ofExcept (projectWord rt plan.preparedKeys ops word kind)
          pure (.runtime field) : ExecM Bound)
        (do
          let word ← Exec.heldWord source
          let field ← ofExcept (projectWord rt plan.preparedKeys ops' word kind)
          pure (.runtime field) : ExecM Bound)
        (fun x _ y _ => ∀ d : DispatchDemand,
          (demandAtStep (.ofKind kind) d).Agree b c → d.Agree x y) st st' := by
      refine (heldWord_lock h hb hc hbuild).bind fun v t w t' ht ⟨hv, hw⟩ => ?_
      have halike : ProjectAlike b c kind (projectWord rt plan.preparedKeys ops v kind)
          (projectWord rt plan.preparedKeys ops' w kind) := projectWord_alike hops hv hw hshape
      rcases halike with ⟨x, y, hx, hy, hagree⟩ | ⟨stop, hx, hy⟩
      · rw [hx, hy]
        exact .ok ht hagree
      · rw [hx, hy]
        exact .error ht
    unfold Lock at hword ⊢
    rw [projectHeld_word hb hnot, projectHeld_word hc hnot']
    exact hword

/-! ## Filling slots -/

variable (plan) in
/-- A subject that both runs fill or neither: something was demanded of it, or its source was
charged what it takes to project it. -/
def FillsAlike (s : SubjectId) : Prop :=
  (∃ d, d ≠ .ignore ∧ plan.Demands s d) ∨
    ∃ id source kind, plan.graph.subjects[s]? = some ⟨id, .projection ⟨source, kind⟩⟩ ∧
      plan.Demands source (shapeDemand kind)

theorem FillsAlike.source (hord : InOrder plan.graph.subjects) (h : FillsAlike plan s)
    {id source : Nat} (hs : plan.graph.subjects[s]? = some ⟨id, .projection ⟨source, kind⟩⟩) :
    plan.Demands source (shapeDemand kind) := by
  rcases h with ⟨d, _, hd⟩ | ⟨_, _, _, hs', hd⟩
  · exact ((demanded_projection hord hs).mp hd).mono (shapeDemand_below kind d)
  · cases hs.symm.trans hs'
    exact hd

theorem FillsAlike.input (hops : OperandsAgree plan ops ops') (h : FillsAlike plan s)
    {id ordinal : Nat} (hs : plan.graph.subjects[s]? = some ⟨id, .input ordinal⟩) :
    (ops.inputs[ordinal]?.join = none ∧ ops'.inputs[ordinal]?.join = none) ∨
      ∃ b c, ops.inputs[ordinal]?.join = some b ∧ ops'.inputs[ordinal]?.join = some c ∧
        ∀ d, plan.Demands s d → d.Agree b c := by
  rcases h with ⟨d, hne, hd⟩ | ⟨_, _, _, hs', _⟩
  · have hagree : ∀ d, plan.Demands s d →
        d.AgreeInput ops.inputs[ordinal]?.join ops'.inputs[ordinal]?.join := by
      intro d hd
      obtain ⟨slot, hslot, hbelow⟩ := (demanded_input hs).mp hd
      exact hbelow _ _ (hops.inputs ordinal slot hslot)
    have hthis := hagree d hd
    generalize ops.inputs[ordinal]?.join = x at hagree hthis ⊢
    generalize ops'.inputs[ordinal]?.join = y at hagree hthis ⊢
    cases x <;> cases y
    · exact .inl ⟨rfl, rfl⟩
    · exact absurd hthis hne
    · exact absurd hthis hne
    · exact .inr ⟨_, _, rfl, rfl, hagree⟩
  · cases hs.symm.trans hs'

/-- Both runs hold the subject. -/
def Holds (s : SubjectId) (_ : Unit) (st : DispatchExecState) (_ : Unit)
    (st' : DispatchExecState) : Prop :=
  ∃ b c, st.get s = some b ∧ st'.get s = some c

theorem fill_lock {x y : ExecM Bound} {id : Nat} {source : SubjectSource}
    (hs : plan.graph.subjects[s]? = some ⟨id, source⟩)
    (h : Lock (StatesAgree plan) x y
      (fun b _ c _ => SlotsAgree plan s (some b) (some c)) st st') :
    Lock (StatesAgree plan) (do let value ← x; modify fun st => st.set s value)
      (do let value ← y; modify fun st => st.set s value) (Holds s) st st' := by
  refine h.bind fun b t c t' ht hslots => ?_
  have hlt := (List.getElem?_eq_some_iff.mp hs).1
  refine .modify (ht.set hslots) ⟨b, c, ?_, ?_⟩
  · exact DispatchExecState.get_set_self (ht.size ▸ hlt)
  · exact DispatchExecState.get_set_self (ht.size' ▸ hlt)

theorem resolveSubject_lock (hord : InOrder plan.graph.subjects)
    (hops : OperandsAgree plan ops ops') (fuel : Nat) :
    ∀ {s st st'}, s < fuel → FillsAlike plan s → StatesAgree plan st st' →
      Lock (StatesAgree plan) (Exec.resolveSubject rt plan ops fuel s)
        (Exec.resolveSubject rt plan ops' fuel s) (Holds s) st st' := by
  induction fuel with
  | zero => exact fun hlt => nomatch hlt
  | succ fuel ih =>
    intro s st st' hlt hfills h
    rw [Exec.resolveSubject, Exec.resolveSubject]
    refine .get_bind ?_
    rcases (h.slots s).cases with ⟨hb, hc⟩ | ⟨b, c, hb, hc⟩
    · simp only [hb, hc, Option.isSome_none, Bool.false_eq_true, if_false]
      cases hs : plan.graph.subjects[s]? with
      | none => exact .error h
      | some subject =>
        obtain ⟨id, source⟩ := subject
        refine fill_lock hs ?_
        cases source with
        | input ordinal =>
          have hfield : ¬(Exec.bitstringExtraction plan.graph.subjects s).isSome := by
            simp [Exec.bitstringExtraction, hs]
          simp only [Exec.subjectBound]
          rcases hfills.input hops hs with ⟨hx, hy⟩ | ⟨b, c, hx, hy, hagree⟩
          · rw [hx, hy]
            exact .error h
          · rw [hx, hy]
            exact .ok h ⟨hagree, fun hf => absurd hf hfield⟩
        | projection projection =>
          obtain ⟨source, kind⟩ := projection
          by_cases hbits : ∃ extraction, kind = .bitstringField extraction
          · obtain ⟨extraction, rfl⟩ := hbits
            exact .error h
          have hkind : ∀ extraction, kind ≠ .bitstringField extraction :=
            fun extraction heq => hbits ⟨extraction, heq⟩
          have hfield : ¬(Exec.bitstringExtraction plan.graph.subjects s).isSome := by
            rw [Exec.bitstringExtraction, hs]
            cases kind with
            | bitstringField extraction => exact absurd rfl (hkind extraction)
            | _ => simp
          have hshape := hfills.source hord hs
          rw [Exec.subjectBound_projection rt plan ops hkind,
            Exec.subjectBound_projection rt plan ops' hkind]
          refine (ih (Nat.lt_of_lt_of_le (hord s id source kind hs).1 (Nat.le_of_lt_succ hlt))
            (.inl ⟨_, shapeDemand_ne_ignore kind, hshape⟩) h).bind ?_
          rintro _ t _ t' ht ⟨b, c, hb, hc⟩
          have hslots := ht.held hb hc
          refine (projectHeld_lock ht hops.prepared hb hc (hslots.1 _ hshape)).mono ?_
          intro x _ y _ _ hxy
          exact ⟨fun d hd => hxy d (hslots.1 _ ((demanded_projection hord hs).mp hd)),
            fun hf => absurd hf hfield⟩
    · simp only [hb, hc, Option.isSome_some, if_true]
      exact .ok h ⟨b, c, hb, hc⟩

theorem resolve_lock (hord : InOrder plan.graph.subjects) (hops : OperandsAgree plan ops ops')
    (hfills : FillsAlike plan s) (h : StatesAgree plan st st') :
    Lock (StatesAgree plan) (Exec.resolve rt plan ops s) (Exec.resolve rt plan ops' s) (Holds s)
      st st' :=
  resolveSubject_lock hord hops (s + 1) (Nat.lt_succ_self s) hfills h

theorem subjectWord_lock (hord : InOrder plan.graph.subjects) (hops : OperandsAgree plan ops ops')
    {d : DispatchDemand} (hne : d ≠ .ignore) (hd : plan.Demands s d)
    (hbuild : ∀ b c, d.Agree b c → b.BuildAlike c) (h : StatesAgree plan st st') :
    Lock (StatesAgree plan) (Exec.subjectWord rt plan ops s) (Exec.subjectWord rt plan ops' s)
      (fun v _ w _ => d.Agree (.runtime v) (.runtime w)) st st' := by
  refine (resolve_lock hord hops (.inl ⟨d, hne, hd⟩) h).bind ?_
  rintro _ t _ t' ht ⟨b, c, hb, hc⟩
  have hagree := (ht.held hb hc).1 d hd
  exact (heldWord_lock ht hb hc (hbuild b c hagree)).mono
    fun v _ w _ _ hword => hagree.built hword.1 hword.2

theorem wholeWord_lock (hord : InOrder plan.graph.subjects) (hops : OperandsAgree plan ops ops')
    (hd : plan.Demands s .whole) (h : StatesAgree plan st st') :
    Lock (StatesAgree plan) (Exec.subjectWord rt plan ops s) (Exec.subjectWord rt plan ops' s)
      (fun v _ w _ => v = w) st st' := by
  refine (subjectWord_lock (d := .whole) hord hops (fun h => (nomatch h)) hd ?_ h).mono ?_
  · rintro b c (rfl : b = c)
    exact .refl b
  · intro v _ w _ _ hvw
    exact Bound.runtime.inj hvw

/-! ## Guards -/

theorem ofExcept_lock {α : Type} {r r' : Except DispatchStop α} (heq : r = r')
    (h : StatesAgree plan st st') :
    Lock (StatesAgree plan) (ofExcept r) (ofExcept r') (fun a _ b _ => a = b) st st' := by
  subst heq
  cases r with
  | ok a => exact .ok h rfl
  | error stop => exact .error h

mutual
theorem evalGuard_lock (hord : InOrder plan.graph.subjects) (hops : OperandsAgree plan ops ops')
    (e : PatternGuardExpr D) (hleaves : ∀ leaf ∈ e.leaves, plan.LeafCharged leaf)
    {st st' : DispatchExecState} (h : StatesAgree plan st st') :
    Lock (StatesAgree plan) (Exec.evalGuard rt runHelper plan ops e)
      (Exec.evalGuard rt runHelper plan ops' e) (fun v _ w _ => v = w) st st' := by
  cases e with
  | const value =>
    rw [Exec.evalGuard, Exec.evalGuard]
    exact ofExcept_lock rfl h
  | subject s =>
    rw [Exec.evalGuard, Exec.evalGuard]
    exact wholeWord_lock hord hops (hleaves (.subject s) List.mem_cons_self) h
  | pinned pin =>
    rw [Exec.evalGuard, Exec.evalGuard]
    refine ofExcept_lock ?_ h
    rw [hops.pins pin (hleaves (.pinned pin) List.mem_cons_self)]
  | unary op expr =>
    rw [Exec.evalGuard, Exec.evalGuard]
    refine (evalGuard_lock hord hops expr hleaves h).bind ?_
    rintro v t _ t' ht rfl
    exact ofExcept_lock rfl ht
  | binary op lhs rhs =>
    rw [PatternGuardExpr.leaves] at hleaves
    rw [Exec.evalGuard, Exec.evalGuard]
    refine (evalGuard_lock hord hops lhs
      (fun leaf hl => hleaves leaf (List.mem_append_left _ hl)) h).bind ?_
    rintro l t _ t' ht rfl
    cases Operators.shortCircuit op l with
    | some v => exact .ok ht rfl
    | none =>
      refine (evalGuard_lock hord hops rhs
        (fun leaf hl => hleaves leaf (List.mem_append_right _ hl)) ht).bind ?_
      rintro r u _ u' hu rfl
      exact ofExcept_lock rfl hu
  | dispatch inputs prepared dispatch =>
    rw [Exec.evalGuard, Exec.evalGuard]
    refine (evalGuards_lock hord hops inputs hleaves h).bind ?_
    rintro values t _ t' ht rfl
    refine ofExcept_lock ?_ ht
    rw [hops.prepared]

theorem evalGuards_lock (hord : InOrder plan.graph.subjects) (hops : OperandsAgree plan ops ops')
    (es : List (PatternGuardExpr D))
    (hleaves : ∀ leaf ∈ PatternGuardExpr.allLeaves es, plan.LeafCharged leaf)
    {st st' : DispatchExecState} (h : StatesAgree plan st st') :
    Lock (StatesAgree plan) (Exec.evalGuards rt runHelper plan ops es)
      (Exec.evalGuards rt runHelper plan ops' es) (fun v _ w _ => v = w) st st' := by
  cases es with
  | nil =>
    rw [Exec.evalGuards, Exec.evalGuards]
    exact .ok h rfl
  | cons e es =>
    rw [PatternGuardExpr.allLeaves] at hleaves
    rw [Exec.evalGuards, Exec.evalGuards]
    refine (evalGuard_lock hord hops e
      (fun leaf hl => hleaves leaf (List.mem_append_left _ hl)) h).bind ?_
    rintro v t _ t' ht rfl
    refine (evalGuards_lock hord hops es
      (fun leaf hl => hleaves leaf (List.mem_append_right _ hl)) ht).bind ?_
    rintro vs u _ u' hu rfl
    exact .ok hu rfl
end

/-! ## Questions -/

/-- Two steps that both missed, or both ended with `Q`. -/
def OrMissed {α β : Type} (Q : α → DispatchExecState → β → DispatchExecState → Prop) :
    Option α → DispatchExecState → Option β → DispatchExecState → Prop
  | some a, st, some b, st' => Q a st b st'
  | none, _, none, _ => True
  | _, _, _, _ => False

theorem orMiss_lock {α β : Type} {x : ExecM α} {y : ExecM β}
    {Q : α → DispatchExecState → β → DispatchExecState → Prop}
    (h : Lock (StatesAgree plan) x y Q st st') :
    Lock (StatesAgree plan) (orMiss x) (orMiss y) (OrMissed Q) st st' := by
  unfold Lock at h ⊢
  unfold orMiss
  generalize x st = r at h ⊢
  generalize y st' = r' at h ⊢
  cases h with
  | ok hI hQ => exact .ok hI hQ
  | @error stop _ _ hI =>
    cases stop with
    | noMatch => exact .ok hI trivial
    | abort => exact .error hI
    | broken why => exact .error hI

theorem fieldPin_of_size {f id x : SubjectId} {extraction : BitstringExtraction}
    {pin : PinnedValueId}
    (hget : plan.graph.subjects[f]? = some ⟨id, .projection ⟨x, .bitstringField extraction⟩⟩)
    (hsize : extraction.spec.size = some (.pinned pin)) :
    DispatchGraphBuilder.fieldPin plan.graph.subjects f = some pin := by
  obtain ⟨previous, ⟨kind, size, endian, signed, unit⟩, isLast⟩ := extraction
  cases hsize
  rw [DispatchGraphBuilder.fieldPin, hget]

theorem bitSizeValue_agree (hops : OperandsAgree plan ops ops') (h : StatesAgree plan st st')
    {size : Option BitstringFieldSize} (hfield : ∀ g, size = some (.binding g) →
      (Exec.bitstringExtraction plan.graph.subjects g).isSome)
    (hpin : ∀ pin, size = some (.pinned pin) → plan.PinCharged pin) :
    Exec.bitSizeValue ops st size = Exec.bitSizeValue ops' st' size := by
  cases size with
  | none => rfl
  | some size =>
    cases size with
    | literal n => rfl
    | pinned pin => rw [Exec.bitSizeValue, Exec.bitSizeValue, hops.pins pin (hpin pin rfl)]
    | binding g =>
      rw [Exec.bitSizeValue, Exec.bitSizeValue]
      have hslots := h.slots g
      rcases hslots.cases with ⟨hb, hc⟩ | ⟨b, c, hb, hc⟩
      · rw [hb, hc]
      · rw [hb, hc, (h.held hb hc).2 (hfield g rfl)]

theorem readFields_lock (hops : OperandsAgree plan ops ops') {x : SubjectId}
    {fields : List SubjectId} :
    ∀ {read : List SubjectId} {reader : Reader} {st st' : DispatchExecState},
      FieldChain plan.graph.subjects x read fields →
      (∀ g ∈ read, (Exec.bitstringExtraction plan.graph.subjects g).isSome) →
      (∀ pin ∈ fields.filterMap (DispatchGraphBuilder.fieldPin plan.graph.subjects),
        plan.PinCharged pin) → StatesAgree plan st st' →
      Lock (StatesAgree plan) (Exec.readFields rt plan ops fields reader)
        (Exec.readFields rt plan ops' fields reader) (fun a _ b _ => a = b) st st' := by
  induction fields with
  | nil =>
    intro read reader st st' _ _ _ h
    exact .ok h rfl
  | cons f fields ih =>
    intro read reader st st' hchain hread hpins h
    obtain ⟨⟨id, extraction, hget, _, hsize⟩, hrest⟩ := hchain
    have hextraction : Exec.bitstringExtraction plan.graph.subjects f = some extraction := by
      rw [Exec.bitstringExtraction, hget]
    have hagree : Exec.bitSizeValue ops st extraction.spec.size =
        Exec.bitSizeValue ops' st' extraction.spec.size :=
      bitSizeValue_agree hops h (fun g hg => hread g (hsize g hg))
        (fun pin hp => hpins pin (List.mem_filterMap.mpr
          ⟨f, List.mem_cons_self, fieldPin_of_size hget hp⟩))
    rw [Exec.readFields, Exec.readFields, hextraction]
    refine .get_bind ?_
    rw [hagree]
    cases Exec.bitSizeValue ops' st' extraction.spec.size with
    | none => exact .ok h rfl
    | some size =>
      simp only
      rcases readExtraction rt.hostIsLittleEndian reader extraction size with _ | ⟨value, next⟩
      · exact .ok h rfl
      · refine Lock.bind (Q := fun _ _ _ _ => True)
          (.modify (h.set (.refl plan f (.runtime value))) trivial) ?_
        intro _ t _ t' ht _
        refine ih hrest ?_ (fun pin hp => hpins pin ?_) ht
        · intro g hg
          rcases List.mem_append.mp hg with hg | hg
          · exact hread g hg
          · rw [List.mem_singleton.mp hg, hextraction]
            rfl
        · obtain ⟨g, hg, hpin⟩ := List.mem_filterMap.mp hp
          exact List.mem_filterMap.mpr ⟨g, List.mem_cons_of_mem f hg, hpin⟩

theorem setMapValues_lock {key : GroundValue} {value : Value} {results : List SubjectId} :
    ∀ {st st' : DispatchExecState}, StatesAgree plan st st' →
      Lock (StatesAgree plan) (Exec.setMapValues plan s key value results)
        (Exec.setMapValues plan s key value results) (fun _ _ _ _ => True) st st' := by
  induction results with
  | nil => exact fun h => .ok h trivial
  | cons result results ih =>
    intro st st' h
    rw [Exec.setMapValues]
    cases plan.graph.subjects[result]? with
    | none => exact .error h
    | some subject =>
      obtain ⟨id, source⟩ := subject
      cases source with
      | input ordinal => exact ih h
      | projection projection =>
        by_cases heq : projection = ⟨s, .mapValue key⟩
        · simp only [heq, if_true]
          exact Lock.bind (Q := fun _ _ _ _ => True)
            (.modify (h.set (.refl plan result (.runtime value))) trivial)
            fun _ t _ t' ht _ => ih ht
        · simp only [heq, if_false]
          exact ih h

variable {evidence : EdgeEvidence TH}

/-- The questions that want the whole value, or only whether it is a list. -/
theorem wordHit_lock (hops : OperandsAgree plan ops ops') {v w : Value} {region : Region TH}
    (hagree : (demandForRegion region).Agree (.runtime v) (.runtime w))
    (hpins : ∀ pin ∈ DispatchGraphBuilder.regionPins plan.graph.subjects region,
      plan.PinCharged pin) (hchain : ∀ shape, region = .bitstring shape →
      FieldChain plan.graph.subjects s [] shape.fields) (h : StatesAgree plan st st') :
    Lock (StatesAgree plan) (Exec.wordHit rt plan ops s v evidence region)
      (Exec.wordHit rt plan ops' s w evidence region) (fun a _ b _ => a = b) st st' := by
  have hwhole : Bound.runtime v = .runtime w → v = w := Bound.runtime.inj
  cases region with
  | equal value =>
    cases hwhole hagree
    cases value with
    | const value => exact .ok h rfl
    | pinned pin =>
      rw [Exec.wordHit, Exec.wordHit, hops.pins pin (hpins pin List.mem_cons_self)]
      cases ops'.pinned[pin]? with
      | none => exact .ok h rfl
      | some want => exact .ok h rfl
  | list shape =>
    have hkind : v.listKind = w.listKind := Except.ok.inj hagree.2.1
    cases shape with
    | empty =>
      refine .ok h ?_
      cases v <;> cases w <;> first | rfl | cases hkind
    | cons =>
      refine .ok h ?_
      cases v <;> cases w <;> first | rfl | cases hkind
  | mapKind =>
    cases hwhole hagree
    exact .ok h rfl
  | mapKeyPresent key =>
    cases hwhole hagree
    rw [Exec.wordHit, Exec.wordHit, mapLookup_congr hops.prepared]
    cases mapLookup rt plan.preparedKeys ops' v key with
    | none => exact .ok h rfl
    | some value =>
      exact (setMapValues_lock h).bind fun _ _ _ _ ht _ => .ok ht rfl
  | bitstring shape =>
    cases hwhole hagree
    rw [Exec.wordHit, Exec.wordHit]
    cases v with
    | bits b =>
      refine (readFields_lock hops (hchain shape rfl) (fun g hg => nomatch hg) hpins h).bind ?_
      rintro r t _ t' ht rfl
      cases r with
      | none => exact .ok ht rfl
      | some reader => exact .ok ht rfl
    | _ => exact .ok h rfl
  | type ty => exact .error h
  | tupleArity arity => exact .error h
  | guard g => exact .error h

theorem guardHit_lock (hord : InOrder plan.graph.subjects) (hops : OperandsAgree plan ops ops')
    {guard : GuardId} (hcharged : plan.Charges ⟨s, .guard guard⟩) (h : StatesAgree plan st st') :
    Lock (StatesAgree plan) (Exec.regionHit rt runHelper plan ops s evidence (.guard guard))
      (Exec.regionHit rt runHelper plan ops' s evidence (.guard guard))
      (fun a _ b _ => a = b) st st' := by
  simp only [Exec.regionHit]
  cases hexpr : plan.guards[guard]? with
  | none => exact .ok h rfl
  | some expr =>
    refine (orMiss_lock
      (evalGuard_lock hord hops expr (hcharged.leaves guard expr rfl hexpr) h)).bind ?_
    intro a t b t' ht hab
    cases a <;> cases b
    · exact .ok ht rfl
    · exact hab.elim
    · exact hab.elim
    · cases hab
      exact .ok ht rfl

theorem typeHit_lock (hord : InOrder plan.graph.subjects) (hops : OperandsAgree plan ops ops')
    {ty : TH} (hd : plan.Demands s .whole) (h : StatesAgree plan st st') :
    Lock (StatesAgree plan) (Exec.regionHit rt runHelper plan ops s evidence (.type ty))
      (Exec.regionHit rt runHelper plan ops' s evidence (.type ty))
      (fun a _ b _ => a = b) st st' := by
  unfold Exec.regionHit
  refine (orMiss_lock (resolve_lock hord hops
    (.inl ⟨.whole, fun h => (nomatch h), hd⟩) h)).bind ?_
  intro a t b t' ht hab
  cases a <;> cases b
  · exact .ok ht rfl
  · exact hab.elim
  · exact hab.elim
  · obtain ⟨x, y, hx, hy⟩ := hab
    obtain rfl : x = y := (ht.held hx hy).1 .whole hd
    refine .get_bind ?_
    rw [hx, hy]
    exact ofExcept_lock rfl ht

theorem arity_runtime_eq_tuple {v : Value} {n : Nat} :
    (Bound.runtime v).arity = some (true, n) ↔ ∃ fields, v = .tuple fields ∧ fields.length = n := by
  cases v <;> simp [Bound.arity, Bound.positions, Bound.given, Value.positions]

/-- Counting the fields of a tuple by its word. -/
theorem tupleCount_lock (h : StatesAgree plan st st') (hb : st.get s = some b)
    (hc : st'.get s = some c) (hform : b.form = c.form) (harity : b.arity = c.arity)
    (hlanes : b.form ≠ .lanes) {arity : Nat} :
    Lock (StatesAgree plan)
      (do
        match ← orMiss (Exec.subjectWord rt plan ops s) with
        | some (.tuple fields) => pure (decide (fields.length = arity))
        | _ => pure false : ExecM Bool)
      (do
        match ← orMiss (Exec.subjectWord rt plan ops' s) with
        | some (.tuple fields) => pure (decide (fields.length = arity))
        | _ => pure false : ExecM Bool)
      (fun a _ b _ => a = b) st st' := by
  have hword : Lock (StatesAgree plan) (Exec.subjectWord rt plan ops s)
      (Exec.subjectWord rt plan ops' s)
      (fun v _ w _ => (Bound.runtime v).arity = (Bound.runtime w).arity) st st' := by
    unfold Lock
    rw [subjectWord_run hb, subjectWord_run hc]
    refine (heldWord_lock h hb hc (Bound.buildAlike_of_form hform hlanes)).mono ?_
    rintro v _ w _ _ ⟨hv, hw⟩
    rw [Bound.arity_of_word hv, Bound.arity_of_word hw]
    exact harity
  refine (orMiss_lock hword).bind ?_
  intro v t w t' ht hvw
  cases v with
  | none =>
    cases w with
    | none => exact .ok ht rfl
    | some w => exact hvw.elim
  | some v =>
    cases w with
    | none => exact hvw.elim
    | some w =>
      have hvw : (Bound.runtime v).arity = (Bound.runtime w).arity := hvw
      by_cases htuple : ∃ fields, v = .tuple fields
      · obtain ⟨fields, rfl⟩ := htuple
        obtain ⟨fields', rfl, hlen⟩ := arity_runtime_eq_tuple.mp
          (hvw.symm.trans (arity_runtime_eq_tuple.mpr ⟨fields, rfl, rfl⟩))
        exact .ok ht (by rw [hlen])
      · have htuple' : ¬∃ fields, w = .tuple fields := by
          rintro ⟨fields, rfl⟩
          obtain ⟨fields', hv, _⟩ := arity_runtime_eq_tuple.mp
            (hvw.trans (arity_runtime_eq_tuple.mpr ⟨fields, rfl, rfl⟩))
          exact htuple ⟨fields', hv⟩
        cases v with
        | tuple fields => exact absurd ⟨fields, rfl⟩ htuple
        | _ =>
          cases w with
          | tuple fields => exact absurd ⟨fields, rfl⟩ htuple'
          | _ => exact .ok ht rfl

theorem arityHit_lock (hord : InOrder plan.graph.subjects) (hops : OperandsAgree plan ops ops')
    {arity : Nat} (hd : plan.Demands s (.tupleFields .nil)) (h : StatesAgree plan st st') :
    Lock (StatesAgree plan) (Exec.regionHit rt runHelper plan ops s evidence (.tupleArity arity))
      (Exec.regionHit rt runHelper plan ops' s evidence (.tupleArity arity))
      (fun a _ b _ => a = b) st st' := by
  have hfills : FillsAlike plan s := .inl ⟨.tupleFields .nil, fun h => (nomatch h), hd⟩
  simp only [Exec.regionHit]
  refine (orMiss_lock (resolve_lock hord hops hfills h)).bind ?_
  intro a t b t' ht hab
  cases a <;> cases b
  · exact .ok ht rfl
  · exact hab.elim
  · exact hab.elim
  · obtain ⟨x, y, hx, hy⟩ := hab
    obtain ⟨hform, harity, _⟩ := (ht.held hx hy).1 _ hd
    refine .get_bind ?_
    rw [hx, hy]
    rcases Bound.form_cases hform with ⟨_, _, rfl, rfl⟩ | ⟨rfl, rfl⟩ | ⟨lanes, lanes', rfl, rfl⟩ |
      ⟨_, _, rfl, rfl⟩ | ⟨rfl, rfl⟩
    · exact tupleCount_lock ht hx hy hform harity fun h => nomatch h
    · exact tupleCount_lock ht hx hy hform harity fun h => nomatch h
    · -- Lanes are counted as they are.
      have hlen : lanes.length = lanes'.length := (Prod.mk.inj (Option.some.inj harity)).2
      exact .ok ht (by rw [hlen])
    · exact tupleCount_lock ht hx hy hform harity fun h => nomatch h
    · exact tupleCount_lock ht hx hy hform harity fun h => nomatch h

theorem wordQuestion_lock (hord : InOrder plan.graph.subjects) (hops : OperandsAgree plan ops ops')
    {yes : Set (RegionQuestion TH)} {q : RegionQuestion TH}
    (hask : AskOk plan.graph.subjects plan.guards yes q) (hcharged : plan.Charges q.predicate)
    (h : StatesAgree plan st st') (hnot : ∀ guard, q.predicate.region ≠ .guard guard)
    (hbuild : ∀ b c, (demandForRegion q.predicate.region).Agree b c → b.BuildAlike c)
    (hne : demandForRegion q.predicate.region ≠ .ignore) :
    Lock (StatesAgree plan)
      (do
        match ← orMiss (Exec.subjectWord rt plan ops q.predicate.subject) with
        | none => pure false
        | some word =>
          Exec.wordHit rt plan ops q.predicate.subject word evidence q.predicate.region :
        ExecM Bool)
      (do
        match ← orMiss (Exec.subjectWord rt plan ops' q.predicate.subject) with
        | none => pure false
        | some word =>
          Exec.wordHit rt plan ops' q.predicate.subject word evidence q.predicate.region :
        ExecM Bool)
      (fun a _ b _ => a = b) st st' := by
  refine (orMiss_lock
    (subjectWord_lock hord hops hne (hcharged.subject hnot) hbuild h)).bind ?_
  intro v t w t' ht hvw
  cases v <;> cases w
  · exact .ok ht rfl
  · exact hvw.elim
  · exact hvw.elim
  · exact wordHit_lock hops hvw hcharged.pins hask.chain ht

theorem regionHit_lock (hord : InOrder plan.graph.subjects) (hops : OperandsAgree plan ops ops')
    {yes : Set (RegionQuestion TH)} {q : RegionQuestion TH}
    (hask : AskOk plan.graph.subjects plan.guards yes q) (hcharged : plan.Charges q.predicate)
    (h : StatesAgree plan st st') : Lock (StatesAgree plan)
      (Exec.regionHit rt runHelper plan ops q.predicate.subject evidence q.predicate.region)
      (Exec.regionHit rt runHelper plan ops' q.predicate.subject evidence q.predicate.region)
      (fun a _ b _ => a = b) st st' := by
  obtain ⟨⟨s, region⟩, matchEvidence, missEvidence⟩ := q
  have hword := @wordQuestion_lock TH D rt plan ops ops' st st' evidence hord hops yes
    _ hask hcharged h
  have hwhole : ∀ b c : Bound, DispatchDemand.whole.Agree b c → b.BuildAlike c := by
    rintro b c (rfl : b = c)
    exact .refl b
  cases region with
  | guard guard => exact guardHit_lock hord hops hcharged h
  | type ty => exact typeHit_lock hord hops (hcharged.subject fun _ h => by cases h) h
  | tupleArity arity => exact arityHit_lock hord hops (hcharged.subject fun _ h => by cases h) h
  | list shape =>
    exact hword (fun _ h => by cases h) (fun b c h => .of_listSeen h.1 h.2.1) fun h => by cases h
  | equal value => exact hword (fun _ h => by cases h) hwhole fun h => by cases h
  | mapKind => exact hword (fun _ h => by cases h) hwhole fun h => by cases h
  | mapKeyPresent key => exact hword (fun _ h => by cases h) hwhole fun h => by cases h
  | bitstring shape => exact hword (fun _ h => by cases h) hwhole fun h => by cases h

theorem shapeDemand_of_allows {region : Region TH}
    (h : region.Allows s kind) : (shapeDemand kind).Below (demandForRegion region) := by
  unfold Region.Allows at h
  split at h
  · exact .refl _
  · exact .refl _
  · exact .refl _
  · exact .refl _
  · exact .refl _
  · exact .refl _
  · exact h.elim

theorem fillsAlike_of_establishes {q : RegionQuestion TH} (hcharged : plan.Charges q.predicate)
    (he : Establishes plan.graph.subjects q s) : FillsAlike plan s := by
  obtain ⟨id, kind, hs, hallows, _⟩ := he
  refine .inr ⟨id, q.predicate.subject, kind, hs, ?_⟩
  have hnot : ∀ guard, q.predicate.region ≠ .guard guard := by
    intro guard hr
    rw [hr] at hallows
    cases kind <;> exact hallows
  exact (hcharged.subject hnot).mono (shapeDemand_of_allows hallows)

theorem applyEdgeEvidence_lock (hord : InOrder plan.graph.subjects)
    (hops : OperandsAgree plan ops ops') {projections : List SubjectId} :
    ∀ {st st' : DispatchExecState}, (∀ p ∈ projections, FillsAlike plan p) →
      StatesAgree plan st st' →
      Lock (StatesAgree plan) (Exec.applyEdgeEvidence rt plan ops projections)
        (Exec.applyEdgeEvidence rt plan ops' projections) (fun _ _ _ _ => True) st st' := by
  induction projections with
  | nil => exact fun _ h => .ok h trivial
  | cons p projections ih =>
    intro st st' hall h
    obtain ⟨hp, hrest⟩ := List.forall_mem_cons.mp hall
    exact (resolve_lock hord hops hp h).bind fun _ _ _ _ ht _ => ih hrest ht

theorem takesMatch_lock (hord : InOrder plan.graph.subjects) (hops : OperandsAgree plan ops ops')
    {yes : Set (RegionQuestion TH)} {q : RegionQuestion TH}
    (hask : AskOk plan.graph.subjects plan.guards yes q) (hcharged : plan.Charges q.predicate)
    (h : StatesAgree plan st st') :
    Lock (StatesAgree plan) (Exec.takesMatch rt runHelper plan ops q)
      (Exec.takesMatch rt runHelper plan ops' q) (fun a _ b _ => a = b) st st' := by
  refine (regionHit_lock hord hops hask hcharged h).bind ?_
  rintro hit t _ t' ht rfl
  cases hit with
  | false => exact .ok ht rfl
  | true =>
    refine (orMiss_lock (applyEdgeEvidence_lock hord hops (fun p hp =>
      fillsAlike_of_establishes hcharged (hask.projects p hp)) ht)).bind ?_
    intro a u b u' hu hab
    cases a <;> cases b
    · exact .ok hu rfl
    · exact hab.elim
    · exact hab.elim
    · exact .ok hu rfl

theorem ask_lock (hord : InOrder plan.graph.subjects) (hops : OperandsAgree plan ops ops')
    {yes : Set (RegionQuestion TH)} {q : RegionQuestion TH}
    (hask : AskOk plan.graph.subjects plan.guards yes q) (hcharged : plan.Charges q.predicate)
    (h : StatesAgree plan st st') : Lock (StatesAgree plan) (Exec.ask rt runHelper plan ops q)
      (Exec.ask rt runHelper plan ops' q) (fun a _ b _ => a = b) st st' := by
  refine .get_bind ?_
  have hbranch : st.branch = st'.branch := congrArg List.length h.journal
  rw [hbranch]
  refine (takesMatch_lock hord hops hask hcharged h).bind ?_
  rintro taken t _ t' ht rfl
  cases taken with
  | true => exact .ok ht rfl
  | false => exact .ok (ht.undo st'.branch) rfl

theorem node_lock (hord : InOrder plan.graph.subjects) (hops : OperandsAgree plan ops ops')
    (hcharged : ∀ predicate onMatch onMiss, .test predicate onMatch onMiss ∈ plan.graph.nodes →
      plan.Charges predicate) (fuel : Nat) : ∀ {n yes st st'},
      (groundedLogic plan.graph.subjects plan.guards plan.outcomes).Covers plan.graph.nodes yes n →
      StatesAgree plan st st' → Lock (StatesAgree plan) (Exec.node rt runHelper plan ops fuel n)
        (Exec.node rt runHelper plan ops' fuel n) (fun a _ b _ => a = b) st st' := by
  induction fuel with
  | zero => exact fun _ h => .error h
  | succ fuel ih =>
    intro n yes st st' hcovers h
    rw [Exec.node, Exec.node]
    cases hn : plan.graph.nodes[n]? with
    | none => exact .error h
    | some node =>
      cases node with
      | fail => exact .error h
      | outcome o evidence => exact .ok h rfl
      | test predicate onMatch onMiss =>
        obtain ⟨hask, hyes, hno⟩ := covers_test_inv hcovers hn
        refine (ask_lock hord hops hask
          (hcharged predicate onMatch onMiss (List.mem_of_getElem? hn)) h).bind ?_
        rintro taken t _ t' ht rfl
        cases taken with
        | true => exact ih hyes ht
        | false => exact ih hno ht

theorem readBindings_lock (hord : InOrder plan.graph.subjects) (hops : OperandsAgree plan ops ops')
    {bindings : List PatternDispatchBinding} :
    ∀ {st st' : DispatchExecState}, (∀ b ∈ bindings, plan.Demands b.source .whole) →
      StatesAgree plan st st' → Lock (StatesAgree plan) (Exec.readBindings rt plan ops bindings)
        (Exec.readBindings rt plan ops' bindings) (fun a _ b _ => a = b) st st' := by
  induction bindings with
  | nil => exact fun _ h => .ok h rfl
  | cons binding bindings ih =>
    intro st st' hall h
    obtain ⟨hfirst, hrest⟩ := List.forall_mem_cons.mp hall
    refine (wholeWord_lock hord hops hfirst h).bind ?_
    rintro v t _ t' ht rfl
    refine (ih hrest ht).bind ?_
    rintro rest u _ u' hu rfl
    exact .ok hu rfl

end Runs

/-! ## Plans -/

theorem dispatchValues_getElem? {source : DispatchSource} {inputs : List (Option Bound)}
    {pinned : List PatternPinnedInput} {pins : List Value}
    (h : dispatchValues source inputs pinned = some pins) (index : Nat) :
    pins[index]? = pinned[index]?.bind (source.pin inputs index) := by
  have hfrom : ∀ {start pinned pins},
      ((pinned : List PatternPinnedInput).zipIdx start).mapM
        (fun p => source.pin inputs p.2 p.1) = some pins →
      ∀ index, pins[index]? = pinned[index]?.bind (source.pin inputs (start + index)) := by
    intro start pinned
    induction pinned generalizing start with
    | nil =>
      intro pins h index
      cases h
      rfl
    | cons pin pinned ih =>
      intro pins h index
      rw [List.zipIdx_cons, List.mapM_cons] at h
      obtain ⟨word, hword, h⟩ := Option.bind_eq_some_iff.mp h
      obtain ⟨words, hwords, h⟩ := Option.bind_eq_some_iff.mp h
      cases h
      cases index with
      | zero => exact hword.symm
      | succ index =>
        have hrest := ih hwords index
        rw [Nat.add_assoc, Nat.add_comm 1 index] at hrest
        exact hrest
  have hall := hfrom h index
  rw [Nat.zero_add] at hall
  exact hall

theorem operandsAgree_of_inputs {plan : PatternDispatchPlan TH D} {source : DispatchSource}
    {inputs inputs' : List (Option Bound)} {pins pins' : List Value}
    (hpins : dispatchValues source inputs plan.pinned = some pins)
    (hpins' : dispatchValues source inputs' plan.pinned = some pins')
    (hagree : ∀ (ordinal : Nat) (d : DispatchDemand), plan.graph.inputDemand[ordinal]? = some d →
      d.AgreeInput inputs[ordinal]?.join inputs'[ordinal]?.join) (prepared : List (Option Value)) :
    OperandsAgree plan ⟨inputs, pins, prepared⟩ ⟨inputs', pins', prepared⟩ where
  inputs := hagree
  prepared := rfl
  pins id hcharged := by
    show pins[id]? = pins'[id]?
    rw [dispatchValues_getElem? hpins, dispatchValues_getElem? hpins']
    cases hpin : plan.pinned[id]? with
    | none => rfl
    | some pin =>
      show source.pin inputs id pin = source.pin inputs' id pin
      cases source with
      | bound values => rfl
      | inputs =>
        cases hinput : pin.input with
        | none => simp only [DispatchSource.pin, hinput, Option.bind_none]
        | some ordinal =>
          obtain ⟨slot, hslot, hbelow⟩ := hcharged pin ordinal hpin hinput
          have hwhole := hbelow _ _ (hagree ordinal slot hslot)
          have heq : inputs[ordinal]?.join = inputs'[ordinal]?.join := by
            generalize inputs[ordinal]?.join = x at hwhole ⊢
            generalize inputs'[ordinal]?.join = y at hwhole ⊢
            cases x <;> cases y
            · rfl
            · cases hwhole
            · cases hwhole
            · exact congrArg some hwhole
          simp only [DispatchSource.pin, hinput, Option.bind_some, heq]

/-- Over inputs that agree on what a plan's demand observes, the plan selects the same outcome, and
what it binds of what was demanded is the same. -/
theorem inputDemand_suffices [DecidableEq TH] {patterns : SourcePatternRows TH C}
    {resolver : PatternResolver TH C D} {plan : PatternDispatchPlan TH D}
    (h : patternDispatchFromSourceWithResolver patterns resolver = .ok plan)
    (rt : Runtime TH) (runHelper : RunHelper D) (source : DispatchSource)
    (prepared : List (Option Value)) {inputs inputs' : List (Option Bound)}
    {pins pins' : List Value}
    (hpins : dispatchValues source inputs plan.pinned = some pins)
    (hpins' : dispatchValues source inputs' plan.pinned = some pins')
    (hagree : ∀ (ordinal : Nat) (d : DispatchDemand),
      plan.graph.inputDemand[ordinal]? = some d →
      d.AgreeInput inputs[ordinal]?.join inputs'[ordinal]?.join) :
    let run := Exec.run rt runHelper plan ⟨inputs, pins, prepared⟩
    let run' := Exec.run rt runHelper plan ⟨inputs', pins', prepared⟩
    run.1 = run'.1 ∧
      ∀ bindings : List PatternDispatchBinding, (∀ b ∈ bindings, plan.Demands b.source .whole) →
        (Exec.readBindings rt plan ⟨inputs, pins, prepared⟩ bindings run.2).1 =
          (Exec.readBindings rt plan ⟨inputs', pins', prepared⟩ bindings run'.2).1 := by
  intro run run'
  have hord := patternDispatch_inOrder h
  have hops := operandsAgree_of_inputs hpins hpins' hagree prepared
  have hends : Ends (StatesAgree plan) (fun a _ b _ => a = b) run run' :=
    node_lock hord hops (fun _ _ _ hmem => patternDispatch_charges h hmem) _
      (patternDispatch_covers h) (statesAgree_new plan)
  refine ⟨hends.result_eq, fun bindings hall => ?_⟩
  have hread : Ends (StatesAgree plan) (fun a _ b _ => a = b)
      (Exec.readBindings rt plan ⟨inputs, pins, prepared⟩ bindings run.2)
      (Exec.readBindings rt plan ⟨inputs', pins', prepared⟩ bindings run'.2) :=
    readBindings_lock hord hops hall hends.rel
  exact hread.result_eq

/-- `[1 | _]`, and anything else. -/
def startsWithOneRows : SourcePatternRows Unit Unit where
  inputCount := 1
  rows := [⟨[.list [.literal (.int 1)] (some .wildcard)], [], none, 0⟩, ⟨[.wildcard], [], none, 1⟩]
  prematch := .inputs []

def noHelpers : PatternResolver Unit Unit Empty where
  structType _ := .ok ()
  guardCall _ _ := .ok none
  preparedKeys dispatch := nomatch dispatch

-- Two lists that begin with 1 differ in what the plan never looks at.
theorem inputDemand_suffices_startsWithOne :
    ∃ plan, patternDispatchFromSourceWithResolver startsWithOneRows noHelpers = .ok plan ∧
      ∀ rt runHelper, (Exec.run rt runHelper plan
          ⟨[some (.runtime (.cons (.int 1) .emptyList))], [], []⟩).1 = (Exec.run rt runHelper plan
          ⟨[some (.runtime (.cons (.int 1) (.cons (.int 2) .emptyList)))], [], []⟩).1 := by
  cases h : patternDispatchFromSourceWithResolver startsWithOneRows noHelpers with
  | error e =>
    have hok : (patternDispatchFromSourceWithResolver startsWithOneRows noHelpers).isOk = true := by
      decide +kernel
    rw [h] at hok
    cases hok
  | ok plan =>
    have hdemand : ∀ plan ∈
        (patternDispatchFromSourceWithResolver startsWithOneRows noHelpers).toOption,
        plan.graph.inputDemand = [.listShape .whole] ∧ plan.pinned = [] := by
      decide +kernel
    obtain ⟨hdemand, hpinned⟩ := hdemand plan (by rw [h]; rfl)
    refine ⟨plan, rfl, fun rt runHelper => ?_⟩
    refine (inputDemand_suffices h rt runHelper .inputs [] (by rw [hpinned]; rfl)
      (by rw [hpinned]; rfl) ?_).1
    intro ordinal d hd
    rw [hdemand] at hd
    cases ordinal with
    | zero =>
      cases hd
      refine ⟨rfl, rfl, fun x y hx hy => ?_⟩
      cases hx
      cases hy
      rfl
    | succ ordinal => cases hd

end Fz.Dispatch
