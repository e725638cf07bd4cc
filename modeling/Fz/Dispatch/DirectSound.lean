import Fz.Dispatch.Direct
import Fz.Dispatch.Grounded
import Fz.Dispatch.Journal

/-!
# The executor against direct evaluation

Every filled slot shows the value its subject has when it is read from the inputs (`Sound`), and
every step of the executor keeps it so.  `Computes` relates a step to a direct evaluation: the step
ends as the evaluation does, unless the evaluation breaks, or the step misses because a field it
needs has been cleared (`Lost`).  It composes along `bind`, so each function of the executor has
one lemma that compares it with its direct counterpart.

`K` is the set of questions answered yes so far.  A subject grounded in `K` is the only kind the
executor reads.
-/

namespace Fz.Dispatch

open Fz.Terms Fz.Bitstr

variable {TH D : Type} {rt : Runtime TH} {runHelper : RunHelper D} {plan : PatternDispatchPlan TH D}
  {ops : DispatchOperands}

namespace Direct

/-! ## Values of subjects -/

theorem subjectValue_fuel (hord : InOrder plan.graph.subjects) (fuel : Nat) :
    ∀ s < fuel, subjectValue rt plan ops fuel s = value rt plan ops s := by
  induction fuel using Nat.strongRecOn with
  | ind fuel ih =>
    intro s hs
    cases fuel with
    | zero => exact absurd hs (Nat.not_lt_zero s)
    | succ fuel =>
      have hsource : ∀ {id source kind},
          plan.graph.subjects[s]? = some ⟨id, .projection ⟨source, kind⟩⟩ →
            subjectValue rt plan ops fuel source = subjectValue rt plan ops s source := by
        intro id source kind hget
        have hlt := (hord s id source kind hget).1
        have hsf : s ≤ fuel := Nat.le_of_lt_succ hs
        rw [ih fuel (Nat.lt_succ_self fuel) source (Nat.lt_of_lt_of_le hlt hsf), ih s hs source hlt]
      unfold value
      rw [subjectValue, subjectValue]
      split
      · rfl
      · rfl
      next hget => rw [hsource hget]
      next _ hget => rw [hsource hget]

theorem value_input {s id ordinal : Nat}
    (h : plan.graph.subjects[s]? = some ⟨id, .input ordinal⟩) :
    value rt plan ops s = match ops.inputs[ordinal]?.join with
      | some value => .ok value
      | none => .error (.broken (.missingInput ordinal)) := by
  cases hin : ops.inputs[ordinal]?.join <;> simp only [value, subjectValue, h, hin]

theorem value_field (hord : InOrder plan.graph.subjects) {s id source : Nat}
    {extraction : BitstringExtraction}
    (h : plan.graph.subjects[s]? = some ⟨id, .projection ⟨source, .bitstringField extraction⟩⟩) :
    value rt plan ops s = (do fieldValue rt plan ops s (← word rt plan ops source)) := by
  rw [value, subjectValue]
  simp only [h]
  rw [subjectValue_fuel hord s source (hord s id source _ h).1, word]
  cases value rt plan ops source <;> rfl

theorem value_projection (hord : InOrder plan.graph.subjects) {s id source : Nat}
    {kind : ProjectionKind} (h : plan.graph.subjects[s]? = some ⟨id, .projection ⟨source, kind⟩⟩)
    (hkind : ∀ extraction, kind ≠ .bitstringField extraction) :
    value rt plan ops s =
      (do projectBound rt plan ops source kind (← value rt plan ops source)) := by
  rw [value, subjectValue]
  simp only [h]
  rw [subjectValue_fuel hord s source (hord s id source _ h).1]

theorem value_field_runtime (hord : InOrder plan.graph.subjects) {s : SubjectId} {b : Bound}
    (hf : (Exec.bitstringExtraction plan.graph.subjects s).isSome)
    (hb : value rt plan ops s = .ok b) : ∃ v, b = .runtime v := by
  unfold Exec.bitstringExtraction at hf
  split at hf
  next hget =>
    rw [value_field hord hget] at hb
    obtain ⟨w, _, hb⟩ := Fz.Base.Except.bind_eq_ok.mp hb
    unfold fieldValue at hb
    split at hb
    · simp only at hb
      split at hb
      · next read _ _ =>
        cases hl : read.lookup s with
        | none => simp [hl, required] at hb
        | some v => exact ⟨v, by simpa [hl, required] using hb.symm⟩
      · cases hb
    · cases hb
  · cases hf

/-! ## Sound states -/

/-- How a slot may show a value: in the form it has, or as the word it denotes. -/
def Shows (b shown : Bound) : Prop := shown = b ∨ ∃ v, b.word = .ok v ∧ shown = .runtime v

theorem Shows.refl (b : Bound) : Shows b b := .inl rfl

variable (rt plan ops) in
/-- Every filled slot shows the value of its subject. -/
structure Sound (st : DispatchExecState) : Prop where
  size : st.values.length = plan.graph.subjects.length
  slots : ∀ s shown, st.get s = some shown → ∃ b, value rt plan ops s = .ok b ∧ Shows b shown

variable (plan) in
/-- Whether a subject is a field of a bitstring. -/
def IsField (s : SubjectId) : Prop := (Exec.bitstringExtraction plan.graph.subjects s).isSome

variable (rt plan ops) in
/-- A step that keeps a state sound and fills no field outside `W`. -/
def Steps (W : Set SubjectId) (st st' : DispatchExecState) : Prop :=
  Sound rt plan ops st' ∧ ∃ more, st.Wrote more st' ∧ ∀ s ∈ more, IsField plan s → s ∈ W

theorem Sound.set {st : DispatchExecState} {s : SubjectId} {b shown : Bound}
    (h : Sound rt plan ops st) (hlt : s < plan.graph.subjects.length)
    (hb : value rt plan ops s = .ok b) (hshow : Shows b shown) :
    Sound rt plan ops (st.set s shown) where
  size := by rw [← h.size]; exact List.length_set ..
  slots t shown' ht := by
    by_cases heq : t = s
    · subst heq
      rw [DispatchExecState.get_set_self (h.size ▸ hlt)] at ht
      cases ht
      exact ⟨b, hb, hshow⟩
    · rw [DispatchExecState.get_set_ne heq] at ht
      exact h.slots t shown' ht

theorem Sound.new : Sound rt plan ops (.new plan.graph.subjects.length) where
  size := List.length_replicate ..
  slots s shown h := by
    rw [DispatchExecState.get_new] at h
    cases h

namespace Steps

variable {W : Set SubjectId} {st st' st'' : DispatchExecState}

theorem refl (h : Sound rt plan ops st) : Steps rt plan ops W st st :=
  ⟨h, [], .refl st, fun _ hs => nomatch hs⟩

theorem trans (h : Steps rt plan ops W st st') (h' : Steps rt plan ops W st' st'') :
    Steps rt plan ops W st st'' := by
  obtain ⟨_, more, hw, hm⟩ := h
  obtain ⟨hs, more', hw', hm'⟩ := h'
  refine ⟨hs, more ++ more', hw.trans hw', fun s hmem => ?_⟩
  rcases List.mem_append.mp hmem with hmem | hmem
  · exact hm s hmem
  · exact hm' s hmem

theorem isSome {s : SubjectId} (h : Steps rt plan ops W st st') (hs : (st.get s).isSome) :
    (st'.get s).isSome := by
  obtain ⟨_, more, hw, _⟩ := h
  exact hw.isSome hs

theorem set {s : SubjectId} {b shown : Bound} (h : Sound rt plan ops st)
    (hlt : s < plan.graph.subjects.length) (hb : value rt plan ops s = .ok b)
    (hshow : Shows b shown) (hf : IsField plan s → s ∈ W) :
    Steps rt plan ops W st (st.set s shown) := by
  refine ⟨h.set hlt hb hshow, [s], .set (h.size ▸ hlt), fun t ht => ?_⟩
  obtain rfl := List.mem_singleton.mp ht
  exact hf

theorem undo (hst : Sound rt plan ops st) (h : Steps rt plan ops W st st') :
    Sound rt plan ops (st'.undo st.branch) ∧
      ∀ s, IsField plan s → s ∉ W → (st'.undo st.branch).get s = st.get s := by
  obtain ⟨_, more, hw, hm⟩ := h
  refine ⟨⟨hw.size_undo.trans hst.size, fun s shown hs => ?_⟩, fun s hf hW => ?_⟩
  · rw [hw.get_undo] at hs
    split at hs
    · cases hs
    · exact hst.slots s shown hs
  · rw [hw.get_undo, if_neg fun hmem => hW (hm s hmem hf)]

end Steps

/-! ## Steps that compute what direct evaluation does -/

/-- The fields a question reads. -/
def bitFields (q : RegionQuestion TH) : List SubjectId :=
  match q.predicate.region with
  | .bitstring shape => shape.fields
  | _ => []

/-- A field of a question answered yes that an undo has cleared. -/
def Lost (K : Set (RegionQuestion TH)) (st : DispatchExecState) : Prop :=
  ∃ q ∈ K, ∃ f ∈ bitFields q, st.get f = none

theorem Lost.of_steps {K : Set (RegionQuestion TH)} {W : Set SubjectId}
    {st st' : DispatchExecState} (h : Lost K st') (hs : Steps rt plan ops W st st') :
    Lost K st := by
  obtain ⟨q, hq, f, hf, hnone⟩ := h
  refine ⟨q, hq, f, hf, ?_⟩
  by_contra hsome
  have := hs.isSome (Option.isSome_iff_ne_none.mpr hsome)
  rw [hnone] at this
  cases this

theorem Lost.of_insert {K : Set (RegionQuestion TH)} {q : RegionQuestion TH}
    {st : DispatchExecState} (h : Lost (insert q K) st)
    (hq : ∀ f ∈ bitFields q, (st.get f).isSome) : Lost K st := by
  obtain ⟨q', hq', f, hf, hnone⟩ := h
  rcases hq' with rfl | hq'
  · have := hq f hf
    rw [hnone] at this
    cases this
  · exact ⟨q', hq', f, hf, hnone⟩

/-- How a step may end when direct evaluation ends in `p`. -/
def Agrees {α : Type} (K : Set (RegionQuestion TH)) (st : DispatchExecState)
    (p r : Except DispatchStop α) : Prop :=
  r = p ∨ (∃ why stop, p = .error (.broken why) ∧ r = .error stop) ∨ r = .error .noMatch ∧ Lost K st

variable (rt plan ops) in
/-- A step that computes what `p` says. -/
def Computes {α : Type} (K : Set (RegionQuestion TH)) (W : Set SubjectId) (x : ExecM α)
    (p : Except DispatchStop α) : Prop :=
  ∀ st, Sound rt plan ops st → Steps rt plan ops W st (x st).2 ∧ Agrees K st p (x st).1

namespace Computes

variable {α β : Type} {K : Set (RegionQuestion TH)} {W : Set SubjectId}

theorem ofExcept (p : Except DispatchStop α) :
    Computes rt plan ops K W (Fz.Dispatch.ofExcept p) p :=
  fun _ hst => ⟨.refl hst, .inl rfl⟩

theorem pure (a : α) : Computes rt plan ops K W (Pure.pure a) (.ok a) :=
  fun _ hst => ⟨.refl hst, .inl rfl⟩

theorem bind {x : ExecM α} {p : Except DispatchStop α} {f : α → ExecM β}
    {q : α → Except DispatchStop β} (hx : Computes rt plan ops K W x p)
    (hf : ∀ a, Computes rt plan ops K W (f a) (q a)) :
    Computes rt plan ops K W (x >>= f) (p >>= q) := by
  intro st hst
  obtain ⟨hsteps, hagree⟩ := hx st hst
  rw [ExecM.run_bind]
  rcases hrun : x st with ⟨r, st'⟩
  rw [hrun] at hsteps hagree
  cases r with
  | error stop =>
    refine ⟨hsteps, ?_⟩
    rcases hagree with rfl | ⟨why, stop', rfl, hr⟩ | ⟨hmiss, hlost⟩
    · exact .inl rfl
    · exact .inr (.inl ⟨why, stop, rfl, rfl⟩)
    · cases hmiss
      exact .inr (.inr ⟨rfl, hlost⟩)
  | ok a =>
    obtain ⟨hsteps', hagree'⟩ := hf a st' hsteps.1
    refine ⟨hsteps.trans hsteps', ?_⟩
    rcases hagree with rfl | ⟨why, stop, _, hr⟩ | ⟨hmiss, _⟩
    · rcases hagree' with heq | hbroken | ⟨hmiss, hlost⟩
      · exact .inl heq
      · exact .inr (.inl hbroken)
      · exact .inr (.inr ⟨hmiss, hlost.of_steps hsteps⟩)
    · cases hr
    · cases hmiss

end Computes

/-! ## Reading subjects -/

section Read

variable {K : Set (RegionQuestion TH)} {W : Set SubjectId} {st : DispatchExecState}
  {s : SubjectId} {b shown : Bound}

theorem wordOf_shows (h : Shows b shown) : ∀ v, shown = .runtime v → wordOf s b = .ok v := by
  intro v hv
  rcases h with rfl | ⟨w, hw, rfl⟩
  · rw [hv, wordOf]
  · cases hv
    cases b with
    | runtime v => cases hw; rfl
    | absent => cases hw
    | tuple => rw [wordOf, hw, unbroken]; all_goals simp
    | callable => rw [wordOf, hw, unbroken]; all_goals simp

theorem lt_of_get_sound (hst : Sound rt plan ops st) (h : st.get s = some shown) :
    s < plan.graph.subjects.length := hst.size ▸ DispatchExecState.lt_of_get h

theorem buildWord_spec (hord : InOrder plan.graph.subjects) (hst : Sound rt plan ops st)
    (hlt : s < plan.graph.subjects.length) (hb : value rt plan ops s = .ok b)
    (hlanes : ∀ v, b ≠ .runtime v) :
    let x : ExecM Value := do
      let value ← Fz.Dispatch.ofExcept (unbroken b.word)
      modify fun st => st.set s (.runtime value)
      return value
    Steps rt plan ops W st (x st).2 ∧ (x st).1 = unbroken b.word := by
  intro x
  simp only [x, ExecM.run_ofExcept_bind]
  cases hw : b.word with
  | error why => exact ⟨.refl hst, rfl⟩
  | ok v =>
    refine ⟨.set hst hlt hb (.inr ⟨v, hw, rfl⟩) fun hf => ?_, rfl⟩
    obtain ⟨w, rfl⟩ := value_field_runtime hord hf hb
    exact absurd rfl (hlanes w)

theorem heldWord_spec (hord : InOrder plan.graph.subjects) (hst : Sound rt plan ops st)
    (hget : st.get s = some shown) (hb : value rt plan ops s = .ok b) (hshow : Shows b shown) :
    Steps rt plan ops W st (Exec.heldWord s st).2 ∧ (Exec.heldWord s st).1 = wordOf s b := by
  have hlt := lt_of_get_sound hst hget
  rw [Exec.heldWord, ExecM.run_get_bind, ExecM.run_ofExcept_bind, hget]
  simp only [required]
  cases shown with
  | runtime v => exact ⟨.refl hst, (wordOf_shows hshow v rfl).symm⟩
  | absent =>
    rcases hshow with rfl | ⟨v, _, hv⟩
    · exact ⟨.refl hst, rfl⟩
    · cases hv
  | tuple fields =>
    rcases hshow with rfl | ⟨v, _, hv⟩
    · exact buildWord_spec hord hst hlt hb (fun v hv => by cases hv)
    · cases hv
  | callable word =>
    rcases hshow with rfl | ⟨v, _, hv⟩
    · exact buildWord_spec hord hst hlt hb (fun v hv => by cases hv)
    · cases hv

/-- How a projection of a shown value may end when that of the value ends in `p`. -/
def ShowsResult (p r : Except DispatchStop Bound) : Prop :=
  (∃ b shown, p = .ok b ∧ r = .ok shown ∧ Shows b shown) ∨
    (∃ stop, p = .error stop ∧ r = .error stop) ∨
    ∃ why stop, p = .error (.broken why) ∧ r = .error stop

variable (rt plan ops) in
/-- A projection that reads through the whole value. -/
def projectThroughWord (source : SubjectId) (kind : ProjectionKind) : ExecM Bound := do
  let word ← Exec.heldWord source
  let field ← Fz.Dispatch.ofExcept (projectWord rt plan.preparedKeys ops word kind)
  return .runtime field

theorem projectThroughWord_spec (hord : InOrder plan.graph.subjects) (hst : Sound rt plan ops st)
    {source : SubjectId} (kind : ProjectionKind) (hget : st.get source = some shown)
    (hb : value rt plan ops source = .ok b) (hshow : Shows b shown) :
    Steps rt plan ops W st (projectThroughWord rt plan ops source kind st).2 ∧
      (projectThroughWord rt plan ops source kind st).1 = (do
        let word ← wordOf source b
        let field ← projectWord rt plan.preparedKeys ops word kind
        .ok (.runtime field)) := by
  obtain ⟨hsteps, hword⟩ := heldWord_spec (W := W) hord hst hget hb hshow
  rw [projectThroughWord, ExecM.run_bind]
  rcases hrun : Exec.heldWord source st with ⟨r, st'⟩
  rw [hrun] at hsteps hword
  rw [← show r = wordOf source b from hword]
  cases r with
  | error stop => exact ⟨hsteps, rfl⟩
  | ok word =>
    simp only [ExecM.run_ofExcept_bind]
    cases hp : projectWord rt plan.preparedKeys ops word kind with
    | error stop => exact ⟨hsteps, by simp [bind, Except.bind, hp]⟩
    | ok field => exact ⟨hsteps, by simp [bind, Except.bind, hp]; rfl⟩

theorem ShowsResult.of_eq {p r : Except DispatchStop Bound} (h : r = p) : ShowsResult p r := by
  subst h
  cases r with
  | ok b => exact .inl ⟨b, b, rfl, rfl, .refl b⟩
  | error stop => exact .inr (.inl ⟨stop, rfl, rfl⟩)

/-- One projection out of a filled slot. -/
theorem projectHeld_spec (hord : InOrder plan.graph.subjects) (hst : Sound rt plan ops st)
    {source : SubjectId} (kind : ProjectionKind) (hget : st.get source = some shown)
    (hb : value rt plan ops source = .ok b) (hshow : Shows b shown) :
    Steps rt plan ops W st (Exec.projectHeld rt plan ops source kind st).2 ∧
      ShowsResult (projectBound rt plan ops source kind b)
        (Exec.projectHeld rt plan ops source kind st).1 := by
  obtain ⟨hsteps, hthrough⟩ := projectThroughWord_spec (W := W) hord hst kind hget hb hshow
  rw [Exec.projectHeld, ExecM.run_get_bind, ExecM.run_ofExcept_bind, hget]
  simp only [required]
  split
  next _ _ index fields =>
    obtain rfl : b = .tuple fields := by
      rcases hshow with rfl | ⟨v, _, hv⟩
      · rfl
      · cases hv
    rw [projectBound]
    cases fields[index]? with
    | none => exact ⟨.refl hst, .inr (.inl ⟨_, rfl, rfl⟩)⟩
    | some field => exact ⟨.refl hst, .inl ⟨field, field, rfl, rfl, .refl field⟩⟩
  next hnot =>
    refine ⟨hsteps, ?_⟩
    show ShowsResult _ (projectThroughWord rt plan ops source kind st).1
    by_cases hlanes : ∃ index fields, kind = .tupleField index ∧ b = .tuple fields
    · obtain ⟨index, fields, rfl, rfl⟩ := hlanes
      rcases hshow with rfl | ⟨v, hv, rfl⟩
      · exact absurd rfl (hnot index fields rfl)
      · obtain ⟨vs, hvs, rfl⟩ := Fz.Base.Except.map_eq_ok.mp hv
        rw [projectBound]
        rcases Bound.words_getElem? hvs index with ⟨f, w, hf, hw, hword⟩ | ⟨hf, hw⟩
        · have hproj : projectWord rt plan.preparedKeys ops (.tuple vs) (.tupleField index) =
              .ok w := by
            simp [projectWord, structFieldAt, hw]
          refine .inl ⟨f, .runtime w, by rw [hf], ?_, .inr ⟨w, hword, rfl⟩⟩
          rw [hthrough, wordOf_shows (.inr ⟨_, hv, rfl⟩) _ rfl]
          show (projectWord rt plan.preparedKeys ops (.tuple vs) (.tupleField index) >>=
            fun field => Except.ok (Bound.runtime field)) = _
          rw [hproj]
          rfl
        · have hproj : projectWord rt plan.preparedKeys ops (.tuple vs) (.tupleField index) =
              .error .abort := by
            simp [projectWord, structFieldAt, hw]
          refine .inr (.inr ⟨_, .abort, by rw [hf], ?_⟩)
          rw [hthrough, wordOf_shows (.inr ⟨_, hv, rfl⟩) _ rfl]
          show (projectWord rt plan.preparedKeys ops (.tuple vs) (.tupleField index) >>=
            fun field => Except.ok (Bound.runtime field)) = _
          rw [hproj]
          rfl
    · refine .of_eq (hthrough.trans ?_)
      rw [projectBound]
      exact fun index fields hk hb => hlanes ⟨index, fields, hk, hb⟩

variable (rt plan ops) in
/-- How filling a slot may end, by the value its subject has. -/
def Fills (K : Set (RegionQuestion TH)) (st : DispatchExecState) (s : SubjectId)
    (r : Except DispatchStop Unit) (st' : DispatchExecState) : Prop :=
  (∃ b shown, value rt plan ops s = .ok b ∧ r = .ok () ∧ st'.get s = some shown ∧ Shows b shown) ∨
    (∃ stop, value rt plan ops s = .error stop ∧ r = .error stop) ∨
    (∃ why stop, value rt plan ops s = .error (.broken why) ∧ r = .error stop) ∨
    r = .error .noMatch ∧ Lost K st

theorem fill_spec {x : ExecM Bound} (hlen : s < plan.graph.subjects.length)
    (hf : ¬IsField plan s) (hsteps : Steps rt plan ops W st (x st).2)
    (hres : ShowsResult (value rt plan ops s) (x st).1 ∨
      (x st).1 = .error .noMatch ∧ Lost K st) :
    let y : ExecM Unit := do
      let value ← x
      modify fun st => st.set s value
    Steps rt plan ops W st (y st).2 ∧ Fills rt plan ops K st s (y st).1 (y st).2 := by
  intro y
  simp only [y, ExecM.run_bind]
  rcases hrun : x st with ⟨r, st'⟩
  rw [hrun] at hsteps hres
  rcases hres with (⟨b, shown, hb, hr, hshow⟩ | ⟨stop, hb, hr⟩ | ⟨why, stop, hb, hr⟩) |
    ⟨hr, hlost⟩
  · cases hr
    refine ⟨hsteps.trans (.set hsteps.1 hlen hb hshow fun h => absurd h hf),
      .inl ⟨b, shown, hb, rfl, ?_, hshow⟩⟩
    exact DispatchExecState.get_set_self (hsteps.1.size ▸ hlen)
  · cases hr
    exact ⟨hsteps, .inr (.inl ⟨stop, hb, rfl⟩)⟩
  · cases hr
    exact ⟨hsteps, .inr (.inr (.inl ⟨why, stop, hb, rfl⟩))⟩
  · cases hr
    exact ⟨hsteps, .inr (.inr (.inr ⟨rfl, hlost⟩))⟩

/-- Filling the slot of a subject the path has established. -/
theorem resolveSubject_spec (hord : InOrder plan.graph.subjects) (fuel : Nat) :
    ∀ {s st}, s < fuel → Grounded plan.graph.subjects K s → Sound rt plan ops st →
      Steps rt plan ops W st (Exec.resolveSubject rt plan ops fuel s st).2 ∧
        Fills rt plan ops K st s (Exec.resolveSubject rt plan ops fuel s st).1
          (Exec.resolveSubject rt plan ops fuel s st).2 := by
  induction fuel with
  | zero => exact fun hlt => absurd hlt (Nat.not_lt_zero _)
  | succ fuel ih =>
    intro s st hlt hground hst
    rw [Exec.resolveSubject, ExecM.run_get_bind]
    cases hget : st.get s with
    | some shown =>
      obtain ⟨b, hb, hshow⟩ := hst.slots s shown hget
      exact ⟨.refl hst, .inl ⟨b, shown, hb, rfl, hget, hshow⟩⟩
    | none =>
      simp only [Option.isSome_none, Bool.false_eq_true, if_false]
      cases hground with
      | @input _ id ordinal hs =>
        have hf : ¬IsField plan s := by simp [IsField, Exec.bitstringExtraction, hs]
        refine fill_spec (List.getElem?_eq_some_iff.mp hs).1 hf ?_ (.inl ?_)
        · rw [hs]
          simp only [Exec.subjectBound]
          cases ops.inputs[ordinal]?.join with
          | none => exact .refl hst
          | some b => exact .refl hst
        · rw [hs, value_input hs]
          simp only [Exec.subjectBound]
          refine .of_eq ?_
          cases ops.inputs[ordinal]?.join with
          | none => rfl
          | some b => rfl
      | @projected _ q hq hest hsource =>
        obtain ⟨id, kind, hs, hallows, _⟩ := id hest
        have hslt := (hord s id _ kind hs).1
        rw [hs]
        by_cases hf : IsField plan s
        · -- Only the test that reads the bitstring fills a field.
          obtain ⟨extraction, rfl⟩ : ∃ extraction, kind = .bitstringField extraction := by
            simp only [IsField, Exec.bitstringExtraction, hs] at hf
            cases kind with
            | bitstringField extraction => exact ⟨extraction, rfl⟩
            | _ => cases hf
          have hmem : s ∈ bitFields q := by
            unfold bitFields
            cases hr : q.predicate.region with
            | bitstring shape =>
              rw [hr] at hallows
              exact hallows
            | _ => simp [hr, Region.Allows] at hallows
          exact ⟨.refl hst, .inr (.inr (.inr ⟨rfl, q, hq, s, hmem, hget⟩))⟩
        · have hkind : ∀ extraction, kind ≠ .bitstringField extraction := by
            rintro extraction rfl
            exact hf (by simp [IsField, Exec.bitstringExtraction, hs])
          have hvalue : value rt plan ops s = _ := value_projection hord hs hkind
          rw [Exec.subjectBound_projection rt plan ops hkind]
          obtain ⟨hsteps, hfills⟩ :=
            ih (Nat.lt_of_lt_of_le hslt (Nat.le_of_lt_succ hlt)) hsource hst
          rcases hrun : Exec.resolveSubject rt plan ops fuel q.predicate.subject st with ⟨r, st'⟩
          rw [hrun] at hsteps hfills
          have hlen := (List.getElem?_eq_some_iff.mp hs).1
          rcases hfills with ⟨b, shown, hb, hr, hshown, hshow⟩ | ⟨stop, hb, hr⟩ |
            ⟨why, stop, hb, hr⟩ | ⟨hr, hlost⟩
          · cases hr
            obtain ⟨hsteps', hres⟩ := projectHeld_spec (W := W) hord hsteps.1 kind hshown hb hshow
            rw [hb] at hvalue
            refine fill_spec hlen hf ?_ (.inl ?_)
            · rw [ExecM.run_bind, hrun]
              exact hsteps.trans hsteps'
            · rw [ExecM.run_bind, hrun, hvalue]
              exact hres
          · cases hr
            rw [hb] at hvalue
            refine fill_spec hlen hf ?_ (.inl (.inr (.inl ⟨stop, hvalue, ?_⟩)))
            · rw [ExecM.run_bind, hrun]
              exact hsteps
            · rw [ExecM.run_bind, hrun]
          · cases hr
            rw [hb] at hvalue
            refine fill_spec hlen hf ?_ (.inl (.inr (.inr ⟨why, stop, hvalue, ?_⟩)))
            · rw [ExecM.run_bind, hrun]
              exact hsteps
            · rw [ExecM.run_bind, hrun]
          · cases hr
            refine fill_spec hlen hf ?_ (.inr ⟨?_, hlost⟩)
            · rw [ExecM.run_bind, hrun]
              exact hsteps
            · rw [ExecM.run_bind, hrun]

theorem resolve_spec (hord : InOrder plan.graph.subjects)
    (hs : Grounded plan.graph.subjects K s) (hst : Sound rt plan ops st) :
    Steps rt plan ops W st (Exec.resolve rt plan ops s st).2 ∧
      Fills rt plan ops K st s (Exec.resolve rt plan ops s st).1
        (Exec.resolve rt plan ops s st).2 :=
  resolveSubject_spec hord (s + 1) (Nat.lt_succ_self s) hs hst

theorem subjectWord_computes (hord : InOrder plan.graph.subjects)
    (hs : Grounded plan.graph.subjects K s) :
    Computes rt plan ops K W (Exec.subjectWord rt plan ops s) (word rt plan ops s) := by
  intro st hst
  obtain ⟨hsteps, hfills⟩ := resolve_spec (W := W) hord hs hst
  rw [Exec.subjectWord, ExecM.run_bind, word]
  rcases hrun : Exec.resolve rt plan ops s st with ⟨r, st'⟩
  rw [hrun] at hsteps hfills
  rcases hfills with ⟨b, shown, hb, hr, hshown, hshow⟩ | ⟨stop, hb, hr⟩ |
    ⟨why, stop, hb, hr⟩ | ⟨hr, hlost⟩
  · cases hr
    obtain ⟨hsteps', hword⟩ := heldWord_spec (W := W) hord hsteps.1 hshown hb hshow
    rw [hb]
    exact ⟨hsteps.trans hsteps', .inl hword⟩
  · cases hr
    rw [hb]
    exact ⟨hsteps, .inl rfl⟩
  · cases hr
    rw [hb]
    exact ⟨hsteps, .inr (.inl ⟨why, stop, rfl, rfl⟩)⟩
  · cases hr
    exact ⟨hsteps, .inr (.inr ⟨rfl, hlost⟩)⟩

theorem resolve_computes (hord : InOrder plan.graph.subjects)
    (hs : Grounded plan.graph.subjects K s) :
    Computes rt plan ops K W (Exec.resolve rt plan ops s)
      (do let _ ← value rt plan ops s; .ok ()) := by
  intro st hst
  obtain ⟨hsteps, hfills⟩ := resolve_spec (W := W) hord hs hst
  refine ⟨hsteps, ?_⟩
  rcases hfills with ⟨b, shown, hb, hr, _, _⟩ | ⟨stop, hb, hr⟩ | ⟨why, stop, hb, hr⟩ | ⟨hr, hlost⟩
  · exact .inl (by rw [hr, hb]; rfl)
  · exact .inl (by rw [hr, hb]; rfl)
  · exact .inr (.inl ⟨why, stop, by rw [hb]; rfl, hr⟩)
  · exact .inr (.inr ⟨hr, hlost⟩)

mutual
theorem evalGuard_computes (hord : InOrder plan.graph.subjects) (e : PatternGuardExpr D)
    (hleaves : ∀ s ∈ e.leaves.filterMap GuardLeaf.subject?, Grounded plan.graph.subjects K s) :
    Computes rt plan ops K W (Exec.evalGuard rt runHelper plan ops e)
      (evalGuard rt runHelper plan ops e) := by
  cases e with
  | const value =>
    rw [Exec.evalGuard, evalGuard]
    exact .ofExcept _
  | subject s =>
    rw [Exec.evalGuard, evalGuard]
    exact subjectWord_computes hord (hleaves s List.mem_cons_self)
  | pinned pin =>
    rw [Exec.evalGuard, evalGuard]
    exact .ofExcept _
  | unary op expr =>
    rw [Exec.evalGuard, evalGuard]
    exact (evalGuard_computes hord expr hleaves).bind fun v => .ofExcept _
  | binary op lhs rhs =>
    rw [PatternGuardExpr.leaves, List.filterMap_append] at hleaves
    rw [Exec.evalGuard, evalGuard]
    refine (evalGuard_computes hord lhs fun s hs =>
      hleaves s (List.mem_append_left _ hs)).bind fun l => ?_
    cases Operators.shortCircuit op l with
    | some v => exact .pure v
    | none =>
      exact (evalGuard_computes hord rhs fun s hs =>
        hleaves s (List.mem_append_right _ hs)).bind fun r => .ofExcept _
  | dispatch inputs prepared dispatch =>
    rw [Exec.evalGuard, evalGuard]
    exact (evalGuards_computes hord inputs hleaves).bind fun values => .ofExcept _

theorem evalGuards_computes (hord : InOrder plan.graph.subjects) (es : List (PatternGuardExpr D))
    (hleaves : ∀ s ∈ (PatternGuardExpr.allLeaves es).filterMap GuardLeaf.subject?,
      Grounded plan.graph.subjects K s) :
    Computes rt plan ops K W (Exec.evalGuards rt runHelper plan ops es)
      (evalGuards rt runHelper plan ops es) := by
  cases es with
  | nil =>
    rw [Exec.evalGuards, evalGuards]
    exact .pure _
  | cons e es =>
    rw [PatternGuardExpr.allLeaves, List.filterMap_append] at hleaves
    rw [Exec.evalGuards, evalGuards]
    refine (evalGuard_computes hord e fun s hs =>
      hleaves s (List.mem_append_left _ hs)).bind fun v => ?_
    exact (evalGuards_computes hord es fun s hs =>
      hleaves s (List.mem_append_right _ hs)).bind fun vs => .pure _
end

/-! ## Bitstrings -/

theorem readEach_append (xs ys : List SubjectId) (reader : Reader)
    (read : List (SubjectId × Value)) : readEach rt plan ops (xs ++ ys) reader read =
      (readEach rt plan ops xs reader read).bind fun r => readEach rt plan ops ys r.2 r.1 := by
  induction xs generalizing reader read with
  | nil => rfl
  | cons x xs ih =>
    simp only [List.cons_append, readEach, ih]
    cases Exec.bitstringExtraction plan.graph.subjects x with
    | none => rfl
    | some extraction =>
      simp only [Option.bind_eq_bind, Option.bind_some]
      cases sizeFrom ops read extraction.spec.size with
      | none => rfl
      | some size =>
        simp only [Option.bind_some]
        cases readExtraction rt.hostIsLittleEndian reader extraction size with
        | none => rfl
        | some r => rfl

theorem fieldsUpTo_fuel (hord : InOrder plan.graph.subjects) (fuel : Nat) :
    ∀ f < fuel, fieldsUpTo plan.graph.subjects fuel f =
      fieldsUpTo plan.graph.subjects (f + 1) f := by
  induction fuel using Nat.strongRecOn with
  | ind fuel ih =>
    intro f hf
    cases fuel with
    | zero => exact absurd hf (Nat.not_lt_zero f)
    | succ fuel =>
      rw [fieldsUpTo, fieldsUpTo]
      cases hext : Exec.bitstringExtraction plan.graph.subjects f with
      | none => rfl
      | some extraction =>
        obtain ⟨previous, spec, isLast⟩ := extraction
        cases previous with
        | none => rfl
        | some g =>
          have hg : g < f := by
            unfold Exec.bitstringExtraction at hext
            split at hext
            next hget =>
              cases hext
              exact (hord f _ _ _ hget).2 _ rfl g rfl
            next => cases hext
          simp only
          rw [ih fuel (Nat.lt_succ_self fuel) g (Nat.lt_of_lt_of_le hg (Nat.le_of_lt_succ hf)),
            ih f hf g hg]

theorem bitstringExtraction_of_getElem? {f id x : SubjectId} {extraction : BitstringExtraction}
    (h : plan.graph.subjects[f]? = some ⟨id, .projection ⟨x, .bitstringField extraction⟩⟩) :
    Exec.bitstringExtraction plan.graph.subjects f = some extraction := by
  simp [Exec.bitstringExtraction, h]

theorem fieldsUpTo_concat (hord : InOrder plan.graph.subjects) {f id x : SubjectId}
    {extraction : BitstringExtraction} {done : List SubjectId}
    (hget : plan.graph.subjects[f]? = some ⟨id, .projection ⟨x, .bitstringField extraction⟩⟩)
    (hprev : extraction.previous = done.getLast?)
    (hdone : ∀ g, done.getLast? = some g → fieldsUpTo plan.graph.subjects (g + 1) g = done) :
    fieldsUpTo plan.graph.subjects (f + 1) f = done ++ [f] := by
  rw [fieldsUpTo, bitstringExtraction_of_getElem? hget]
  obtain ⟨previous, spec, isLast⟩ := extraction
  simp only at hprev
  subst hprev
  cases hlast : done.getLast? with
  | none => rw [List.getLast?_eq_none_iff.mp hlast]; rfl
  | some g =>
    rw [hlast] at hget
    simp only
    rw [fieldsUpTo_fuel hord f g ((hord f _ _ _ hget).2 _ rfl g rfl), hdone g hlast]

/-- Reading fields fills their slots with what reading them from the start gives. -/
theorem readFields_spec (hord : InOrder plan.graph.subjects) {x : SubjectId} {bits : Bitstring}
    (hx : word rt plan ops x = .ok (.bits bits)) {fields : List SubjectId}
    (hW : ∀ f ∈ fields, f ∈ W) {done : List SubjectId} {reader : Reader}
    {read : List (SubjectId × Value)} (hchain : FieldChain plan.graph.subjects x done fields)
    (hdone : ∀ g, done.getLast? = some g → fieldsUpTo plan.graph.subjects (g + 1) g = done)
    (hread : readEach rt plan ops done (readerInit bits) [] = some (read, reader))
    (hslots : ∀ g ∈ done, ∃ v, read.lookup g = some v ∧ st.get g = some (.runtime v))
    (hst : Sound rt plan ops st) :
    Steps rt plan ops W st (Exec.readFields rt plan ops fields reader st).2 ∧
      (Exec.readFields rt plan ops fields reader st).1 =
        .ok ((readEach rt plan ops fields reader read).map Prod.snd) ∧
      ∀ reader', (Exec.readFields rt plan ops fields reader st).1 = .ok (some reader') →
        ∀ f ∈ fields, ((Exec.readFields rt plan ops fields reader st).2.get f).isSome := by
  induction fields generalizing done reader read st with
  | nil => exact ⟨.refl hst, rfl, fun _ _ f hf => by cases hf⟩
  | cons f fields ih =>
    obtain ⟨⟨id, extraction, hget, hprev, hsize⟩, hrest⟩ := hchain
    have hext := bitstringExtraction_of_getElem? hget
    have hup := fieldsUpTo_concat hord hget hprev hdone
    have hwidth : Exec.bitSizeValue ops st extraction.spec.size =
        sizeFrom ops read extraction.spec.size := by
      cases hsz : extraction.spec.size with
      | none => rfl
      | some size =>
        cases size with
        | literal n => rfl
        | binding g =>
          obtain ⟨v, hlookup, hslot⟩ := hslots g (hsize g hsz)
          simp [Exec.bitSizeValue, sizeFrom, hslot, hlookup]
        | pinned pin => rfl
    rw [Exec.readFields, readEach, hext]
    simp only [ExecM.run_get_bind, hwidth, Option.bind_eq_bind, Option.bind_some]
    cases hw : sizeFrom ops read extraction.spec.size with
    | none => exact ⟨.refl hst, rfl, fun _ hr => by cases hr⟩
    | some size =>
      simp only [Option.bind_some]
      cases hval : readExtraction rt.hostIsLittleEndian reader extraction size with
      | none => exact ⟨.refl hst, rfl, fun _ hr => by cases hr⟩
      | some r =>
        obtain ⟨v, reader'⟩ := r
        simp only [Option.bind_some, ExecM.run_modify_bind]
        have hlen := (List.getElem?_eq_some_iff.mp hget).1
        have hread' : readEach rt plan ops (done ++ [f]) (readerInit bits) [] =
            some ((f, v) :: read, reader') := by
          rw [readEach_append, hread]
          simp [readEach, hext, hw, hval]
        have hvalue : value rt plan ops f = .ok (.runtime v) := by
          rw [value_field hord hget, hx]
          show fieldValue rt plan ops f (.bits bits) = _
          simp [fieldValue, hup, hread', required]
        have hstep : Steps rt plan ops W st (st.set f (.runtime v)) :=
          .set hst hlen hvalue (.refl _) fun _ => hW f List.mem_cons_self
        have hslots' : ∀ g ∈ done ++ [f], ∃ u, ((f, v) :: read).lookup g = some u ∧
            (st.set f (.runtime v)).get g = some (.runtime u) := by
          intro g hg
          by_cases heq : g = f
          · subst heq
            exact ⟨v, by simp, DispatchExecState.get_set_self (hst.size ▸ hlen)⟩
          · have hg' : g ∈ done := by simpa [heq] using hg
            obtain ⟨u, hu, hslot⟩ := hslots g hg'
            refine ⟨u, ?_, (DispatchExecState.get_set_ne heq).trans hslot⟩
            rw [List.lookup_cons, beq_eq_false_iff_ne.mpr heq]
            exact hu
        obtain ⟨hsteps, hres, hheld⟩ := ih (fun g hg => hW g (List.mem_cons_of_mem f hg)) hrest
          (fun g hg => by
            rw [List.getLast?_concat, Option.some.injEq] at hg
            exact hg ▸ hup) hread' hslots' hstep.1
        refine ⟨hstep.trans hsteps, hres, fun reader'' hr g hg => ?_⟩
        rcases List.mem_cons.mp hg with rfl | hg
        · refine hsteps.isSome ?_
          rw [DispatchExecState.get_set_self (hst.size ▸ hlen)]
          rfl
        · exact hheld reader'' hr g hg

/-! ## Questions -/

variable (rt plan ops) in
/-- A question decided as direct evaluation decides it, unless that breaks, or a field is lost and
the question is a miss.  Where direct evaluation breaks there is no yes, except of a type test
(`T`), which may be put to a value that was built meanwhile.  A yes leaves the fields `F` filled. -/
def Decides (K : Set (RegionQuestion TH)) (W : Set SubjectId) (F : List SubjectId) (T : Prop)
    (x : ExecM Bool) (p : Except DispatchStop Bool) : Prop :=
  ∀ st, Sound rt plan ops st → Steps rt plan ops W st (x st).2 ∧
    ((x st).1 = p ∨ (∃ why, p = .error (.broken why) ∧ (T ∨ (x st).1 ≠ .ok true)) ∨
      (x st).1 = .ok false ∧ Lost K st) ∧
    ((x st).1 = .ok true → ∀ f ∈ F, ((x st).2.get f).isSome)

theorem Decides.congr {x y : ExecM Bool} {p p' : Except DispatchStop Bool} {F : List SubjectId}
    {T : Prop} (h : Decides rt plan ops K W F T x p) (hx : x = y) (hp : p = p') :
    Decides rt plan ops K W F T y p' := hx ▸ hp ▸ h

theorem Computes.decides {α : Type} {x : ExecM α} {p : Except DispatchStop α}
    {f : α → ExecM Bool} {q : α → Except DispatchStop Bool} {F : List SubjectId}
    {T : Prop} (hx : Computes rt plan ops K W x p)
    (hf : ∀ a st, p = .ok a → Sound rt plan ops st →
      Steps rt plan ops W st (f a st).2 ∧ (f a st).1 = q a ∧
        ((f a st).1 = .ok true → ∀ t ∈ F, ((f a st).2.get t).isSome)) :
    Decides rt plan ops K W F T
      (do match ← orMiss x with
        | none => Pure.pure false
        | some a => f a)
      (do match ← Except.orMiss p with
        | none => .ok false
        | some a => q a) := by
  intro st hst
  obtain ⟨hsteps, hagree⟩ := hx st hst
  rw [ExecM.run_bind]
  simp only [orMiss]
  rcases hrun : x st with ⟨r, st'⟩
  rw [hrun] at hsteps hagree
  rcases hagree with heq | ⟨why, stop, rfl, hr⟩ | ⟨hr, hlost⟩
  · subst heq
    cases r with
    | ok a =>
      obtain ⟨hsteps', hres, hheld⟩ := hf a st' rfl hsteps.1
      exact ⟨hsteps.trans hsteps', .inl hres, hheld⟩
    | error stop => cases stop <;> exact ⟨hsteps, .inl rfl, fun h => by cases h⟩
  · cases hr
    cases stop <;>
      exact ⟨hsteps, .inr (.inl ⟨why, rfl, .inr fun h => by cases h⟩), fun h => by cases h⟩
  · cases hr
    exact ⟨hsteps, .inr (.inr ⟨rfl, hlost⟩), fun h => by cases h⟩

theorem setMapValues_spec (hord : InOrder plan.graph.subjects) {key : GroundValue} {w v : Value}
    (hw : word rt plan ops s = .ok w) (hv : mapLookup rt plan.preparedKeys ops w key = some v)
    {results : List SubjectId}
    (hres : ∀ t ∈ results, ∃ id kind, plan.graph.subjects[t]? = some ⟨id, .projection ⟨s, kind⟩⟩)
    (hst : Sound rt plan ops st) :
    Steps rt plan ops W st (Exec.setMapValues plan s key v results st).2 ∧
      (Exec.setMapValues plan s key v results st).1 = .ok () := by
  induction results generalizing st with
  | nil => exact ⟨.refl hst, rfl⟩
  | cons t results ih =>
    obtain ⟨id, kind, ht⟩ := hres t List.mem_cons_self
    have hrest := fun t' ht' => hres t' (List.mem_cons_of_mem t ht')
    rw [Exec.setMapValues, ht]
    simp only
    by_cases hkind : kind = .mapValue key
    · subst hkind
      have hf : ¬IsField plan t := by simp [IsField, Exec.bitstringExtraction, ht]
      have hvalue : value rt plan ops t = .ok (.runtime v) := by
        rw [value_projection hord ht (fun _ h => nomatch h)]
        rw [word] at hw
        obtain ⟨b, hb, hw⟩ := Fz.Base.Except.bind_eq_ok.mp hw
        rw [hb]
        show projectBound rt plan ops s (.mapValue key) b = _
        rw [projectBound, hw]
        · show (projectWord rt plan.preparedKeys ops w (.mapValue key) >>=
            fun field => Except.ok (Bound.runtime field)) = _
          rw [show projectWord rt plan.preparedKeys ops w (.mapValue key) = .ok v by
            simp [projectWord, hv, required]]
          rfl
        · simp
      have hstep : Steps rt plan ops W st (st.set t (.runtime v)) :=
        .set hst (List.getElem?_eq_some_iff.mp ht).1 hvalue (.refl _) fun h => absurd h hf
      obtain ⟨hsteps, hok⟩ := ih hrest hstep.1
      simp only [if_true, ExecM.run_modify_bind]
      exact ⟨hstep.trans hsteps, hok⟩
    · have hne : ¬(⟨s, kind⟩ : SubjectProjection) = ⟨s, .mapValue key⟩ := by simpa using hkind
      simp only [hne, if_false]
      exact ih hrest hst

variable {q : RegionQuestion TH}

/-- A question about a word, with the word its subject has. -/
theorem wordHit_spec (hord : InOrder plan.graph.subjects) {w : Value}
    (hask : AskOk plan.graph.subjects plan.guards K q)
    (hw : word rt plan ops q.predicate.subject = .ok w) (hW : ∀ f ∈ bitFields q, f ∈ W)
    (hst : Sound rt plan ops st) : Steps rt plan ops W st
        (Exec.wordHit rt plan ops q.predicate.subject w q.matchEvidence q.predicate.region st).2 ∧
      (Exec.wordHit rt plan ops q.predicate.subject w q.matchEvidence q.predicate.region st).1 =
        wordHit rt plan ops w q.predicate.region ∧
      ((Exec.wordHit rt plan ops q.predicate.subject w q.matchEvidence q.predicate.region st).1 =
        .ok true → ∀ f ∈ bitFields q, ((Exec.wordHit rt plan ops q.predicate.subject w
          q.matchEvidence q.predicate.region st).2.get f).isSome) := by
  obtain ⟨⟨subject, region⟩, matchEvidence, missEvidence⟩ := q
  simp only at hw ⊢
  cases region with
  | equal value =>
    cases value with
    | const value => exact ⟨.refl hst, rfl, fun _ f hf => by cases hf⟩
    | pinned pin =>
      simp only [Exec.wordHit, wordHit]
      cases ops.pinned[pin]? with
      | none => exact ⟨.refl hst, rfl, fun _ f hf => by cases hf⟩
      | some want => exact ⟨.refl hst, rfl, fun _ f hf => by cases hf⟩
  | list region => cases region <;> exact ⟨.refl hst, rfl, fun _ f hf => by cases hf⟩
  | mapKind => exact ⟨.refl hst, rfl, fun _ f hf => by cases hf⟩
  | mapKeyPresent key =>
    simp only [Exec.wordHit, wordHit]
    cases hv : mapLookup rt plan.preparedKeys ops w key with
    | none => exact ⟨.refl hst, rfl, fun _ f hf => by cases hf⟩
    | some v =>
      have hres : ∀ t ∈ matchEvidence.projections, ∃ id kind,
          plan.graph.subjects[t]? = some ⟨id, .projection ⟨subject, kind⟩⟩ := by
        intro t ht
        obtain ⟨id, kind, hget, _, _⟩ := hask.projects t ht
        exact ⟨id, kind, hget⟩
      obtain ⟨hsteps, hok⟩ := setMapValues_spec (W := W) hord hw hv hres hst
      simp only
      rw [ExecM.run_bind]
      rcases hrun : Exec.setMapValues plan subject key v matchEvidence.projections st with ⟨r, st'⟩
      rw [hrun] at hsteps hok
      cases hok
      exact ⟨hsteps, rfl, fun _ f hf => by cases hf⟩
  | bitstring shape =>
    simp only [Exec.wordHit, wordHit, Exec.readBitstring]
    cases w with
    | bits b =>
      have hchain : FieldChain plan.graph.subjects subject [] shape.fields := hask.chain shape rfl
      have hW' : ∀ f ∈ shape.fields, f ∈ W := hW
      obtain ⟨hsteps, hok, hheld⟩ := readFields_spec hord hw hW' hchain
        (fun g hg => by cases hg) rfl (fun g hg => by cases hg) hst
      simp only
      rw [ExecM.run_bind]
      rcases hrun : Exec.readFields rt plan ops shape.fields (readerInit b) st with ⟨r, st'⟩
      rw [hrun] at hsteps hok hheld
      cases hok
      cases hr : readEach rt plan ops shape.fields (readerInit b) [] with
      | none => exact ⟨hsteps, rfl, fun h => by cases h⟩
      | some r => exact ⟨hsteps, rfl, fun _ => hheld r.2 (by rw [hr]; rfl)⟩
    | _ => exact ⟨.refl hst, rfl, fun h => by cases h⟩
  | type ty => exact ⟨.refl hst, rfl, fun _ f hf => by cases hf⟩
  | tupleArity arity => exact ⟨.refl hst, rfl, fun _ f hf => by cases hf⟩
  | guard g => exact ⟨.refl hst, rfl, fun _ f hf => by cases hf⟩

theorem subjectWord_held (hord : InOrder plan.graph.subjects) (hst : Sound rt plan ops st)
    (hget : st.get s = some shown) (hb : value rt plan ops s = .ok b) (hshow : Shows b shown) :
    Steps rt plan ops W st (Exec.subjectWord rt plan ops s st).2 ∧
      (Exec.subjectWord rt plan ops s st).1 = wordOf s b := by
  have hresolve : Exec.resolve rt plan ops s st = (.ok (), st) := by
    rw [Exec.resolve, Exec.resolveSubject, ExecM.run_get_bind, hget]
    rfl
  rw [Exec.subjectWord, ExecM.run_bind, hresolve]
  exact heldWord_spec hord hst hget hb hshow

theorem typeHit_decides (hord : InOrder plan.graph.subjects) (ty : TH) {T : Prop} (hT : T)
    (hs : Grounded plan.graph.subjects K s) :
    Decides rt plan ops K W [] T
      (do match ← orMiss (Exec.resolve rt plan ops s) with
        | none => Pure.pure false
        | some () => do
          let held ← Fz.Dispatch.ofExcept (required ((← get).get s))
          Fz.Dispatch.ofExcept (unbroken (rt.typeMatches ty held)))
      (do match ← Except.orMiss (value rt plan ops s) with
        | none => .ok false
        | some b => unbroken (rt.typeMatches ty b)) := by
  intro st hst
  obtain ⟨hsteps, hfills⟩ := resolve_spec (W := W) hord hs hst
  rw [ExecM.run_bind]
  simp only [orMiss]
  rcases hrun : Exec.resolve rt plan ops s st with ⟨r, st'⟩
  rw [hrun] at hsteps hfills
  rcases hfills with ⟨b, shown, hb, hr, hshown, hshow⟩ | ⟨stop, hb, hr⟩ |
    ⟨why, stop, hb, hr⟩ | ⟨hr, hlost⟩
  · cases hr
    simp only [ExecM.run_get_bind, ExecM.run_ofExcept_bind, hshown, required, hb]
    refine ⟨hsteps, ?_, fun _ f hf => by cases hf⟩
    rcases hshow with rfl | ⟨v, hv, rfl⟩
    · exact .inl rfl
    · cases hty : rt.typeMatches ty b with
      | error why =>
        exact .inr (.inl ⟨why, by rw [Except.orMiss]; simp [bind, Except.bind, hty, unbroken],
          .inl hT⟩)
      | ok answer =>
        rw [rt.typeMatches_word hv hty]
        exact .inl (by rw [Except.orMiss]; simp [bind, Except.bind, hty]; rfl)
  · cases hr
    rw [hb]
    cases stop <;> exact ⟨hsteps, .inl rfl, fun _ f hf => by cases hf⟩
  · cases hr
    rw [hb]
    cases stop <;> exact ⟨hsteps, .inr (.inl ⟨why, rfl, .inl hT⟩), fun _ f hf => by cases hf⟩
  · cases hr
    exact ⟨hsteps, .inr (.inr ⟨rfl, hlost⟩), fun _ f hf => by cases hf⟩

/-- Whether a word is a tuple of some arity. -/
def tupleOf (arity : Nat) (p : Except DispatchStop Value) : Except DispatchStop Bool := do
  match ← Except.orMiss p with
  | some (.tuple fields) => .ok (fields.length = arity)
  | _ => .ok false

/-- Whether the value of a subject is a tuple of some arity, in the form it has. -/
def arityHit (s : SubjectId) (arity : Nat) : Bound → Except DispatchStop Bool
  | .tuple fields => .ok (fields.length = arity)
  | b => tupleOf arity (wordOf s b)

/-- The arity of a filled slot. -/
theorem heldArity_spec (hord : InOrder plan.graph.subjects) (arity : Nat)
    (hst : Sound rt plan ops st) (hget : st.get s = some shown)
    (hb : value rt plan ops s = .ok b) (hshow : Shows b shown) :
    let x : ExecM Bool := do
      match (← get).get s with
      | some (.tuple fields) => Pure.pure (fields.length = arity)
      | _ =>
        match ← orMiss (Exec.subjectWord rt plan ops s) with
        | some (.tuple fields) => Pure.pure (fields.length = arity)
        | _ => Pure.pure false
    Steps rt plan ops W st (x st).2 ∧ (x st).1 = arityHit s arity b := by
  intro x
  obtain ⟨hsteps, hword⟩ := subjectWord_held (W := W) hord hst hget hb hshow
  -- What is left where the slot holds no lanes of a tuple.
  have hrest : ∀ y : ExecM Bool, y = (do
        match ← orMiss (Exec.subjectWord rt plan ops s) with
        | some (.tuple fields) => Pure.pure (fields.length = arity)
        | _ => Pure.pure false) →
      Steps rt plan ops W st (y st).2 ∧ (y st).1 = tupleOf arity (wordOf s b) := by
    rintro y rfl
    rw [ExecM.run_bind, ← hword]
    simp only [orMiss]
    rcases hrun : Exec.subjectWord rt plan ops s st with ⟨r, st'⟩
    rw [hrun] at hsteps
    cases r with
    | ok v => cases v <;> exact ⟨hsteps, rfl⟩
    | error stop => cases stop <;> exact ⟨hsteps, rfl⟩
  simp only [x, ExecM.run_get_bind, hget]
  cases shown with
  | tuple fields =>
    rcases hshow with rfl | ⟨v, _, hv⟩
    · exact ⟨.refl hst, rfl⟩
    · cases hv
  | runtime v =>
    obtain ⟨hsteps', hres⟩ := hrest _ rfl
    refine ⟨hsteps', hres.trans ?_⟩
    cases b with
    | tuple fields =>
      rcases hshow with hshow | ⟨w, hw, hv⟩
      · cases hshow
      · cases hv
        obtain ⟨vs, hvs, rfl⟩ := Fz.Base.Except.map_eq_ok.mp hw
        rw [wordOf_shows (.inr ⟨_, hw, rfl⟩) _ rfl, arityHit, ← Bound.length_words hvs]
        rfl
    | _ => rfl
  | absent =>
    obtain ⟨hsteps', hres⟩ := hrest _ rfl
    rcases hshow with rfl | ⟨v, _, hv⟩
    · exact ⟨hsteps', hres⟩
    · cases hv
  | callable word =>
    obtain ⟨hsteps', hres⟩ := hrest _ rfl
    rcases hshow with rfl | ⟨v, _, hv⟩
    · exact ⟨hsteps', hres⟩
    · cases hv

theorem arityHit_decides (hord : InOrder plan.graph.subjects) (arity : Nat) {T : Prop}
    (hs : Grounded plan.graph.subjects K s) :
    Decides rt plan ops K W [] T
      (do match ← orMiss (Exec.resolve rt plan ops s) with
        | none => Pure.pure false
        | some () =>
          match (← get).get s with
          | some (.tuple fields) => Pure.pure (fields.length = arity)
          | _ =>
            match ← orMiss (Exec.subjectWord rt plan ops s) with
            | some (.tuple fields) => Pure.pure (fields.length = arity)
            | _ => Pure.pure false)
      (do match ← Except.orMiss (value rt plan ops s) with
        | none => .ok false
        | some b => arityHit s arity b) := by
  intro st hst
  obtain ⟨hsteps, hfills⟩ := resolve_spec (W := W) hord hs hst
  rw [ExecM.run_bind]
  simp only [orMiss]
  rcases hrun : Exec.resolve rt plan ops s st with ⟨r, st'⟩
  rw [hrun] at hsteps hfills
  rcases hfills with ⟨b, shown, hb, hr, hshown, hshow⟩ | ⟨stop, hb, hr⟩ |
    ⟨why, stop, hb, hr⟩ | ⟨hr, hlost⟩
  · cases hr
    obtain ⟨hsteps', hres⟩ := heldArity_spec (W := W) hord arity hsteps.1 hshown hb hshow
    rw [hb]
    exact ⟨hsteps.trans hsteps', .inl hres, fun _ f hf => nomatch hf⟩
  · cases hr
    rw [hb]
    cases stop <;> exact ⟨hsteps, .inl rfl, fun _ f hf => nomatch hf⟩
  · cases hr
    rw [hb]
    cases stop <;>
      exact ⟨hsteps, .inr (.inl ⟨why, rfl, .inr fun h => nomatch h⟩), fun _ f hf => nomatch hf⟩
  · cases hr
    exact ⟨hsteps, .inr (.inr ⟨rfl, hlost⟩), fun _ f hf => nomatch hf⟩

theorem wordQuestion_decides (hord : InOrder plan.graph.subjects)
    (hask : AskOk plan.graph.subjects plan.guards K q) (hW : ∀ f ∈ bitFields q, f ∈ W)
    (hguard : ∀ g, q.predicate.region ≠ .guard g) :
    Decides rt plan ops K W (bitFields q) (∃ ty, q.predicate.region = .type ty)
      (do match ← orMiss (Exec.subjectWord rt plan ops q.predicate.subject) with
        | none => Pure.pure false
        | some word =>
          Exec.wordHit rt plan ops q.predicate.subject word q.matchEvidence q.predicate.region)
      (do match ← Except.orMiss (word rt plan ops q.predicate.subject) with
        | none => .ok false
        | some word => wordHit rt plan ops word q.predicate.region) := by
  have hs : Grounded plan.graph.subjects K q.predicate.subject := by
    refine hask.reads _ ?_
    unfold questionReads
    split
    next g hr => exact absurd hr (hguard g)
    next => exact List.mem_cons_self
  have hx : Computes rt plan ops K W (Exec.subjectWord rt plan ops q.predicate.subject)
      (word rt plan ops q.predicate.subject) := subjectWord_computes hord hs
  refine (hx.decides (F := bitFields q)
    (f := fun w => Exec.wordHit rt plan ops q.predicate.subject w q.matchEvidence
      q.predicate.region)
    (q := fun w => wordHit rt plan ops w q.predicate.region)
    fun w st hw hst => wordHit_spec hord hask hw hW hst).congr ?_ ?_
  · exact bind_congr fun o => by cases o <;> rfl
  · exact bind_congr fun o => by cases o <;> rfl

/-- One region question of a path. -/
theorem regionHit_decides (hord : InOrder plan.graph.subjects)
    (hask : AskOk plan.graph.subjects plan.guards K q) (hW : ∀ f ∈ bitFields q, f ∈ W) :
    Decides rt plan ops K W (bitFields q) (∃ ty, q.predicate.region = .type ty)
      (Exec.regionHit rt runHelper plan ops q.predicate.subject q.matchEvidence q.predicate.region)
      (regionHit rt runHelper plan ops q.predicate.subject q.predicate.region) := by
  cases hr : q.predicate.region with
  | guard g =>
    have hnone : bitFields q = [] := by simp [bitFields, hr]
    rw [hnone]
    unfold Exec.regionHit regionHit
    simp only
    cases hg : plan.guards[g]? with
    | none => exact fun st hst => ⟨.refl hst, .inl rfl, fun _ f hf => by cases hf⟩
    | some expr =>
      have hleaves : ∀ s ∈ expr.leaves.filterMap GuardLeaf.subject?,
          Grounded plan.graph.subjects K s := by
        intro s hs
        refine hask.reads s ?_
        simpa [questionReads, hr, hg] using hs
      have hx : Computes rt plan ops K W (Exec.evalGuard rt runHelper plan ops expr)
          (evalGuard rt runHelper plan ops expr) := evalGuard_computes hord expr hleaves
      refine (hx.decides (F := []) (f := fun v => Pure.pure v.isTruthy)
        (q := fun v => .ok v.isTruthy)
        fun v st _ hst => ⟨.refl hst, rfl, fun _ f hf => by cases hf⟩).congr ?_ ?_
      · exact bind_congr fun o => by cases o <;> rfl
      · exact bind_congr fun o => by cases o <;> rfl
  | type ty =>
    have hnone : bitFields q = [] := by simp [bitFields, hr]
    have hs := hask.reads q.predicate.subject (by simp [questionReads, hr])
    rw [hnone]
    exact typeHit_decides hord ty ⟨ty, rfl⟩ hs
  | tupleArity arity =>
    have hnone : bitFields q = [] := by simp [bitFields, hr]
    have hs := hask.reads q.predicate.subject (by simp [questionReads, hr])
    have hdirect : regionHit rt runHelper plan ops q.predicate.subject (.tupleArity arity) =
        (do match ← Except.orMiss (value rt plan ops q.predicate.subject) with
          | none => .ok false
          | some b => arityHit q.predicate.subject arity b) := by
      unfold regionHit
      refine bind_congr fun b => ?_
      cases b with
      | none => rfl
      | some b => cases b <;> rfl
    rw [hnone, hdirect]
    exact arityHit_decides hord arity hs
  | _ =>
    have hword := @wordQuestion_decides TH D rt plan ops K W q hord hask hW
    rw [hr] at hword
    exact hword fun g h => by cases h

theorem applyEdgeEvidence_computes (hord : InOrder plan.graph.subjects)
    {projections : List SubjectId} (hground : ∀ t ∈ projections, Grounded plan.graph.subjects K t) :
    Computes rt plan ops K W (Exec.applyEdgeEvidence rt plan ops projections)
      (projectAll rt plan ops projections) := by
  induction projections with
  | nil => exact .pure ()
  | cons t projections ih =>
    have h := (resolve_computes (W := W) hord (hground t List.mem_cons_self)).bind fun _ =>
      ih fun t' ht' => hground t' (List.mem_cons_of_mem t ht')
    have heq : projectAll rt plan ops (t :: projections) =
        (do let _ ← value rt plan ops t; .ok ()) >>=
          fun _ => projectAll rt plan ops projections := by
      rw [projectAll]
      cases value rt plan ops t <;> rfl
    rw [heq]
    exact h

/-- Whether a test takes its match edge. -/
theorem takesMatch_decides (hord : InOrder plan.graph.subjects)
    (hask : AskOk plan.graph.subjects plan.guards K q) (hW : ∀ f ∈ bitFields q, f ∈ W) :
    Decides rt plan ops K W (bitFields q) (∃ ty, q.predicate.region = .type ty)
      (Exec.takesMatch rt runHelper plan ops q) (answer rt runHelper plan ops q) := by
  intro st hst
  have hregion : Decides rt plan ops K W (bitFields q) (∃ ty, q.predicate.region = .type ty)
      (Exec.regionHit rt runHelper plan ops q.predicate.subject q.matchEvidence q.predicate.region)
      (regionHit rt runHelper plan ops q.predicate.subject q.predicate.region) :=
    regionHit_decides hord hask hW
  obtain ⟨hsteps, hagree, hheld⟩ := hregion st hst
  -- What the match edge projects is established by the question itself.
  have hev : Computes rt plan ops (insert q K) W
      (Exec.applyEdgeEvidence rt plan ops q.matchEvidence.projections)
      (projectAll rt plan ops q.matchEvidence.projections) :=
    applyEdgeEvidence_computes hord fun t ht => hask.grounded_projection ht
  have hedge : Decides rt plan ops (insert q K) W [] False
      (do return (← orMiss (Exec.applyEdgeEvidence rt plan ops q.matchEvidence.projections)).isSome)
      (do return (← Except.orMiss
        (projectAll rt plan ops q.matchEvidence.projections)).isSome) := by
    refine (hev.decides (F := []) (f := fun _ => Pure.pure true) (q := fun _ => .ok true)
      fun _ st _ hst => ⟨.refl hst, rfl, fun _ f hf => nomatch hf⟩).congr ?_ ?_
    · exact bind_congr fun o => by cases o <;> rfl
    · exact bind_congr fun o => by cases o <;> rfl
  rw [Exec.takesMatch, ExecM.run_bind, answer]
  rcases hrun : Exec.regionHit rt runHelper plan ops q.predicate.subject q.matchEvidence
    q.predicate.region st with ⟨r, st'⟩
  rw [hrun] at hsteps hagree hheld
  generalize regionHit rt runHelper plan ops q.predicate.subject q.predicate.region = p at hagree
  cases r with
  | error stop =>
    refine ⟨hsteps, ?_, fun h => nomatch h⟩
    rcases hagree with hp | ⟨why, rfl, _⟩ | ⟨hr, _⟩
    · cases hp
      exact .inl rfl
    · exact .inr (.inl ⟨why, rfl, .inr fun h => nomatch h⟩)
    · cases hr
  | ok hit =>
    cases hit with
    | false =>
      refine ⟨hsteps, ?_, fun h => nomatch h⟩
      rcases hagree with hp | ⟨why, rfl, _⟩ | ⟨_, hlost⟩
      · cases hp
        exact .inl rfl
      · exact .inr (.inl ⟨why, rfl, .inr fun h => nomatch h⟩)
      · exact .inr (.inr ⟨rfl, hlost⟩)
    | true =>
      have hfields := hheld rfl
      obtain ⟨hsteps', hagree', _⟩ := hedge st' hsteps.1
      refine ⟨hsteps.trans hsteps', ?_, fun _ f hf => hsteps'.isSome (hfields f hf)⟩
      rcases hagree with hp | ⟨why, rfl, htype⟩ | ⟨hr, _⟩
      · cases hp
        rcases hagree' with heq | ⟨why, hbroken, hfalse⟩ | ⟨hr, hlost⟩
        · exact .inl heq
        · exact .inr (.inl ⟨why, hbroken, hfalse.imp False.elim id⟩)
        · exact .inr (.inr ⟨hr, (hlost.of_insert hfields).of_steps hsteps⟩)
      · exact .inr (.inl ⟨why, rfl, .inl (htype.resolve_right fun h => h rfl)⟩)
      · cases hr

theorem value_of_projectAll {projections : List SubjectId}
    (h : projectAll rt plan ops projections = .ok ()) :
    ∀ t ∈ projections, ∃ b, value rt plan ops t = .ok b := by
  induction projections with
  | nil => exact fun t ht => nomatch ht
  | cons t projections ih =>
    rw [projectAll] at h
    obtain ⟨b, hb, h⟩ := Fz.Base.Except.bind_eq_ok.mp h
    intro t' ht'
    rcases List.mem_cons.mp ht' with rfl | ht'
    · exact ⟨b, hb⟩
    · exact ih h t' ht'

/-- What a match edge that is taken projects is there. -/
theorem value_of_takesMatch (hord : InOrder plan.graph.subjects)
    (hask : AskOk plan.graph.subjects plan.guards K q) (hst : Sound rt plan ops st)
    {st' : DispatchExecState} (h : Exec.takesMatch rt runHelper plan ops q st = (.ok true, st')) :
    ∀ t ∈ q.matchEvidence.projections, ∃ b, value rt plan ops t = .ok b := by
  have hregion : Decides rt plan ops K {f | f ∈ bitFields q} (bitFields q)
      (∃ ty, q.predicate.region = .type ty)
      (Exec.regionHit rt runHelper plan ops q.predicate.subject q.matchEvidence q.predicate.region)
      (regionHit rt runHelper plan ops q.predicate.subject q.predicate.region) :=
    regionHit_decides hord hask fun f hf => hf
  have hsteps := (hregion st hst).1
  rw [Exec.takesMatch, ExecM.run_bind] at h
  rcases hrun : Exec.regionHit rt runHelper plan ops q.predicate.subject q.matchEvidence
    q.predicate.region st with ⟨r, st₁⟩
  rw [hrun] at h hsteps
  cases r with
  | error stop => cases h
  | ok hit =>
    cases hit with
    | false => cases h
    | true =>
      have hev : Computes rt plan ops (insert q K) {f | f ∈ bitFields q}
          (Exec.applyEdgeEvidence rt plan ops q.matchEvidence.projections)
          (projectAll rt plan ops q.matchEvidence.projections) :=
        applyEdgeEvidence_computes hord fun t ht => hask.grounded_projection ht
      have hagree := (hev st₁ hsteps.1).2
      simp only [if_true, ExecM.run_bind, orMiss] at h
      rcases hrun' : Exec.applyEdgeEvidence rt plan ops q.matchEvidence.projections st₁ with
        ⟨r', st₂⟩
      rw [hrun'] at h hagree
      cases r' with
      | error stop => cases stop <;> cases h
      | ok u =>
        rcases hagree with hp | ⟨_, _, _, hr⟩ | ⟨hr, _⟩
        · exact value_of_projectAll hp.symm
        · cases hr
        · cases hr

variable (runHelper) in
theorem ask_spec (hord : InOrder plan.graph.subjects)
    (hask : AskOk plan.graph.subjects plan.guards K q) (hst : Sound rt plan ops st) :
    Sound rt plan ops (Exec.ask rt runHelper plan ops q st).2 ∧
      ((Exec.ask rt runHelper plan ops q st).1 = answer rt runHelper plan ops q ∨
        (∃ why, answer rt runHelper plan ops q = .error (.broken why) ∧
          ((∃ ty, q.predicate.region = .type ty) ∨
            (Exec.ask rt runHelper plan ops q st).1 ≠ .ok true)) ∨
        (Exec.ask rt runHelper plan ops q st).1 = .ok false ∧ Lost K st) ∧
      ((Exec.ask rt runHelper plan ops q st).1 = .ok true →
        (∀ t ∈ q.matchEvidence.projections, ∃ b, value rt plan ops t = .ok b) ∧
        (∀ f ∈ bitFields q, ((Exec.ask rt runHelper plan ops q st).2.get f).isSome) ∧
        ∀ s, (st.get s).isSome → ((Exec.ask rt runHelper plan ops q st).2.get s).isSome) ∧
      ((Exec.ask rt runHelper plan ops q st).1 = .ok false → ∀ f, IsField plan f → f ∉ bitFields q →
          (Exec.ask rt runHelper plan ops q st).2.get f = st.get f) := by
  have htakes : Decides rt plan ops K {f | f ∈ bitFields q} (bitFields q)
      (∃ ty, q.predicate.region = .type ty) (Exec.takesMatch rt runHelper plan ops q)
      (answer rt runHelper plan ops q) :=
    takesMatch_decides hord hask fun f hf => hf
  obtain ⟨hsteps, hagree, hheld⟩ := htakes st hst
  rw [Exec.ask, ExecM.run_get_bind, ExecM.run_bind]
  rcases hrun : Exec.takesMatch rt runHelper plan ops q st with ⟨r, st'⟩
  rw [hrun] at hsteps hagree hheld
  cases r with
  | error stop => exact ⟨hsteps.1, hagree, fun h => (nomatch h), fun h => nomatch h⟩
  | ok hit =>
    cases hit with
    | true =>
      refine ⟨hsteps.1, hagree, fun _ => ⟨value_of_takesMatch hord hask hst hrun, hheld rfl, ?_⟩,
        fun h => nomatch h⟩
      exact fun s hs => hsteps.isSome hs
    | false =>
      obtain ⟨hsound, hframe⟩ := hsteps.undo hst
      exact ⟨hsound, hagree, fun h => (nomatch h), fun _ f hf hnot => hframe f hf hnot⟩

end Read

end Direct

end Fz.Dispatch
