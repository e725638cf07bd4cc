import Fz.Base.Except
import Fz.Dispatch.Grounded

/-!
# What the producer asks is grounded

The producer keeps a table of subjects and remembers which subject each place has (`Ok`).  A
pattern appended at a place whose subject is grounded adds questions that find what they need in
the order they are asked, and binds grounded subjects (`Adds`).  By induction over patterns this
holds of every row, so the arms of a produced matrix satisfy the logic of `groundedLogic`.
-/

namespace Fz.Dispatch

open Fz.Base

variable {TH C D : Type}

/-! ## The producer's tables -/

/-- The place a place is projected from, and how. -/
def PatternSubjectRef.parent? : PatternSubjectRef → Option (PatternSubjectRef × ProjectionKind)
  | .tupleField tuple index => some (tuple, .tupleField index)
  | .structField record field => some (record, .structField field)
  | .listHead list => some (list, .listHead)
  | .listTail list => some (list, .listTail)
  | .mapValue map key => some (map, .mapValue key)
  | .input _ | .subject _ => none

namespace PatternDispatchProducer

/-- A subject of the table. -/
def Has (p : PatternDispatchProducer TH D) (s : SubjectId) (source : SubjectSource) : Prop :=
  ∃ id, p.builder.subjects[s]? = some ⟨id, source⟩

/-- The subject a place has: as it was remembered, or the field it stands for. -/
def At (p : PatternDispatchProducer TH D) (ref : PatternSubjectRef) (s : SubjectId) : Prop :=
  p.subjects.lookup ref = some s ∨ ref = .subject s

/-- What the producer knows about its tables. -/
structure Ok (p : PatternDispatchProducer TH D) : Prop where
  sources : InOrder p.builder.subjects
  input : ∀ {ordinal s}, p.subjects.lookup (.input ordinal) = some s → p.Has s (.input ordinal)
  place : ∀ {ref parent kind s}, ref.parent? = some (parent, kind) →
    p.subjects.lookup ref = some s → ∃ source, p.At parent source ∧
      p.Has s (.projection ⟨source, kind⟩)
  field : ∀ {id s}, p.subjects.lookup (.subject id) = some s → s = id
  projected : ∀ {source kind s}, p.projections.lookup (source, kind) = some s →
    p.Has s (.projection ⟨source, kind⟩)

/-- The tables only grow; arms, outcomes and guards stay. -/
structure Grows (p p' : PatternDispatchProducer TH D) : Prop where
  table : p.builder.subjects <+: p'.builder.subjects
  places : ∀ {ref s}, p.subjects.lookup ref = some s → p'.subjects.lookup ref = some s
  arms : p'.builder.arms = p.builder.arms
  builtOutcomes : p'.builder.outcomes = p.builder.outcomes
  outcomes : p'.outcomes = p.outcomes
  guards : p'.guards = p.guards
  inputCount : p'.inputCount = p.inputCount
  guardSubject : p'.guardSubject = p.guardSubject

namespace Grows

variable {p p' p'' : PatternDispatchProducer TH D}

theorem refl (p : PatternDispatchProducer TH D) : p.Grows p :=
  ⟨List.prefix_rfl, id, rfl, rfl, rfl, rfl, rfl, rfl⟩

theorem trans (h : p.Grows p') (h' : p'.Grows p'') : p.Grows p'' where
  table := h.table.trans h'.table
  places hs := h'.places (h.places hs)
  arms := h'.arms.trans h.arms
  builtOutcomes := h'.builtOutcomes.trans h.builtOutcomes
  outcomes := h'.outcomes.trans h.outcomes
  guards := h'.guards.trans h.guards
  inputCount := h'.inputCount.trans h.inputCount
  guardSubject := h'.guardSubject.trans h.guardSubject

theorem has {s : SubjectId} {source : SubjectSource} (h : p.Grows p') (hs : p.Has s source) :
    p'.Has s source := by
  obtain ⟨id, hid⟩ := hs
  exact ⟨id, getElem?_grow h.table hid⟩

theorem at_ {ref : PatternSubjectRef} {s : SubjectId} (h : p.Grows p') (hs : p.At ref s) :
    p'.At ref s := hs.imp h.places id

end Grows

/-! ## Making subjects -/

/-- What a projection names besides its source is in the table. -/
def Known (p : PatternDispatchProducer TH D) (kind : ProjectionKind) : Prop :=
  ∀ extraction, kind = .bitstringField extraction →
    ∀ g, extraction.previous = some g → g < p.builder.subjects.length

variable {kind : ProjectionKind}

theorem addProjectedSubject_spec {p p' : PatternDispatchProducer TH D} {source s : SubjectId}
    (h : addProjectedSubject source kind p = .ok (s, p')) (hp : p.Ok) (hkind : p.Known kind) :
    p'.Ok ∧ p.Grows p' ∧ p'.subjects = p.subjects ∧ p'.projections = p.projections ∧
      p'.Has s (.projection ⟨source, kind⟩) := by
  unfold addProjectedSubject DispatchMatrixBuilder.addProjectedSubject
    DispatchMatrixBuilder.ensureSubject at h
  by_cases hlt : source < p.builder.subjects.length
  · simp only [hlt, if_true] at h
    cases h
    have hahead : p.builder.subjects <+: p.builder.subjects ++
        [⟨p.builder.subjects.length, .projection ⟨source, kind⟩⟩] := List.prefix_append _ _
    have hgrow : p.Grows { p with builder := { p.builder with
        subjects := p.builder.subjects ++
          [⟨p.builder.subjects.length, .projection ⟨source, kind⟩⟩] } } :=
      ⟨hahead, id, rfl, rfl, rfl, rfl, rfl, rfl⟩
    refine ⟨⟨?_, ?_, ?_, hp.field, ?_⟩, hgrow, rfl, rfl, ⟨_, getElem?_append_length _ _⟩⟩
    · intro t id source' kind' ht
      rcases getElem?_concat_cases ht with hold | ⟨rfl, hnew⟩
      · exact hp.sources t id source' kind' hold
      · cases hnew
        exact ⟨hlt, hkind⟩
    · exact fun ho => hgrow.has (hp.input ho)
    · intro ref parent kind' t href ht
      obtain ⟨source', hat, hhas⟩ := hp.place href ht
      exact ⟨source', hgrow.at_ hat, hgrow.has hhas⟩
    · exact fun hl => hgrow.has (hp.projected hl)
  · simp only [hlt, if_false] at h
    cases h

variable {p : PatternDispatchProducer TH D}

variable {ref : PatternSubjectRef}

theorem Ok.remember {s : SubjectId}
    (hp : p.Ok) (hnone : p.subjects.lookup ref = none) (hinput : ∀ o, ref ≠ .input o)
    (hplace : ∀ {parent kind}, ref.parent? = some (parent, kind) →
      ∃ source, p.At parent source ∧ p.Has s (.projection ⟨source, kind⟩))
    (hfield : ∀ id, ref = .subject id → s = id) :
    Ok { p with subjects := (ref, s) :: p.subjects } ∧
      p.Grows { p with subjects := (ref, s) :: p.subjects } := by
  have hgrow : p.Grows { p with subjects := (ref, s) :: p.subjects } :=
    ⟨List.prefix_rfl, lookup_cons_of_none hnone, rfl, rfl, rfl, rfl, rfl, rfl⟩
  refine ⟨⟨hp.sources, ?_, ?_, ?_, fun h => hp.projected h⟩, hgrow⟩
  · intro o t ht
    rcases lookup_cons_cases ht with ⟨rfl, _⟩ | ht
    · exact absurd rfl (hinput o)
    · exact hp.input ht
  · intro ref' parent kind t href ht
    rcases lookup_cons_cases ht with ⟨rfl, rfl⟩ | ht
    · obtain ⟨source, hat, hhas⟩ := hplace href
      exact ⟨source, hgrow.at_ hat, hhas⟩
    · obtain ⟨source, hat, hhas⟩ := hp.place href ht
      exact ⟨source, hgrow.at_ hat, hhas⟩
  · intro id t ht
    rcases lookup_cons_cases ht with ⟨rfl, rfl⟩ | ht
    · exact hfield id rfl
    · exact hp.field ht

variable {ref parent : PatternSubjectRef}

theorem sizeOf_parent (h : ref.parent? = some (parent, kind)) : sizeOf parent < sizeOf ref := by
  cases ref <;> simp only [PatternSubjectRef.parent?, Option.some.injEq, Prod.mk.injEq,
    reduceCtorEq] at h
  all_goals
    obtain ⟨rfl, _⟩ := h
    simp only [PatternSubjectRef.tupleField.sizeOf_spec, PatternSubjectRef.structField.sizeOf_spec,
      PatternSubjectRef.listHead.sizeOf_spec, PatternSubjectRef.listTail.sizeOf_spec,
      PatternSubjectRef.mapValue.sizeOf_spec]
    omega

theorem known_of_parent (h : ref.parent? = some (parent, kind)) : p.Known kind := by
  intro extraction hkind
  cases ref <;> simp only [PatternSubjectRef.parent?, Option.some.injEq, Prod.mk.injEq,
    reduceCtorEq] at h
  all_goals
    obtain ⟨_, rfl⟩ := h
    cases hkind

/-- What asking for the subject of a place does. -/
structure Names (p : PatternDispatchProducer TH D) (ref : PatternSubjectRef) (s : SubjectId)
    (p' : PatternDispatchProducer TH D) : Prop where
  ok : p'.Ok
  grows : p.Grows p'
  at_ : p'.At ref s
  /-- Larger places are not touched. -/
  larger : ∀ {ref'}, sizeOf ref < sizeOf ref' → p'.subjects.lookup ref' = p.subjects.lookup ref'

theorem subjectId_eq_of_parent
    (h : ref.parent? = some (parent, kind)) :
    (subjectId ref : ProducerM TH D SubjectId) = (do
      match (← get).subjects.lookup ref with
      | some id => return id
      | none =>
        let id ← addProjectedSubject (← subjectId parent) kind
        modify fun p => { p with subjects := (ref, id) :: p.subjects }
        return id) := by
  cases ref <;> simp only [PatternSubjectRef.parent?, Option.some.injEq, Prod.mk.injEq,
    reduceCtorEq] at h
  all_goals
    obtain ⟨rfl, rfl⟩ := h
    exact (subjectId.eq_def _).trans rfl

theorem subjectId_of_lookup
    {s : SubjectId} (h : p.subjects.lookup ref = some s) : subjectId ref p = .ok (s, p) := by
  cases ref <;>
    · rw [subjectId, StateT.get_bind_run]
      simp only [h]
      rfl

/-- Asking for a subject keeps the tables in order and gives the place its subject. -/
theorem subjectId_spec (ref : PatternSubjectRef) {p p' : PatternDispatchProducer TH D}
    {s : SubjectId} (h : subjectId ref p = .ok (s, p')) (hp : p.Ok) : p.Names ref s p' := by
  cases hl : p.subjects.lookup ref with
  | some s' =>
    rw [subjectId_of_lookup hl] at h
    cases h
    exact ⟨hp, .refl p, .inl hl, fun _ => rfl⟩
  | none =>
    cases hparent : ref.parent? with
    | some pair =>
      obtain ⟨parent, kind⟩ := pair
      have hsize := sizeOf_parent hparent
      rw [subjectId_eq_of_parent hparent, StateT.get_bind_run] at h
      simp only [hl] at h
      obtain ⟨source, p₁, hsource, h⟩ := StateT.bind_eq_ok.mp h
      obtain ⟨id, p₂, hadd, h⟩ := StateT.bind_eq_ok.mp h
      obtain ⟨_, p₃, hmod, h⟩ := StateT.bind_eq_ok.mp h
      cases StateT.modify_eq_ok.mp hmod
      cases StateT.pure_eq_ok.mp h
      obtain ⟨ok₁, grows₁, at₁, larger₁⟩ := subjectId_spec parent hsource hp
      obtain ⟨ok₂, grows₂, hsub, _, hhas⟩ := addProjectedSubject_spec hadd ok₁
        (known_of_parent hparent)
      have hnone : p₂.subjects.lookup ref = none := by rw [hsub, larger₁ hsize, hl]
      obtain ⟨ok₃, grows₃⟩ := ok₂.remember hnone (s := s)
        (fun o ho => by rw [ho] at hparent; cases hparent)
        (fun hparent' => by
          rw [hparent] at hparent'
          cases hparent'
          exact ⟨source, grows₂.at_ at₁, hhas⟩)
        (fun id hid => by rw [hid] at hparent; cases hparent)
      refine ⟨ok₃, (grows₁.trans grows₂).trans grows₃, .inl (by simp), ?_⟩
      intro ref' hlt
      have hne : (ref' == ref) = false := by
        rw [beq_eq_false_iff_ne]
        rintro rfl
        omega
      rw [List.lookup_cons, hne]
      exact (congrArg (List.lookup ref') hsub).trans (larger₁ (by omega))
    | none =>
      cases ref with
      | input o =>
        rw [subjectId, StateT.get_bind_run] at h
        simp only [hl] at h
        obtain ⟨_, _, hthrow, _⟩ := StateT.bind_eq_ok.mp h
        cases hthrow
      | subject id =>
        rw [subjectId, StateT.get_bind_run] at h
        simp only [hl] at h
        obtain ⟨_, _, hpure, h⟩ := StateT.bind_eq_ok.mp h
        cases StateT.pure_eq_ok.mp hpure
        obtain ⟨_, _, hmod, h⟩ := StateT.bind_eq_ok.mp h
        cases StateT.modify_eq_ok.mp hmod
        cases StateT.pure_eq_ok.mp h
        obtain ⟨ok', grows'⟩ := hp.remember hl (s := s) (fun o ho => nomatch ho)
          (fun hparent' => nomatch hparent') (fun id' hid => by cases hid; rfl)
        refine ⟨ok', grows', .inr rfl, ?_⟩
        intro ref' hlt
        have hne : (ref' == PatternSubjectRef.subject s) = false := by
          rw [beq_eq_false_iff_ne]
          rintro rfl
          omega
        rw [List.lookup_cons, hne]
      | _ => cases hparent
termination_by sizeOf ref

theorem At.unique {s s' : SubjectId} (hp : p.Ok) (h : p.At ref s) (h' : p.At ref s') : s = s' := by
  rcases h with h | rfl
  · rcases h' with h' | rfl
    · rw [h] at h'
      exact Option.some.inj h'
    · exact hp.field h
  · rcases h' with h' | h'
    · exact (hp.field h').symm
    · cases h'
      rfl

theorem Ok.has_parent {s source : SubjectId} (hp : p.Ok)
    (href : ref.parent? = some (parent, kind)) (hs : p.At ref s) (hsource : p.At parent source) :
    p.Has s (.projection ⟨source, kind⟩) := by
  rcases hs with hs | rfl
  · obtain ⟨source', hat, hhas⟩ := hp.place href hs
    rw [hsource.unique hp hat]
    exact hhas
  · cases href

theorem Ok.of_tables {p p' : PatternDispatchProducer TH D} (hp : p.Ok)
    (ht : p'.builder.subjects = p.builder.subjects) (hs : p'.subjects = p.subjects)
    (hpr : p'.projections = p.projections) : p'.Ok := by
  have hhas : ∀ {s source}, p'.Has s source ↔ p.Has s source := by simp [Has, ht]
  have hat : ∀ {ref s}, p'.At ref s ↔ p.At ref s := by simp [At, hs]
  refine ⟨ht ▸ hp.sources, fun h => hhas.mpr (hp.input (hs ▸ h)), ?_,
    fun h => hp.field (hs ▸ h), fun h => hhas.mpr (hp.projected (hpr ▸ h))⟩
  intro ref parent kind s href h
  obtain ⟨source, hsource, hprojection⟩ := hp.place href (hs ▸ h)
  exact ⟨source, hat.mpr hsource, hhas.mpr hprojection⟩

theorem Ok.keep {p p' : PatternDispatchProducer TH D} (hp : p.Ok) (hb : p'.builder = p.builder)
    (hs : p'.subjects = p.subjects) (hpr : p'.projections = p.projections)
    (ho : p'.outcomes = p.outcomes) (hg : p'.guards = p.guards)
    (hi : p'.inputCount = p.inputCount) (hgs : p'.guardSubject = p.guardSubject) :
    p'.Ok ∧ p.Grows p' := by
  refine ⟨hp.of_tables (congrArg _ hb) hs hpr, ?_⟩
  exact ⟨hb ▸ List.prefix_rfl, fun h => hs ▸ h, by rw [hb], by rw [hb], ho, hg, hi, hgs⟩

theorem project_spec {p p' : PatternDispatchProducer TH D} {source s : SubjectId}
    (h : project source kind p = .ok (s, p')) (hp : p.Ok)
    (hkind : p.Known kind) : p'.Ok ∧ p.Grows p' ∧ p'.Has s (.projection ⟨source, kind⟩) := by
  rw [project, StateT.get_bind_run] at h
  cases hl : p.projections.lookup (source, kind) with
  | some s' =>
    simp only [hl] at h
    cases StateT.pure_eq_ok.mp h
    exact ⟨hp, .refl p, hp.projected hl⟩
  | none =>
    simp only [hl] at h
    obtain ⟨id, p₁, hadd, h⟩ := StateT.bind_eq_ok.mp h
    obtain ⟨_, p₂, hmod, h⟩ := StateT.bind_eq_ok.mp h
    cases StateT.modify_eq_ok.mp hmod
    cases StateT.pure_eq_ok.mp h
    obtain ⟨ok₁, grows₁, _, hproj, hhas⟩ := addProjectedSubject_spec hadd hp hkind
    refine ⟨⟨ok₁.sources, fun h => ok₁.input h, fun h h' => ok₁.place h h',
      fun h => ok₁.field h, ?_⟩, grows₁.trans ⟨List.prefix_rfl, id, rfl, rfl, rfl, rfl, rfl, rfl⟩,
      hhas⟩
    intro source' kind' t ht
    rcases lookup_cons_cases ht with ⟨hkey, rfl⟩ | ht
    · cases hkey
      exact hhas
    · exact ok₁.projected ht

theorem bitFieldSize_spec {p p' : PatternDispatchProducer TH D} {bound : List (String × SubjectId)}
    {size : Option BitSize} {r : Option BitstringFieldSize}
    (h : bitFieldSize bound size p = .ok (r, p')) (hp : p.Ok) :
    p'.Ok ∧ p.Grows p' ∧ ∀ g, r = some (.binding g) → ∃ name, (name, g) ∈ bound := by
  match size, h with
  | none, h =>
    cases StateT.pure_eq_ok.mp h
    exact ⟨hp, .refl p, fun g hg => nomatch hg⟩
  | some (.literal n), h =>
    cases StateT.pure_eq_ok.mp h
    exact ⟨hp, .refl p, fun g hg => nomatch hg⟩
  | some (.var name), h =>
    rw [bitFieldSize] at h
    cases hl : bound.lookup name with
    | some field =>
      simp only [hl] at h
      cases StateT.pure_eq_ok.mp h
      refine ⟨hp, .refl p, fun g hg => ⟨name, ?_⟩⟩
      cases hg
      obtain ⟨before, after, rfl, _⟩ := List.lookup_eq_some_iff.mp hl
      exact List.mem_append_right _ List.mem_cons_self
    | none =>
      simp only [hl] at h
      obtain ⟨pin, p₁, hpin, h⟩ := StateT.bind_eq_ok.mp h
      cases StateT.pure_eq_ok.mp h
      have hkeep : p'.Ok ∧ p.Grows p' := by
        rw [pinForName, StateT.get_bind_run] at hpin
        cases hn : pinnedByName p.pinned name with
        | some pin' =>
          simp only [hn] at hpin
          cases StateT.pure_eq_ok.mp hpin
          exact ⟨hp, .refl p⟩
        | none =>
          simp only [hn] at hpin
          obtain ⟨_, p₂, hset, hpin⟩ := StateT.bind_eq_ok.mp hpin
          cases StateT.pure_eq_ok.mp hpin
          cases hset
          exact hp.keep rfl rfl rfl rfl rfl rfl rfl
      exact ⟨hkeep.1, hkeep.2, fun g hg => nomatch hg⟩

/-- The fields of a bitstring pattern are a chain of extractions. -/
theorem bitstringFields_spec {x : SubjectId} {fields : List (BitFieldSpec × Pattern)}
    {bound : List (String × SubjectId)} {ids : List SubjectId}
    {p p' : PatternDispatchProducer TH D} (done : List SubjectId)
    (h : bitstringFields x fields bound done.getLast? p = .ok (ids, p')) (hp : p.Ok)
    (hbound : ∀ name g, (name, g) ∈ bound → g ∈ done)
    (hlast : ∀ g, done.getLast? = some g → g < p.builder.subjects.length) :
    p'.Ok ∧ p.Grows p' ∧ FieldChain p'.builder.subjects x done ids := by
  induction fields generalizing bound done ids p with
  | nil =>
    cases StateT.pure_eq_ok.mp h
    exact ⟨hp, .refl _, trivial⟩
  | cons field rest ih =>
    obtain ⟨spec, value⟩ := field
    rw [bitstringFields] at h
    obtain ⟨size, p₁, hsize, h⟩ := StateT.bind_eq_ok.mp h
    obtain ⟨f, p₂, hf, h⟩ := StateT.bind_eq_ok.mp h
    obtain ⟨fs, p₃, hrest, h⟩ := StateT.bind_eq_ok.mp h
    cases StateT.pure_eq_ok.mp h
    obtain ⟨ok₁, grows₁, hg⟩ := bitFieldSize_spec hsize hp
    have hknown : p₁.Known (.bitstringField ⟨done.getLast?,
        ⟨spec.ty, size, spec.endian, spec.signed, spec.unit⟩, rest.isEmpty⟩) := by
      intro extraction hkind g hg
      cases hkind
      exact Nat.lt_of_lt_of_le (hlast g hg) grows₁.table.length_le
    obtain ⟨ok₂, grows₂, ⟨id, hid⟩⟩ := project_spec hf ok₁ hknown
    rw [show some f = (done ++ [f]).getLast? by simp] at hrest
    have hbound' : ∀ name g,
        (name, g) ∈ value.directBitfieldBindings.map (fun name => (name, f)) ++ bound →
          g ∈ done ++ [f] := by
      intro name g hmem
      rcases List.mem_append.mp hmem with hmem | hmem
      · obtain ⟨_, _, heq⟩ := List.mem_map.mp hmem
        cases heq
        exact List.mem_append_right _ List.mem_cons_self
      · exact List.mem_append_left _ (hbound name g hmem)
    have hlast' : ∀ g, (done ++ [f]).getLast? = some g → g < p₂.builder.subjects.length := by
      intro g hg
      rw [List.getLast?_concat, Option.some.injEq] at hg
      exact hg ▸ (List.getElem?_eq_some_iff.mp hid).1
    obtain ⟨ok₃, grows₃, hchain⟩ := ih (done ++ [f]) hrest ok₂ hbound' hlast'
    refine ⟨ok₃, (grows₁.trans grows₂).trans grows₃,
      ⟨id, _, getElem?_grow grows₃.table hid, rfl, ?_⟩,
      hchain⟩
    intro g hsz
    obtain ⟨name, hmem⟩ := hg g hsz
    exact hbound name g hmem

theorem mapM_subjectId_spec {refs : List PatternSubjectRef} {ids : List SubjectId}
    {p p' : PatternDispatchProducer TH D} (h : refs.mapM subjectId p = .ok (ids, p'))
    (hp : p.Ok) : p'.Ok ∧ p.Grows p' ∧ List.Forall₂ p'.At refs ids := by
  induction refs generalizing ids p with
  | nil =>
    cases StateT.pure_eq_ok.mp h
    exact ⟨hp, .refl _, .nil⟩
  | cons ref refs ih =>
    rw [List.mapM_cons] at h
    obtain ⟨s, p₁, hs, h⟩ := StateT.bind_eq_ok.mp h
    obtain ⟨ss, p₂, hss, h⟩ := StateT.bind_eq_ok.mp h
    cases StateT.pure_eq_ok.mp h
    obtain ⟨ok₁, grows₁, at₁, _⟩ := subjectId_spec ref hs hp
    obtain ⟨ok₂, grows₂, hall⟩ := ih hss ok₁
    exact ⟨ok₂, grows₁.trans grows₂, .cons (grows₂.at_ at₁) hall⟩

/-! ## Questions in order -/

/-- What is known once some questions were answered yes. -/
def answered (yes : Set (RegionQuestion TH)) (qs : List (RegionQuestion TH)) :
    Set (RegionQuestion TH) := qs.foldl (fun c q => insert q c) yes

theorem subset_answered (yes : Set (RegionQuestion TH)) (qs : List (RegionQuestion TH)) :
    yes ⊆ answered yes qs := by
  induction qs generalizing yes with
  | nil => exact subset_rfl
  | cons q qs ih => exact (Set.subset_insert q yes).trans (ih _)

theorem answered_append (yes : Set (RegionQuestion TH)) (qs qs' : List (RegionQuestion TH)) :
    answered yes (qs ++ qs') = answered (answered yes qs) qs' := List.foldl_append

/-- Questions that find what they need, each after a yes to those before it. -/
def Asks (subjects : List Subject) (guards : List (PatternGuardExpr D)) :
    Set (RegionQuestion TH) → List (RegionQuestion TH) → Prop
  | _, [] => True
  | yes, q :: qs => AskOk subjects guards yes q ∧ Asks subjects guards (insert q yes) qs

section Asks

variable {subjects subjects' : List Subject} {guards : List (PatternGuardExpr D)}
  {yes yes' : Set (RegionQuestion TH)} {qs qs' : List (RegionQuestion TH)}

theorem Asks.grow (h : Asks subjects guards yes qs) (hp : subjects <+: subjects') :
    Asks subjects' guards yes qs := by
  induction qs generalizing yes with
  | nil => exact h
  | cons q qs ih => exact ⟨h.1.grow hp, ih h.2⟩

theorem Asks.append (h : Asks subjects guards yes qs)
    (h' : Asks subjects guards (answered yes qs) qs') : Asks subjects guards yes (qs ++ qs') := by
  induction qs generalizing yes with
  | nil => exact h'
  | cons q qs ih => exact ⟨h.1, ih h.2 h'⟩

theorem Asks.arm {outcomes : List PatternDispatchOutcome} {o : OutcomeId}
    {evidence : EdgeEvidence TH} (h : Asks subjects guards yes qs)
    (hleaf : LeafOk subjects outcomes (answered yes qs) o evidence) :
    (groundedLogic subjects guards outcomes).Arm o evidence yes qs := by
  induction qs generalizing yes with
  | nil => exact hleaf
  | cons q qs ih => exact ⟨h.1, subset_rfl, ih h.2 hleaf⟩

end Asks

/-! ## The questions of the producer -/

theorem foldl_withProjection (ids : List SubjectId) (evidence : EdgeEvidence TH) :
    ids.foldl EdgeEvidence.withProjection evidence =
      { evidence with projections := evidence.projections ++ ids } := by
  induction ids generalizing evidence with
  | nil => simp
  | cons id ids ih =>
    rw [List.foldl_cons, ih]
    simp [EdgeEvidence.withProjection]

theorem projections_projecting (predicate : RegionPredicate TH) (ids : List SubjectId) :
    (RegionQuestion.projecting predicate ids).matchEvidence.projections = ids := by
  simp [RegionQuestion.projecting, foldl_withProjection, EdgeEvidence.fromProof]

section Questions

variable {subjects : List Subject} {guards : List (PatternGuardExpr D)}
  {yes : Set (RegionQuestion TH)} {s : SubjectId}

theorem askOk_new (region : Region TH) (hs : Grounded subjects yes s)
    (hguard : ∀ g, region ≠ .guard g) (hbits : ∀ shape, region ≠ .bitstring shape) :
    AskOk subjects guards yes (.new ⟨s, region⟩) where
  reads t ht := by
    cases region with
    | guard g => exact absurd rfl (hguard g)
    | _ =>
      obtain rfl := List.mem_singleton.mp ht
      exact hs
  projects t ht := nomatch ht
  miss := rfl
  chain shape hr := absurd hr (hbits shape)
  guard g hr := absurd hr (hguard g)

theorem askOk_projecting {region : Region TH} {ids : List SubjectId}
    (hs : Grounded subjects yes s) (hguard : ∀ g, region ≠ .guard g)
    (hids : ∀ t ∈ ids, ∃ id kind, subjects[t]? = some ⟨id, .projection ⟨s, kind⟩⟩ ∧
      region.Allows t kind)
    (hchain : ∀ shape, region = .bitstring shape → FieldChain subjects s [] shape.fields) :
    AskOk subjects guards yes (.projecting ⟨s, region⟩ ids) where
  reads t ht := by
    cases region with
    | guard g => exact absurd rfl (hguard g)
    | _ =>
      obtain rfl := List.mem_singleton.mp ht
      exact hs
  projects t ht := by
    rw [projections_projecting] at ht
    obtain ⟨id, kind, hget, hallows⟩ := hids t ht
    exact ⟨id, kind, hget, hallows, by rwa [projections_projecting]⟩
  miss := rfl
  chain := hchain
  guard g hr := absurd hr (hguard g)

end Questions

/-! ## What a pattern adds -/

/-- A piece of a row: its questions find what they need after those of `yes`, and what it binds is
grounded once they are answered. -/
structure Added (p p' : PatternDispatchProducer TH D) (yes : Set (RegionQuestion TH))
    (r : Appended TH) : Prop where
  ok : p'.Ok
  grows : p.Grows p'
  asks : ∀ guards : List (PatternGuardExpr D), Asks p'.builder.subjects guards yes r.1
  binds : ∀ b ∈ r.2, Grounded p'.builder.subjects (answered yes r.1) b.source

namespace Added

variable {p p' p'' : PatternDispatchProducer TH D} {yes : Set (RegionQuestion TH)}
  {r r' : Appended TH}

theorem nil (hp : p.Ok) : Added p p yes ([], []) :=
  ⟨hp, .refl p, fun _ => trivial, fun _ hb => nomatch hb⟩

theorem append (h : Added p p' yes r) (h' : Added p' p'' (answered yes r.1) r') :
    Added p p'' yes (r.1 ++ r'.1, r.2 ++ r'.2) where
  ok := h'.ok
  grows := h.grows.trans h'.grows
  asks guards := ((h.asks guards).grow h'.grows.table).append (h'.asks guards)
  binds b hb := by
    rw [answered_append]
    rcases List.mem_append.mp hb with hb | hb
    · exact ((h.binds b hb).grow h'.grows.table).mono (subset_answered _ _)
    · exact h'.binds b hb

theorem cons {q : RegionQuestion TH} (hg : p.Grows p')
    (hq : ∀ guards : List (PatternGuardExpr D), AskOk p'.builder.subjects guards yes q)
    (h : Added p' p'' (insert q yes) r) : Added p p'' yes (q :: r.1, r.2) where
  ok := h.ok
  grows := hg.trans h.grows
  asks guards := ⟨(hq guards).grow h.grows.table, h.asks guards⟩
  binds := h.binds

theorem after (hg : p.Grows p') (h : Added p' p'' yes r) : Added p p'' yes r :=
  { h with grows := hg.trans h.grows }

end Added

/-- What appending a pattern at a grounded place adds. -/
def Adds (x : ProducerM TH D (Appended TH)) (ref : PatternSubjectRef) : Prop :=
  ∀ {p p' : PatternDispatchProducer TH D} {r : Appended TH} {s : SubjectId}
    {yes : Set (RegionQuestion TH)}, x p = .ok (r, p') → p.Ok → p.At ref s →
    Grounded p.builder.subjects yes s → Added p p' yes r

theorem subjectId_at {p p' : PatternDispatchProducer TH D}
    {s s' : SubjectId} (h : subjectId ref p = .ok (s', p')) (hp : p.Ok) (hat : p.At ref s) :
    s' = s ∧ p'.Ok ∧ p.Grows p' := by
  obtain ⟨ok, grows, at', _⟩ := subjectId_spec ref h hp
  exact ⟨at'.unique ok (grows.at_ hat), ok, grows⟩

theorem bind_spec {p p' : PatternDispatchProducer TH D} {name : String}
    {s : SubjectId} {b : PatternDispatchBinding} (h : bind name ref p = .ok (b, p')) (hp : p.Ok)
    (hat : p.At ref s) : b = ⟨name, s⟩ ∧ p'.Ok ∧ p.Grows p' := by
  obtain ⟨s', p₁, hs, h⟩ := StateT.bind_eq_ok.mp h
  cases StateT.pure_eq_ok.mp h
  obtain ⟨rfl, ok, grows⟩ := subjectId_at hs hp hat
  exact ⟨rfl, ok, grows⟩

section Patterns

variable {resolver : PatternResolver TH C D} {p p' : PatternDispatchProducer TH D}
  {r : Appended TH} {yes : Set (RegionQuestion TH)}

theorem appendFields_eq (fields : List (String × Pattern)) (refs : List PatternSubjectRef) :
    appendFields resolver fields refs = appendEach resolver (fields.map Prod.snd) refs := by
  induction fields generalizing refs with
  | nil => rw [appendFields, List.map_nil, appendEach]; all_goals simp
  | cons field fields ih =>
    cases refs with
    | nil => rw [appendFields, List.map_cons, appendEach]; all_goals simp
    | cons ref refs => rw [appendFields, List.map_cons, appendEach, ih]

theorem appendBitFields_eq (fields : List (BitFieldSpec × Pattern))
    (refs : List PatternSubjectRef) :
    appendBitFields resolver fields refs = appendEach resolver (fields.map Prod.snd) refs := by
  induction fields generalizing refs with
  | nil => rw [appendBitFields, List.map_nil, appendEach]; all_goals simp
  | cons field fields ih =>
    cases refs with
    | nil => rw [appendBitFields, List.map_cons, appendEach]; all_goals simp
    | cons ref refs => rw [appendBitFields, List.map_cons, appendEach, ih]

theorem appendEach_adds {patterns : List Pattern} {refs : List PatternSubjectRef}
    {ids : List SubjectId} (ih : ∀ q ∈ patterns, ∀ ref, Adds (appendPattern resolver q ref) ref)
    (h : appendEach resolver patterns refs p = .ok (r, p')) (hp : p.Ok)
    (hat : List.Forall₂ p.At refs ids)
    (hids : ∀ s ∈ ids, Grounded p.builder.subjects yes s) : Added p p' yes r := by
  induction patterns generalizing refs ids p yes r with
  | nil =>
    rw [appendEach] at h
    · cases StateT.pure_eq_ok.mp h
      exact .nil hp
    · simp
  | cons pattern patterns ih' =>
    cases hat with
    | nil =>
      rw [appendEach] at h
      · cases StateT.pure_eq_ok.mp h
        exact .nil hp
      · simp
    | @cons ref s refs ids hs hat =>
      rw [appendEach] at h
      obtain ⟨⟨qs, bs⟩, p₁, h₁, h⟩ := StateT.bind_eq_ok.mp h
      obtain ⟨⟨qs', bs'⟩, p₂, h₂, h⟩ := StateT.bind_eq_ok.mp h
      cases StateT.pure_eq_ok.mp h
      have first : Added p p₁ yes (qs, bs) :=
        ih pattern List.mem_cons_self ref h₁ hp hs (hids s List.mem_cons_self)
      have rest : Added p₁ p' (answered yes qs) (qs', bs') := by
        refine ih' (fun q hq => ih q (List.mem_cons_of_mem _ hq)) h₂ first.ok
          (hat.imp fun _ _ => first.grows.at_) ?_
        intro t ht
        exact ((hids t (List.mem_cons_of_mem _ ht)).grow first.grows.table).mono
          (subset_answered _ _)
      exact first.append rest

theorem Ok.establishes {ref parent : PatternSubjectRef} {s source : SubjectId}
    {region : Region TH} (hp : p.Ok) (kind : ProjectionKind)
    (href : ref.parent? = some (parent, kind)) (hs : p.At ref s) (hsource : p.At parent source)
    (hallows : region.Allows s kind) :
    ∃ id kind, p.builder.subjects[s]? = some ⟨id, .projection ⟨source, kind⟩⟩ ∧
      region.Allows s kind := by
  obtain ⟨id, hid⟩ := hp.has_parent href hs hsource
  exact ⟨id, kind, hid, hallows⟩

theorem grounded_projecting {subjects : List Subject} {s t : SubjectId} {region : Region TH}
    {ids : List SubjectId} (hs : Grounded subjects yes s) (ht : t ∈ ids)
    (hids : ∀ t ∈ ids, ∃ id kind, subjects[t]? = some ⟨id, .projection ⟨s, kind⟩⟩ ∧
      region.Allows t kind) : Grounded subjects (insert (.projecting ⟨s, region⟩ ids) yes) t := by
  obtain ⟨id, kind, hget, hallows⟩ := hids t ht
  exact Grounded.of_establishes ⟨id, kind, hget, hallows, by rwa [projections_projecting]⟩ hs

theorem appendListElems_adds {elems : List Pattern} {ref rest : PatternSubjectRef} {s : SubjectId}
    (ih : ∀ q ∈ elems, ∀ ref, Adds (appendPattern resolver q ref) ref)
    (h : appendListElems resolver elems ref p = .ok ((r, rest), p')) (hp : p.Ok)
    (hat : p.At ref s) (hs : Grounded p.builder.subjects yes s) : Added p p' yes r ∧
      ∃ t, p'.At rest t ∧ Grounded p'.builder.subjects (answered yes r.1) t := by
  induction elems generalizing ref s p yes r with
  | nil =>
    rw [appendListElems] at h
    cases StateT.pure_eq_ok.mp h
    exact ⟨.nil hp, s, hat, hs⟩
  | cons elem elems ih' =>
    rw [appendListElems] at h
    obtain ⟨x, p₁, hx, h⟩ := StateT.bind_eq_ok.mp h
    obtain ⟨head, p₂, hhead, h⟩ := StateT.bind_eq_ok.mp h
    obtain ⟨tail, p₃, htail, h⟩ := StateT.bind_eq_ok.mp h
    obtain ⟨⟨qs, bs⟩, p₄, helem, h⟩ := StateT.bind_eq_ok.mp h
    obtain ⟨⟨⟨qs', bs'⟩, rest'⟩, p₅, helems, h⟩ := StateT.bind_eq_ok.mp h
    cases StateT.pure_eq_ok.mp h
    obtain ⟨rfl, ok₁, grows₁⟩ := subjectId_at hx hp hat
    obtain ⟨ok₂, grows₂, at₂, _⟩ := subjectId_spec _ hhead ok₁
    obtain ⟨ok₃, grows₃, at₃, _⟩ := subjectId_spec _ htail ok₂
    have grows : p.Grows p₃ := (grows₁.trans grows₂).trans grows₃
    have hx' := hs.grow grows.table
    have hids : ∀ t ∈ [head, tail], ∃ id kind,
        p₃.builder.subjects[t]? = some ⟨id, .projection ⟨x, kind⟩⟩ ∧
          (Region.list .cons : Region TH).Allows t kind := by
      intro t ht
      simp only [List.mem_cons, List.not_mem_nil, or_false] at ht
      rcases ht with rfl | rfl
      · exact ok₃.establishes .listHead rfl (grows₃.at_ at₂) (grows.at_ hat) trivial
      · exact ok₃.establishes .listTail rfl at₃ (grows.at_ hat) trivial
    have hask : ∀ guards : List (PatternGuardExpr D),
        AskOk p₃.builder.subjects guards yes (.listCons x head tail) := fun _ =>
      askOk_projecting hx' (fun g hg => nomatch hg) hids (fun shape hb => nomatch hb)
    have first := ih elem List.mem_cons_self _ helem ok₃ (grows₃.at_ at₂)
      (grounded_projecting hx' List.mem_cons_self hids)
    have htail' := grounded_projecting hx' (List.mem_cons_of_mem head List.mem_cons_self) hids
    obtain ⟨more, t, hrest, ht⟩ := ih' (fun q hq => ih q (List.mem_cons_of_mem _ hq)) helems
      first.ok (first.grows.at_ at₃)
      ((htail'.grow first.grows.table).mono (subset_answered _ _))
    refine ⟨.cons grows hask (first.append more), t, hrest, ?_⟩
    rw [← answered_append] at ht
    exact ht

theorem mapKey_spec {pattern : Pattern} {key : GroundValue}
    (h : mapKey pattern p = .ok (key, p')) : p' = p := by
  rw [mapKey] at h
  cases hl : pattern.literal? with
  | some value =>
    rw [hl] at h
    cases StateT.pure_eq_ok.mp h
    rfl
  | none =>
    rw [hl] at h
    cases h

theorem prepareHeapKey_spec {key : GroundValue} {u : Unit}
    (h : prepareHeapKey key p = .ok (u, p')) (hp : p.Ok) : p'.Ok ∧ p.Grows p' := by
  cases key with
  | float | atom | utf8Binary =>
    cases StateT.modify_eq_ok.mp h
    exact hp.keep rfl rfl rfl rfl rfl rfl rfl
  | int | bool | nil | binary =>
    cases StateT.pure_eq_ok.mp h
    exact ⟨hp, .refl _⟩

theorem appendEntries_adds {entries : List (Pattern × Pattern)} {ref : PatternSubjectRef}
    {s : SubjectId} (ih : ∀ e ∈ entries, ∀ ref, Adds (appendPattern resolver e.2 ref) ref)
    (h : appendEntries resolver entries ref s p = .ok (r, p')) (hp : p.Ok)
    (hat : p.At ref s) (hs : Grounded p.builder.subjects yes s) : Added p p' yes r := by
  induction entries generalizing p yes r with
  | nil =>
    rw [appendEntries] at h
    cases StateT.pure_eq_ok.mp h
    exact .nil hp
  | cons entry entries ih' =>
    obtain ⟨keyPattern, value⟩ := entry
    rw [appendEntries] at h
    obtain ⟨key, p₁, hkey, h⟩ := StateT.bind_eq_ok.mp h
    obtain ⟨_, p₂, hprepare, h⟩ := StateT.bind_eq_ok.mp h
    obtain ⟨id, p₃, hid, h⟩ := StateT.bind_eq_ok.mp h
    obtain ⟨⟨qs, bs⟩, p₄, hvalue, h⟩ := StateT.bind_eq_ok.mp h
    obtain ⟨⟨qs', bs'⟩, p₅, hrest, h⟩ := StateT.bind_eq_ok.mp h
    cases StateT.pure_eq_ok.mp h
    obtain rfl := mapKey_spec hkey
    obtain ⟨ok₂, grows₂⟩ := prepareHeapKey_spec hprepare hp
    obtain ⟨ok₃, grows₃, at₃, _⟩ := subjectId_spec _ hid ok₂
    have grows := grows₂.trans grows₃
    have hs' := hs.grow grows.table
    have hids : ∀ t ∈ [id], ∃ id kind,
        p₃.builder.subjects[t]? = some ⟨id, .projection ⟨s, kind⟩⟩ ∧
          (Region.mapKeyPresent key : Region TH).Allows t kind := by
      intro t ht
      obtain rfl := List.mem_singleton.mp ht
      exact ok₃.establishes (.mapValue key) rfl at₃ (grows.at_ hat) rfl
    have hask : ∀ guards : List (PatternGuardExpr D),
        AskOk p₃.builder.subjects guards yes (.mapKeyPresent s key id) := fun _ =>
      askOk_projecting hs' (fun g hg => nomatch hg) hids (fun shape hb => nomatch hb)
    have first := ih _ List.mem_cons_self _ hvalue ok₃ at₃
      (grounded_projecting hs' List.mem_cons_self hids)
    have more : Added p₄ p' (answered (insert (.mapKeyPresent s key id) yes) qs) (qs', bs') := by
      refine ih' (fun e he => ih e (List.mem_cons_of_mem _ he)) hrest first.ok
        (first.grows.at_ (grows.at_ hat)) ?_
      exact ((hs'.mono (Set.subset_insert _ _)).grow first.grows.table).mono (subset_answered _ _)
    exact .cons grows hask (first.append more)

theorem Ok.establishes_all {parent : PatternSubjectRef} {source : SubjectId} {region : Region TH}
    {α : Type} {steps : List α} {ref : α → PatternSubjectRef} {kind : α → ProjectionKind}
    {ids : List SubjectId} (hp : p.Ok) (hsource : p.At parent source)
    (hids : List.Forall₂ p.At (steps.map ref) ids)
    (href : ∀ a, (ref a).parent? = some (parent, kind a))
    (hallows : ∀ a ∈ steps, ∀ s, region.Allows s (kind a)) :
    ∀ t ∈ ids, ∃ id kind, p.builder.subjects[t]? = some ⟨id, .projection ⟨source, kind⟩⟩ ∧
      region.Allows t kind := by
  intro t ht
  obtain ⟨place, hplace, hat⟩ := exists_of_forall₂_right hids ht
  obtain ⟨a, ha, rfl⟩ := List.mem_map.mp hplace
  exact hp.establishes (kind a) (href a) hat hsource (hallows a ha t)

theorem appendEach_projecting {patterns : List Pattern} {refs : List PatternSubjectRef}
    {ids : List SubjectId} {s : SubjectId} {p₁ : PatternDispatchProducer TH D} (region : Region TH)
    (ih : ∀ q ∈ patterns, ∀ ref, Adds (appendPattern resolver q ref) ref)
    (h : appendEach resolver patterns refs p = .ok (r, p')) (hp : p.Ok) (hgrows : p₁.Grows p)
    (hs : Grounded p.builder.subjects yes s) (hguard : ∀ g, region ≠ .guard g)
    (hat : List.Forall₂ p.At refs ids)
    (hids : ∀ t ∈ ids, ∃ id kind, p.builder.subjects[t]? = some ⟨id, .projection ⟨s, kind⟩⟩ ∧
      region.Allows t kind) (hchain : ∀ shape, region = .bitstring shape →
      FieldChain p.builder.subjects s [] shape.fields) :
    Added p₁ p' yes (.projecting ⟨s, region⟩ ids :: r.1, r.2) :=
  .cons hgrows (fun _ => askOk_projecting hs hguard hids hchain)
    (appendEach_adds ih h hp hat fun _ ht => grounded_projecting hs ht hids)

theorem forall₂_subject (p : PatternDispatchProducer TH D) (ids : List SubjectId) :
    List.Forall₂ p.At (ids.map .subject) ids := by
  induction ids with
  | nil => exact .nil
  | cons id ids ih => exact .cons (.inr rfl) ih

theorem FieldChain.has {subjects : List Subject} {x : SubjectId} {done fields : List SubjectId}
    (h : FieldChain subjects x done fields) {f : SubjectId} (hf : f ∈ fields) :
    ∃ id extraction, subjects[f]? = some ⟨id, .projection ⟨x, .bitstringField extraction⟩⟩ := by
  induction fields generalizing done with
  | nil => exact nomatch hf
  | cons g fields ih =>
    obtain ⟨⟨id, extraction, hget, _, _⟩, hrest⟩ := h
    cases hf with
    | head => exact ⟨id, extraction, hget⟩
    | tail _ hf => exact ih hrest hf

/-- What a pattern appended at a grounded place adds. -/
theorem appendPattern_adds (pattern : Pattern) :
    ∀ ref, Adds (appendPattern resolver pattern ref) ref := by
  induction pattern using Pattern.induction with
  | step pattern ih =>
    intro ref p p' r s yes h hp hat hs
    cases pattern with
    | wildcard =>
      rw [appendPattern] at h
      cases StateT.pure_eq_ok.mp h
      exact .nil hp
    | var name =>
      rw [appendPattern] at h
      obtain ⟨b, p₁, hb, h⟩ := StateT.bind_eq_ok.mp h
      cases StateT.pure_eq_ok.mp h
      obtain ⟨rfl, ok, grows⟩ := bind_spec hb hp hat
      refine ⟨ok, grows, fun _ => trivial, fun b hb => ?_⟩
      obtain rfl := List.mem_singleton.mp hb
      exact hs.grow grows.table
    | as name inner =>
      rw [appendPattern] at h
      obtain ⟨b, p₁, hb, h⟩ := StateT.bind_eq_ok.mp h
      obtain ⟨⟨qs, bs⟩, p₂, hinner, h⟩ := StateT.bind_eq_ok.mp h
      cases StateT.pure_eq_ok.mp h
      obtain ⟨rfl, ok, grows⟩ := bind_spec hb hp hat
      have hs' := hs.grow grows.table
      have inside := ih inner List.mem_cons_self ref hinner ok (grows.at_ hat) hs'
      refine ⟨inside.ok, grows.trans inside.grows, inside.asks, fun b hb => ?_⟩
      rcases List.mem_cons.mp hb with rfl | hb
      · exact (hs'.grow inside.grows.table).mono (subset_answered _ _)
      · exact inside.binds b hb
    | pinned name =>
      rw [appendPattern, StateT.get_bind_run] at h
      cases hpin : pinnedByName p.pinned name with
      | none =>
        simp only [hpin] at h
        cases h
      | some pin =>
        simp only [hpin] at h
        obtain ⟨x, p₁, hx, h⟩ := StateT.bind_eq_ok.mp h
        cases StateT.pure_eq_ok.mp h
        obtain ⟨rfl, ok, grows⟩ := subjectId_at hx hp hat
        exact .cons grows (fun _ => askOk_new (.equal (.pinned pin)) (hs.grow grows.table)
          (fun g hg => nomatch hg) (fun shape hb => nomatch hb)) (.nil ok)
    | literal value =>
      rw [appendPattern] at h
      obtain ⟨q, p₁, hq, h⟩ := StateT.bind_eq_ok.mp h
      obtain ⟨x, p₂, hx, hq⟩ := StateT.bind_eq_ok.mp hq
      cases StateT.pure_eq_ok.mp hq
      cases StateT.pure_eq_ok.mp h
      obtain ⟨rfl, ok, grows⟩ := subjectId_at hx hp hat
      exact .cons grows (fun _ => askOk_new (.equal (.const value.ground)) (hs.grow grows.table)
        (fun g hg => nomatch hg) (fun shape hb => nomatch hb)) (.nil ok)
    | tuple fields =>
      rw [appendPattern] at h
      obtain ⟨x, p₁, hx, h⟩ := StateT.bind_eq_ok.mp h
      obtain ⟨ids, p₂, hids, h⟩ := StateT.bind_eq_ok.mp h
      obtain ⟨⟨qs, bs⟩, p₃, hfields, h⟩ := StateT.bind_eq_ok.mp h
      cases StateT.pure_eq_ok.mp h
      obtain ⟨rfl, ok₁, grows₁⟩ := subjectId_at hx hp hat
      obtain ⟨ok₂, grows₂, hall⟩ := mapM_subjectId_spec hids ok₁
      have grows := grows₁.trans grows₂
      refine appendEach_projecting (.tupleArity fields.length)
        (fun q hq => ih q hq) hfields ok₂ grows (hs.grow grows.table) (fun g hg => nomatch hg)
        hall ?_ (fun shape hb => nomatch hb)
      exact ok₂.establishes_all (grows.at_ hat) hall (fun _ => rfl)
        (fun index hi _ => List.mem_range.mp hi)
    | list elems tail =>
      rw [appendPattern] at h
      obtain ⟨⟨⟨qs, bs⟩, rest⟩, p₁, helems, h⟩ := StateT.bind_eq_ok.mp h
      obtain ⟨first, t, hrest, ht⟩ := appendListElems_adds
        (fun q hq => ih q (List.mem_append_left _ hq)) helems hp hat hs
      cases tail with
      | some tail =>
        obtain ⟨⟨qs', bs'⟩, p₂, htail, h⟩ := StateT.bind_eq_ok.mp h
        cases StateT.pure_eq_ok.mp h
        exact first.append
          (ih tail (List.mem_append_right _ (by simp)) rest htail first.ok hrest ht)
      | none =>
        obtain ⟨x, p₂, hx, h⟩ := StateT.bind_eq_ok.mp h
        cases StateT.pure_eq_ok.mp h
        obtain ⟨rfl, ok, grows⟩ := subjectId_at hx first.ok hrest
        have last : Added p₁ p' (answered yes qs) ([.listEmpty x], []) :=
          .cons grows (fun _ => askOk_new (.list .empty) (ht.grow grows.table)
            (fun g hg => nomatch hg) (fun shape hb => nomatch hb)) (.nil ok)
        have both := first.append last
        rw [List.append_nil] at both
        exact both
    | map entries =>
      rw [appendPattern] at h
      obtain ⟨x, p₁, hx, h⟩ := StateT.bind_eq_ok.mp h
      obtain ⟨⟨qs, bs⟩, p₂, hentries, h⟩ := StateT.bind_eq_ok.mp h
      cases StateT.pure_eq_ok.mp h
      obtain ⟨rfl, ok, grows⟩ := subjectId_at hx hp hat
      have hs' := hs.grow grows.table
      have inside := appendEntries_adds
        (fun e he => ih e.2
          (List.mem_flatMap.mpr ⟨e, he, List.mem_cons_of_mem _ List.mem_cons_self⟩))
        hentries ok (grows.at_ hat) (hs'.mono (Set.subset_insert (.new ⟨x, .mapKind⟩) yes))
      exact .cons grows (fun _ => askOk_new .mapKind hs' (fun g hg => nomatch hg)
        (fun shape hb => nomatch hb)) inside
    | struct module fields =>
      rw [appendPattern] at h
      obtain ⟨ty, p₀, hty, h⟩ := StateT.bind_eq_ok.mp h
      obtain ⟨x, p₁, hx, h⟩ := StateT.bind_eq_ok.mp h
      obtain ⟨ids, p₂, hids, h⟩ := StateT.bind_eq_ok.mp h
      obtain ⟨⟨qs, bs⟩, p₃, hfields, h⟩ := StateT.bind_eq_ok.mp h
      cases StateT.pure_eq_ok.mp h
      obtain rfl : p₀ = p := by
        cases hr : resolver.structType module with
        | error => rw [hr] at hty; cases hty
        | ok ty' => rw [hr] at hty; cases hty; rfl
      obtain ⟨rfl, ok₁, grows₁⟩ := subjectId_at hx hp hat
      obtain ⟨ok₂, grows₂, hall⟩ := mapM_subjectId_spec hids ok₁
      have grows := grows₁.trans grows₂
      rw [appendFields_eq] at hfields
      refine appendEach_projecting (.type ty)
        (fun q hq => ih q hq) hfields ok₂ grows (hs.grow grows.table) (fun g hg => nomatch hg)
        hall ?_ (fun shape hb => nomatch hb)
      exact ok₂.establishes_all (grows.at_ hat) hall (fun _ => rfl) (fun _ _ _ => trivial)
    | bitstring fields =>
      rw [appendPattern] at h
      obtain ⟨x, p₁, hx, h⟩ := StateT.bind_eq_ok.mp h
      obtain ⟨ids, p₂, hids, h⟩ := StateT.bind_eq_ok.mp h
      obtain ⟨⟨qs, bs⟩, p₃, hfields, h⟩ := StateT.bind_eq_ok.mp h
      cases StateT.pure_eq_ok.mp h
      obtain ⟨rfl, ok₁, grows₁⟩ := subjectId_at hx hp hat
      obtain ⟨ok₂, grows₂, hchain⟩ := bitstringFields_spec [] hids ok₁
        (fun _ _ hmem => nomatch hmem) (fun _ hg => nomatch hg)
      have grows := grows₁.trans grows₂
      rw [appendBitFields_eq] at hfields
      refine appendEach_projecting (.bitstring ⟨ids, true⟩)
        (fun q hq => ih q hq) hfields ok₂ grows (hs.grow grows.table) (fun g hg => nomatch hg)
        (forall₂_subject p₂ ids) ?_ ?_
      · intro f hf
        obtain ⟨id, extraction, hget⟩ := FieldChain.has hchain hf
        exact ⟨id, .bitstringField extraction, hget, hf⟩
      · intro shape hshape
        cases hshape
        exact hchain

end Patterns

end PatternDispatchProducer

/-! ## Guards -/

section Guards

variable {resolver : PatternResolver TH C D} {bindings : List (String × SubjectId)}
  {pinned : List PatternPinnedInput}

mutual
/-- A guard reads only subjects its names are bound to. -/
theorem guardExprFromAst_leaves (e : Expr C) {keys keys' : List GroundValue}
    {expr : PatternGuardExpr D}
    (h : guardExprFromAst resolver bindings pinned e keys = .ok (expr, keys')) :
    ∀ s ∈ expr.leaves.filterMap GuardLeaf.subject?, ∃ name, (name, s) ∈ bindings := by
  intro s hs
  cases e with
  | literal value =>
    rw [guardExprFromAst] at h
    cases StateT.pure_eq_ok.mp h
    exact nomatch hs
  | var name =>
    rw [guardExprFromAst] at h
    cases hl : bindings.lookup name with
    | some subject =>
      simp only [hl] at h
      cases StateT.pure_eq_ok.mp h
      obtain rfl := List.mem_singleton.mp hs
      obtain ⟨before, after, rfl, _⟩ := List.lookup_eq_some_iff.mp hl
      exact ⟨name, List.mem_append_right _ List.mem_cons_self⟩
    | none =>
      simp only [hl] at h
      cases hpin : pinnedByName pinned name with
      | some pin =>
        simp only [hpin] at h
        cases StateT.pure_eq_ok.mp h
        exact nomatch hs
      | none =>
        simp only [hpin] at h
        cases h
  | ascribe inner =>
    rw [guardExprFromAst] at h
    exact guardExprFromAst_leaves inner h s hs
  | unOp op arg =>
    rw [guardExprFromAst] at h
    obtain ⟨arg', keys₁, harg, h⟩ := StateT.bind_eq_ok.mp h
    cases StateT.pure_eq_ok.mp h
    exact guardExprFromAst_leaves arg harg s hs
  | binOp op lhs rhs =>
    rw [guardExprFromAst] at h
    cases hop : op.guardOp? with
    | none =>
      simp only [hop] at h
      cases h
    | some op' =>
      simp only [hop] at h
      obtain ⟨lhs', keys₁, hlhs, h⟩ := StateT.bind_eq_ok.mp h
      obtain ⟨rhs', keys₂, hrhs, h⟩ := StateT.bind_eq_ok.mp h
      cases StateT.pure_eq_ok.mp h
      rw [PatternGuardExpr.leaves, List.filterMap_append] at hs
      rcases List.mem_append.mp hs with hs | hs
      · exact guardExprFromAst_leaves lhs hlhs s hs
      · exact guardExprFromAst_leaves rhs hrhs s hs
  | call callee args =>
    rw [guardExprFromAst] at h
    obtain ⟨inputs, keys₁, hinputs, h⟩ := StateT.bind_eq_ok.mp h
    obtain ⟨dispatch, keys₂, _, h⟩ := StateT.bind_eq_ok.mp h
    cases dispatch with
    | none => cases h
    | some dispatch =>
      obtain ⟨prepared, keys₃, _, h⟩ := StateT.bind_eq_ok.mp h
      cases StateT.pure_eq_ok.mp h
      exact guardExprsFromAst_leaves args hinputs s hs
  | other =>
    rw [guardExprFromAst] at h
    cases h

theorem guardExprsFromAst_leaves (es : List (Expr C)) {keys keys' : List GroundValue}
    {exprs : List (PatternGuardExpr D)}
    (h : guardExprsFromAst resolver bindings pinned es keys = .ok (exprs, keys')) :
    ∀ s ∈ (PatternGuardExpr.allLeaves exprs).filterMap GuardLeaf.subject?,
      ∃ name, (name, s) ∈ bindings := by
  intro s hs
  cases es with
  | nil =>
    rw [guardExprsFromAst] at h
    cases StateT.pure_eq_ok.mp h
    exact nomatch hs
  | cons e es =>
    rw [guardExprsFromAst] at h
    obtain ⟨expr, keys₁, hexpr, h⟩ := StateT.bind_eq_ok.mp h
    obtain ⟨exprs', keys₂, hexprs, h⟩ := StateT.bind_eq_ok.mp h
    cases StateT.pure_eq_ok.mp h
    rw [PatternGuardExpr.allLeaves, List.filterMap_append] at hs
    rcases List.mem_append.mp hs with hs | hs
    · exact guardExprFromAst_leaves e hexpr s hs
    · exact guardExprsFromAst_leaves es hexprs s hs
end

theorem exists_binding_of_boundSubjects {bindings : List PatternDispatchBinding} {name : String}
    {s : SubjectId} (h : (name, s) ∈ boundSubjects bindings) : ∃ b ∈ bindings, b.source = s := by
  rw [boundSubjects, List.mem_reverse] at h
  obtain ⟨b, hb, heq⟩ := List.mem_map.mp h
  cases heq
  exact ⟨b, hb, rfl⟩

end Guards

/-! ## Rows -/

namespace PatternDispatchProducer

variable {resolver : PatternResolver TH C D} {p p' : PatternDispatchProducer TH D}

/-- What holds between rows: the tables are in order, every input has a place, and the arms so far
find what they need. -/
structure Rows (p : PatternDispatchProducer TH D) : Prop where
  ok : p.Ok
  inputs : ∀ ordinal < p.inputCount, ∃ s, p.subjects.lookup (.input ordinal) = some s
  outcomes : p.outcomes.length = p.builder.outcomes.length
  arms : ∀ arm ∈ p.builder.arms,
    (groundedLogic p.builder.subjects p.guards p.outcomes).Arm arm.outcome arm.evidence ∅
      arm.questions

theorem guardQuestions_spec {bindings : List PatternDispatchBinding} {guard : Option (Expr C)}
    {qs : List (RegionQuestion TH)} {yes : Set (RegionQuestion TH)}
    (h : guardQuestions resolver bindings guard p = .ok (qs, p')) (hp : p.Ok)
    (hb : ∀ b ∈ bindings, Grounded p.builder.subjects yes b.source) :
    p'.Ok ∧ p'.builder = p.builder ∧ p'.subjects = p.subjects ∧ p'.outcomes = p.outcomes ∧
      p'.inputCount = p.inputCount ∧ p.guards <+: p'.guards ∧
      Asks p'.builder.subjects p'.guards yes qs := by
  cases guard with
  | none =>
    cases StateT.pure_eq_ok.mp h
    exact ⟨hp, rfl, rfl, rfl, rfl, List.prefix_rfl, trivial⟩
  | some guard =>
    obtain ⟨⟨expr, keys⟩, hexpr, h⟩ := Except.bind_eq_ok.mp h
    cases h
    refine ⟨hp.of_tables rfl rfl rfl, rfl, rfl, rfl, rfl, List.prefix_append _ _, ⟨?_, trivial⟩⟩
    refine ⟨?_, fun s hs => (nomatch hs), rfl, fun shape hb => (nomatch hb), ?_⟩
    · intro s hs
      have hs' : s ∈ expr.leaves.filterMap GuardLeaf.subject? := by
        simpa [questionReads, RegionQuestion.new] using hs
      obtain ⟨name, hmem⟩ := guardExprFromAst_leaves guard hexpr s hs'
      obtain ⟨b, hb', rfl⟩ := exists_binding_of_boundSubjects hmem
      exact hb b hb'
    · intro g hg
      cases hg
      rw [List.length_append]
      exact Nat.lt_succ_self _

theorem typeQuestions_spec {preconditions : List (Nat × TH)} {qs : List (RegionQuestion TH)}
    {yes : Set (RegionQuestion TH)}
    (h : preconditions.mapM (m := ProducerM TH D) (fun (ordinal, ty) => do
      return RegionQuestion.typeRegion (← subjectId (.input ordinal)) ty) p = .ok (qs, p'))
    (hp : p.Ok) : Added p p' yes (qs, []) := by
  induction preconditions generalizing p qs yes with
  | nil =>
    cases StateT.pure_eq_ok.mp h
    exact .nil hp
  | cons precondition preconditions ih =>
    obtain ⟨ordinal, ty⟩ := precondition
    rw [List.mapM_cons] at h
    obtain ⟨q, p₁, hq, h⟩ := StateT.bind_eq_ok.mp h
    obtain ⟨qs', p₂, hqs, h⟩ := StateT.bind_eq_ok.mp h
    cases StateT.pure_eq_ok.mp h
    obtain ⟨s, p₃, hs, hq⟩ := StateT.bind_eq_ok.mp hq
    cases StateT.pure_eq_ok.mp hq
    obtain ⟨ok₁, grows₁, at₁, _⟩ := subjectId_spec _ hs hp
    have hinput : p₁.Has s (.input ordinal) := by
      rcases at₁ with hl | hl
      · exact ok₁.input hl
      · cases hl
    obtain ⟨id, hid⟩ := hinput
    exact .cons grows₁ (fun _ => askOk_new (.type ty) (.input hid) (fun g hg => nomatch hg)
      (fun shape hb => nomatch hb)) (ih hqs ok₁)

theorem addArmQuestions_spec {b b' : DispatchMatrixBuilder TH}
    {questions : List (RegionQuestion TH)} {evidence : EdgeEvidence TH} {outcome : OutcomeId}
    (h : b.addArmQuestions questions evidence outcome = .ok b') :
    b'.subjects = b.subjects ∧ b'.outcomes = b.outcomes ∧
      ∃ id, b'.arms = b.arms ++ [⟨id, questions, evidence, outcome⟩] := by
  unfold DispatchMatrixBuilder.addArmQuestions at h
  obtain ⟨_, _, h⟩ := Except.bind_eq_ok.mp h
  obtain ⟨_, _, h⟩ := Except.bind_eq_ok.mp h
  split at h
  · cases h
  · split at h
    · cases h
    · cases h
      exact ⟨rfl, rfl, _, rfl⟩

theorem Rows.places (hp : p.Rows) {n : Nat} (hn : n = p.inputCount) :
    ∃ ids, List.Forall₂ p.At ((List.range n).map .input) ids ∧
      ∀ s ∈ ids, Grounded p.builder.subjects (∅ : Set (RegionQuestion TH)) s := by
  have hplace : ∀ o ∈ List.range n, p.subjects.lookup (.input o) =
      some ((p.subjects.lookup (.input o)).getD 0) := by
    intro o ho
    obtain ⟨s, hs⟩ := hp.inputs o (hn ▸ List.mem_range.mp ho)
    rw [hs, Option.getD_some]
  refine ⟨(List.range n).map fun o => (p.subjects.lookup (.input o)).getD 0, ?_, ?_⟩
  · rw [List.forall₂_map_left_iff, List.forall₂_map_right_iff, List.forall₂_same]
    exact fun o ho => .inl (hplace o ho)
  · intro s hs
    obtain ⟨o, ho, rfl⟩ := List.mem_map.mp hs
    obtain ⟨id, hid⟩ := hp.ok.input (hplace o ho)
    exact .input hid

/-- One more row. -/
theorem addRow_rows {row : PatternRow TH C} {u : Unit} (h : addRow resolver row p = .ok (u, p'))
    (hp : p.Rows) (hlen : row.patterns.length = p.inputCount) :
    p'.Rows ∧ p'.inputCount = p.inputCount := by
  obtain ⟨⟨qs, bs⟩, p₁, hpatterns, h⟩ := StateT.bind_eq_ok.mp h
  obtain ⟨tqs, p₂, htypes, h⟩ := StateT.bind_eq_ok.mp h
  obtain ⟨gqs, p₃, hguard, h⟩ := StateT.bind_eq_ok.mp h
  obtain ⟨ids, hat, hids⟩ := hp.places hlen
  have hrow : Added p p₁ ∅ (qs, bs) := appendEach_adds
    (fun q _ ref => appendPattern_adds q ref) hpatterns hp.ok hat hids
  have htyped := hrow.append (typeQuestions_spec htypes hrow.ok)
  rw [List.append_nil] at htyped
  obtain ⟨ok₃, hb₃, hs₃, ho₃, hi₃, hg₃, hasks⟩ := guardQuestions_spec hguard htyped.ok htyped.binds
  simp only at h
  split at h
  · cases h
  next builder harm =>
    cases h
    obtain ⟨hsub, hout, id, harms⟩ := addArmQuestions_spec harm
    have hsubjects : builder.subjects = p₂.builder.subjects :=
      hsub.trans (show p₃.builder.subjects = _ by rw [hb₃])
    have htable : p.builder.subjects <+: builder.subjects := hsubjects ▸ htyped.grows.table
    have houtcomes : p₃.outcomes = p.outcomes := ho₃.trans htyped.grows.outcomes
    have hguards : p.guards <+: p₃.guards := htyped.grows.guards ▸ hg₃
    have hlast : p₃.builder.outcomes.length = p.outcomes.length := by
      rw [hb₃, htyped.grows.builtOutcomes, hp.outcomes]
    refine ⟨⟨?_, ?_, ?_, ?_⟩, hi₃.trans htyped.grows.inputCount⟩
    · exact ok₃.of_tables hsub rfl rfl
    · intro ordinal ho
      rw [hi₃, htyped.grows.inputCount] at ho
      obtain ⟨s, hs⟩ := hp.inputs ordinal ho
      exact ⟨s, hs₃ ▸ htyped.grows.places hs⟩
    · show (p₃.outcomes ++ [_]).length = builder.outcomes.length
      rw [hout]
      show _ = (p₃.builder.outcomes ++ [_]).length
      rw [List.length_append, List.length_append, hlast, houtcomes]
      rfl
    · intro arm ha
      have ha' : arm ∈ p₃.builder.arms ++ [⟨id, qs ++ tqs ++ gqs, .empty,
          p₃.builder.outcomes.length⟩] := harms ▸ ha
      rw [hlast, hb₃, htyped.grows.arms] at ha'
      rcases List.mem_append.mp ha' with hold | hnew
      · exact groundedArm_grow (hp.arms arm hold) htable hguards
          (houtcomes ▸ List.prefix_append _ _)
      · obtain rfl := List.mem_singleton.mp hnew
        have htable₃ : p₃.builder.subjects = builder.subjects := hsub.symm
        have hqs : Asks builder.subjects p₃.guards ∅ (qs ++ tqs ++ gqs) := by
          refine Asks.append ?_ (htable₃ ▸ hasks)
          rw [hsubjects]
          exact htyped.asks p₃.guards
        refine hqs.arm ⟨rfl, ?_, ?_⟩
        · rw [List.length_append, houtcomes]
          exact Nat.lt_succ_self _
        · intro outcome hget b hb
          rw [houtcomes, getElem?_append_length] at hget
          cases hget
          rw [hsubjects, answered_append]
          exact (htyped.binds b hb).mono (subset_answered _ _)

theorem inputSubjects_spec (n : Nat) (b : DispatchMatrixBuilder TH) :
    (inputSubjects n b).subjects = b.subjects ++
      (List.range n).map (fun i => ⟨b.subjects.length + i, .input (b.inputCount + i)⟩) ∧
    (inputSubjects n b).outcomes = b.outcomes ∧ (inputSubjects n b).arms = b.arms := by
  induction n generalizing b with
  | zero => exact ⟨by simp [inputSubjects], rfl, rfl⟩
  | succ n ih =>
    obtain ⟨hsubjects, houtcomes, harms⟩ := ih b.addInputSubject.2
    refine ⟨?_, houtcomes, harms⟩
    rw [inputSubjects, hsubjects, List.range_succ_eq_map]
    simp [DispatchMatrixBuilder.addInputSubject, Function.comp_def, Nat.add_comm, Nat.add_left_comm]

theorem lookup_inputs {n : Nat} {ref : PatternSubjectRef} {s : SubjectId}
    (h : ((List.range n).map fun o => (PatternSubjectRef.input o, o)).lookup ref = some s) :
    ref = .input s ∧ s < n := by
  obtain ⟨before, after, heq, _⟩ := List.lookup_eq_some_iff.mp h
  have hmem : (ref, s) ∈ (List.range n).map fun o => (PatternSubjectRef.input o, o) :=
    heq ▸ List.mem_append_right _ List.mem_cons_self
  obtain ⟨o, ho, hpair⟩ := List.mem_map.mp hmem
  cases hpair
  exact ⟨rfl, List.mem_range.mp ho⟩

theorem lookup_input_of_lt {n o : Nat} (ho : o < n) :
    ∃ s, ((List.range n).map fun o => (PatternSubjectRef.input o, o)).lookup (.input o) =
      some s := by
  rw [← Option.isSome_iff_exists, List.lookup_isSome_iff]
  exact ⟨(.input o, o), List.mem_map.mpr ⟨o, List.mem_range.mpr ho, rfl⟩, BEq.rfl⟩

theorem startSubjects_spec (n : Nat) :
    let b : DispatchMatrixBuilder TH :=
      if n = 0 then (inputSubjects n .empty).addInputSubject.2 else inputSubjects n .empty
    (∀ o < n, b.subjects[o]? = some ⟨o, .input o⟩) ∧
      (∀ s ∈ b.subjects, ∃ o, s.source = .input o) ∧ b.outcomes = [] ∧ b.arms = [] := by
  obtain ⟨hsubjects, houtcomes, harms⟩ :=
    inputSubjects_spec n (DispatchMatrixBuilder.empty : DispatchMatrixBuilder TH)
  simp only
  split
  next hn =>
    subst hn
    refine ⟨fun o ho => absurd ho (Nat.not_lt_zero o), fun s hs => ?_, houtcomes, harms⟩
    obtain rfl := List.mem_singleton.mp hs
    exact ⟨0, rfl⟩
  next =>
    rw [hsubjects]
    refine ⟨fun o ho => ?_, fun s hs => ?_, houtcomes, harms⟩
    · simp [DispatchMatrixBuilder.empty, ho]
    · obtain ⟨o, _, rfl⟩ := List.mem_map.mp ((List.mem_append.mp hs).resolve_left List.not_mem_nil)
      exact ⟨_, rfl⟩

theorem validateSourceRows_arity {patterns : SourcePatternRows TH C} {u : Unit}
    (h : validateSourceRows patterns = .ok u) :
    ∀ row ∈ patterns.rows, row.patterns.length = patterns.inputCount := by
  obtain ⟨_, hrows, _⟩ := Except.bind_eq_ok.mp h
  generalize patterns.rows = rows at hrows
  induction rows with
  | nil => exact fun _ hrow => nomatch hrow
  | cons row rows ih =>
    rw [List.forM_eq_forM, List.forM_cons] at hrows
    obtain ⟨_, hrow, hrows⟩ := Except.bind_eq_ok.mp hrows
    intro row' hmem
    rcases List.mem_cons.mp hmem with rfl | hmem
    · split at hrow
      · assumption
      · cases hrow
    · exact ih hrows row' hmem

theorem new_rows {patterns : SourcePatternRows TH C} (h : new patterns = .ok p) :
    p.Rows ∧ p.inputCount = patterns.inputCount ∧
      ∀ row ∈ patterns.rows, row.patterns.length = patterns.inputCount := by
  obtain ⟨_, hvalid, h⟩ := Except.bind_eq_ok.mp h
  cases h
  obtain ⟨hinputs, honly, houtcomes, harms⟩ := @startSubjects_spec TH patterns.inputCount
  refine ⟨⟨⟨?_, ?_, ?_, ?_, fun hl => nomatch hl⟩, ?_, ?_, ?_⟩, rfl,
    validateSourceRows_arity hvalid⟩
  · intro s id source kind hs
    obtain ⟨o, ho⟩ := honly _ (List.mem_of_getElem? hs)
    cases ho
  · intro o s hl
    obtain ⟨heq, hs⟩ := lookup_inputs hl
    cases heq
    exact ⟨_, hinputs _ hs⟩
  · intro ref parent kind s href hl
    obtain ⟨rfl, _⟩ := lookup_inputs hl
    cases href
  · intro id s hl
    obtain ⟨heq, _⟩ := lookup_inputs hl
    cases heq
  · exact fun o ho => lookup_input_of_lt ho
  · exact congrArg List.length houtcomes.symm
  · intro arm ha
    have ha' : arm ∈ ([] : List (DispatchArm TH)) := harms ▸ ha
    exact nomatch ha'

theorem addRows_rows {rows : List (PatternRow TH C)} {u : Unit}
    (h : rows.forM (addRow resolver) p = .ok (u, p')) (hp : p.Rows)
    (hlen : ∀ row ∈ rows, row.patterns.length = p.inputCount) :
    p'.Rows ∧ p'.inputCount = p.inputCount := by
  induction rows generalizing p with
  | nil =>
    cases StateT.pure_eq_ok.mp h
    exact ⟨hp, rfl⟩
  | cons row rows ih =>
    rw [List.forM_eq_forM, List.forM_cons] at h
    obtain ⟨_, p₁, hrow, h⟩ := StateT.bind_eq_ok.mp h
    obtain ⟨hp₁, hcount⟩ := addRow_rows hrow hp (hlen row List.mem_cons_self)
    obtain ⟨hp', hcount'⟩ := ih h hp₁ fun row' hmem =>
      (hlen row' (List.mem_cons_of_mem row hmem)).trans hcount.symm
    exact ⟨hp', hcount'.trans hcount⟩

end PatternDispatchProducer

/-! ## Produced plans -/

section Plans

variable {resolver : PatternResolver TH C D}

variable {patterns : SourcePatternRows TH C}

theorem PatternDispatchProducer.ofRows_rows {p : PatternDispatchProducer TH D}
    (h : PatternDispatchProducer.ofRows patterns resolver = .ok p) : p.Rows := by
  obtain ⟨start, hnew, h⟩ := Except.bind_eq_ok.mp h
  obtain ⟨⟨u, p'⟩, hrows, h⟩ := Except.bind_eq_ok.mp h
  cases h
  obtain ⟨hstart, hcount, hlen⟩ := PatternDispatchProducer.new_rows hnew
  exact (PatternDispatchProducer.addRows_rows hrows hstart
    fun row hmem => (hlen row hmem).trans hcount.symm).1

variable [DecidableEq TH]

theorem patternDispatch_inv {plan : PatternDispatchPlan TH D}
    (h : patternDispatchFromSourceWithResolver patterns resolver = .ok plan) :
    ∃ p, PatternDispatchProducer.ofRows patterns resolver = .ok p ∧ p.Rows ∧ ∃ compiled,
      compileOrderedArms p.builder.arms p.builder.subjects
        ⟨p.inputCount, p.pinned.map PatternPinnedInput.input,
          p.guards.map PatternGuardExpr.leaves⟩ = .ok compiled ∧
      plan.graph = compiled.graph ∧ plan.inputCount = p.inputCount ∧
      plan.outcomes = p.outcomes ∧ plan.guards = p.guards ∧ plan.pinned = p.pinned := by
  unfold patternDispatchFromSourceWithResolver at h
  split at h
  · cases h
  next p hp =>
    unfold PatternDispatchProducer.finish at h
    split at h
    · cases h
    · simp only at h
      split at h
      · cases h
      next compiled hcompiled =>
        cases h
        exact ⟨p, hp, PatternDispatchProducer.ofRows_rows hp, compiled, hcompiled,
          rfl, rfl, rfl, rfl, rfl⟩

theorem patternDispatch_inOrder {plan : PatternDispatchPlan TH D}
    (h : patternDispatchFromSourceWithResolver patterns resolver = .ok plan) :
    InOrder plan.graph.subjects := by
  obtain ⟨p, _, hp, compiled, hcompiled, hgraph, _⟩ := patternDispatch_inv h
  rw [hgraph, compileOrderedArms_subjects hcompiled]
  exact hp.ok.sources

theorem patternDispatch_covers {plan : PatternDispatchPlan TH D}
    (h : patternDispatchFromSourceWithResolver patterns resolver = .ok plan) :
    (groundedLogic plan.graph.subjects plan.guards plan.outcomes).Covers plan.graph.nodes ∅
      plan.graph.root := by
  obtain ⟨p, _, hp, compiled, hcompiled, hgraph, _, houtcomes, hguards, _⟩ := patternDispatch_inv h
  rw [hgraph, houtcomes, hguards, compileOrderedArms_subjects hcompiled]
  exact compileOrderedArms_covers hcompiled hp.arms

end Plans

end Fz.Dispatch
