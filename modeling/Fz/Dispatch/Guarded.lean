import Fz.Dispatch.DirectSound
import Fz.Dispatch.ProducerSound

/-!
# Reads are guarded

Along every path of a produced graph, what a test or a leaf reads is grounded in the questions the
path has answered yes.  A run of the executor follows a path (`ExecReaches`), and the values its
subjects have keep the shapes those answers say, so no projection is taken from a value of another
shape (`Fits`).

The compiler itself does not look at what an arm projects.  Arms that no producer makes are compiled
as they are, and the last section has one that projects out of a value nothing was asked about.
-/

namespace Fz.Dispatch

open Fz.Base Fz.Bitstr

variable {TH C D : Type}

namespace Direct

variable {rt : Runtime TH} {runHelper : RunHelper D} {plan : PatternDispatchPlan TH D}
  {ops : DispatchOperands}

/-! ## Shapes -/

variable (rt plan ops) in
/-- What a projection needs of the value it is taken from.  A tuple may be there as lanes.  What a
struct needs is the business of its type test. -/
def Fits (source s : SubjectId) : ProjectionKind → Prop
  | .tupleField index =>
    (∃ lanes, value rt plan ops source = .ok (.tuple lanes) ∧ index < lanes.length) ∨
      ∃ fields, word rt plan ops source = .ok (.tuple fields) ∧ index < fields.length
  | .listHead | .listTail => ∃ head tail, word rt plan ops source = .ok (.cons head tail)
  | .mapValue key => ∃ map v, word rt plan ops source = .ok map ∧
      mapLookup rt plan.preparedKeys ops map key = some v
  | .bitstringField _ => ∃ bits read reader, word rt plan ops source = .ok (.bits bits) ∧
      readEach rt plan ops (fieldsUpTo plan.graph.subjects (s + 1) s) (readerInit bits) [] =
        some (read, reader)
  | .structField _ => True

theorem orMiss_eq_some {α : Type} {p : Except DispatchStop α} {a : α}
    (h : Except.orMiss p = .ok (some a)) : p = .ok a := by
  cases p with
  | ok b =>
    cases h
    rfl
  | error stop => cases stop <;> cases h

theorem fieldsUpTo_of_mem (hord : InOrder plan.graph.subjects) {x s : SubjectId}
    {fields : List SubjectId} (done : List SubjectId)
    (hchain : FieldChain plan.graph.subjects x done fields)
    (hdone : ∀ g, done.getLast? = some g → fieldsUpTo plan.graph.subjects (g + 1) g = done)
    (hs : s ∈ fields) :
    ∃ after, fieldsUpTo plan.graph.subjects (s + 1) s ++ after = done ++ fields := by
  induction fields generalizing done with
  | nil => exact nomatch hs
  | cons f fields ih =>
    obtain ⟨⟨id, extraction, hget, hprev, _⟩, hrest⟩ := hchain
    have hup := fieldsUpTo_concat hord hget hprev hdone
    rcases List.mem_cons.mp hs with rfl | hs
    · exact ⟨fields, by rw [hup, List.append_assoc, List.singleton_append]⟩
    · obtain ⟨after, hafter⟩ := ih (done ++ [f]) hrest (fun g hg => by
        rw [List.getLast?_concat, Option.some.injEq] at hg
        exact hg ▸ hup) hs
      exact ⟨after, by rw [hafter, List.append_assoc, List.singleton_append]⟩

theorem wordHit_of_hit {s : SubjectId} {region : Region TH}
    (h : (do match ← Except.orMiss (word rt plan ops s) with
      | none => .ok false
      | some word => wordHit rt plan ops word region) = Except.ok true) :
    ∃ w, word rt plan ops s = .ok w ∧ wordHit rt plan ops w region = .ok true := by
  obtain ⟨o, ho, h⟩ := Except.bind_eq_ok.mp h
  cases o with
  | none => cases h
  | some w => exact ⟨w, orMiss_eq_some ho, h⟩

variable (runHelper) in
/-- A region that is hit has the shape of what it allows to project. -/
theorem fits_of_regionHit (hord : InOrder plan.graph.subjects) {K : Set (RegionQuestion TH)}
    {q : RegionQuestion TH} (hask : AskOk plan.graph.subjects plan.guards K q) {s : SubjectId}
    {kind : ProjectionKind} (hallows : q.predicate.region.Allows s kind)
    (hhit : (∃ ty, q.predicate.region = .type ty) ∨
      regionHit rt runHelper plan ops q.predicate.subject q.predicate.region = .ok true) :
    Fits rt plan ops q.predicate.subject s kind := by
  obtain ⟨⟨subject, region⟩, matchEvidence, missEvidence⟩ := q
  simp only at hallows hhit ⊢
  cases region with
  | type ty =>
    cases kind with
    | structField field => trivial
    | _ => exact hallows.elim
  | tupleArity arity =>
    cases kind with
    | tupleField index =>
      have hhit := hhit.resolve_left (by rintro ⟨_, ⟨⟩⟩)
      obtain ⟨o, ho, hhit⟩ := Except.bind_eq_ok.mp hhit
      cases o with
      | none => cases hhit
      | some b =>
        have hvalue := orMiss_eq_some ho
        by_cases hlanes : ∃ lanes, b = .tuple lanes
        · obtain ⟨lanes, rfl⟩ := hlanes
          have hlen : lanes.length = arity := by simpa using hhit
          exact .inl ⟨lanes, hvalue, hlen ▸ hallows⟩
        · have hhit : ∃ fields, Except.orMiss (wordOf subject b) = .ok (some (.tuple fields)) ∧
              fields.length = arity := by
            cases b with
            | tuple lanes => exact absurd ⟨lanes, rfl⟩ hlanes
            | _ =>
              obtain ⟨o, ho', hhit⟩ := Except.bind_eq_ok.mp hhit
              split at hhit
              next fields => exact ⟨fields, ho', by simpa using hhit⟩
              next => cases hhit
          obtain ⟨fields, ho', hlen⟩ := hhit
          refine .inr ⟨fields, ?_, hlen ▸ hallows⟩
          rw [word, hvalue]
          exact orMiss_eq_some ho'
    | _ => exact hallows.elim
  | list region =>
    cases region with
    | empty => cases kind <;> exact hallows.elim
    | cons =>
      obtain ⟨w, hw, hhit⟩ := wordHit_of_hit (hhit.resolve_left (by rintro ⟨_, ⟨⟩⟩))
      have hcons : ∃ head tail, word rt plan ops subject = .ok (.cons head tail) := by
        cases w with
        | cons head tail => exact ⟨head, tail, hw⟩
        | _ => cases hhit
      cases kind with
      | listHead => exact hcons
      | listTail => exact hcons
      | _ => exact hallows.elim
  | mapKeyPresent key =>
    cases kind with
    | mapValue key' =>
      obtain rfl : key' = key := hallows
      obtain ⟨w, hw, hhit⟩ := wordHit_of_hit (hhit.resolve_left (by rintro ⟨_, ⟨⟩⟩))
      have hsome : (mapLookup rt plan.preparedKeys ops w key').isSome = true := by
        simpa [wordHit] using hhit
      obtain ⟨v, hv⟩ := Option.isSome_iff_exists.mp hsome
      exact ⟨w, v, hw, hv⟩
    | _ => exact hallows.elim
  | bitstring shape =>
    cases kind with
    | bitstringField extraction =>
      obtain ⟨w, hw, hhit⟩ := wordHit_of_hit (hhit.resolve_left (by rintro ⟨_, ⟨⟩⟩))
      cases w with
      | bits bits =>
        obtain ⟨after, hafter⟩ := fieldsUpTo_of_mem hord [] (hask.chain shape rfl)
          (fun _ hg => by cases hg) hallows
        rw [List.nil_append] at hafter
        cases hread : readEach rt plan ops (fieldsUpTo plan.graph.subjects (s + 1) s)
            (readerInit bits) [] with
        | none => simp [wordHit, ← hafter, readEach_append, hread] at hhit
        | some r => exact ⟨bits, r.1, r.2, hw, hread⟩
      | _ => cases hhit
    | _ => exact hallows.elim
  | equal | mapKind | guard => cases kind <;> exact hallows.elim

/-! ## Runs -/

variable (rt runHelper plan ops) in
/-- Where a run of the executor can be: at a node, with its state, after the questions of `K` were
answered yes. -/
inductive ExecReaches : Set (RegionQuestion TH) → GraphNodeId → DispatchExecState → Prop where
  | start : ExecReaches ∅ plan.graph.root (.new plan.graph.subjects.length)
  | yes {K n st st' predicate onMatch onMiss} : ExecReaches K n st →
      plan.graph.nodes[n]? = some (.test predicate onMatch onMiss) →
      Exec.ask rt runHelper plan ops (askedQuestion predicate onMatch onMiss) st = (.ok true, st') →
      ExecReaches (insert (askedQuestion predicate onMatch onMiss) K) onMatch.target st'
  | no {K n st st' predicate onMatch onMiss} : ExecReaches K n st →
      plan.graph.nodes[n]? = some (.test predicate onMatch onMiss) →
      Exec.ask rt runHelper plan ops (askedQuestion predicate onMatch onMiss) st =
        (.ok false, st') →
      ExecReaches K onMiss.target st'

section Runs

variable {K : Set (RegionQuestion TH)} {n : GraphNodeId} {st : DispatchExecState}

theorem ExecReaches.reaches (h : ExecReaches rt runHelper plan ops K n st) :
    Reaches plan.graph.nodes plan.graph.root K n := by
  induction h with
  | start => exact .start
  | yes _ hn _ ih => exact .yes ih hn
  | no _ hn _ ih => exact .no ih hn

theorem ExecReaches.of_node {fuel : Nat} {o : OutcomeId} {st' : DispatchExecState}
    (h : ExecReaches rt runHelper plan ops K n st)
    (hrun : Exec.node rt runHelper plan ops fuel n st = (.ok o, st')) :
    ∃ K' n' evidence, ExecReaches rt runHelper plan ops K' n' st' ∧
      plan.graph.nodes[n']? = some (.outcome o evidence) := by
  induction fuel generalizing K n st with
  | zero => cases hrun
  | succ fuel ih =>
    rw [Exec.node] at hrun
    cases hn : plan.graph.nodes[n]? with
    | none =>
      rw [hn] at hrun
      cases hrun
    | some node =>
      rw [hn] at hrun
      cases node with
      | fail => cases hrun
      | outcome o' evidence =>
        cases hrun
        exact ⟨K, n, evidence, h, hn⟩
      | test predicate onMatch onMiss =>
        simp only [ExecM.run_bind] at hrun
        rcases hask : Exec.ask rt runHelper plan ops (askedQuestion predicate onMatch onMiss) st
          with ⟨r, st₁⟩
        rw [hask] at hrun
        cases r with
        | error stop => cases hrun
        | ok hit =>
          cases hit with
          | true => exact ih (.yes h hn hask) hrun
          | false => exact ih (.no h hn hask) hrun

theorem ExecReaches.fits (hord : InOrder plan.graph.subjects)
    (hcov : (groundedLogic plan.graph.subjects plan.guards plan.outcomes).Covers plan.graph.nodes ∅
      plan.graph.root) (h : ExecReaches rt runHelper plan ops K n st) :
    Sound rt plan ops st ∧ ∀ q ∈ K, ∀ s kind,
      q.predicate.region.Allows s kind → Fits rt plan ops q.predicate.subject s kind := by
  induction h with
  | start => exact ⟨.new, fun _ hq => nomatch hq⟩
  | @yes K n st st' predicate onMatch onMiss hreach hn hrun ih =>
    obtain ⟨hask, _, _⟩ := covers_test_inv (hreach.reaches.covers hcov) hn
    obtain ⟨hsound, hagree, _, _⟩ := ask_spec runHelper hord hask ih.1
    rw [hrun] at hsound hagree
    refine ⟨hsound, ?_⟩
    rintro q (rfl | hq) s kind hallows
    · refine fits_of_regionHit runHelper hord hask hallows ?_
      rcases hagree with heq | ⟨_, _, htype⟩ | ⟨hr, _⟩
      · refine .inr ?_
        obtain ⟨hit, hhit, hev⟩ := Except.bind_eq_ok.mp heq.symm
        cases hit with
        | true => exact hhit
        | false => cases hev
      · exact .inl (htype.resolve_right fun h => h rfl)
      · cases hr
    · exact ih.2 q hq s kind hallows
  | @no K n st st' predicate onMatch onMiss hreach hn hrun ih =>
    obtain ⟨hask, _, _⟩ := covers_test_inv (hreach.reaches.covers hcov) hn
    have hsound := (ask_spec runHelper hord hask ih.1).1
    rw [hrun] at hsound
    exact ⟨hsound, ih.2⟩

theorem ExecReaches.fits_edge (hord : InOrder plan.graph.subjects)
    (hcov : (groundedLogic plan.graph.subjects plan.guards plan.outcomes).Covers plan.graph.nodes ∅
      plan.graph.root)
    (h : ExecReaches rt runHelper plan ops K n st) {predicate : RegionPredicate TH}
    {onMatch onMiss : DispatchEdge TH}
    (hn : plan.graph.nodes[n]? = some (.test predicate onMatch onMiss))
    (hhit : (Exec.regionHit rt runHelper plan ops predicate.subject onMatch.evidence
      predicate.region st).1 = .ok true) {s : SubjectId} {kind : ProjectionKind}
    (hallows : predicate.region.Allows s kind) : Fits rt plan ops predicate.subject s kind := by
  obtain ⟨hask, _, _⟩ := covers_test_inv (h.reaches.covers hcov) hn
  have hregion : Decides rt plan ops K Set.univ
      (bitFields (askedQuestion predicate onMatch onMiss)) (∃ ty, predicate.region = .type ty)
      (Exec.regionHit rt runHelper plan ops predicate.subject onMatch.evidence predicate.region)
      (regionHit rt runHelper plan ops predicate.subject predicate.region) :=
    regionHit_decides hord hask fun _ _ => Set.mem_univ _
  refine fits_of_regionHit runHelper hord hask hallows ?_
  rcases (hregion st (h.fits hord hcov).1).2.1 with heq | ⟨_, _, htype⟩ | ⟨hr, _⟩
  · exact .inr (heq.symm.trans hhit)
  · exact .inl (htype.resolve_right fun hne => hne hhit)
  · rw [hhit] at hr
    cases hr

end Runs

end Direct

/-! ## Produced plans -/

/-- What a node finds when a path arrives at it after a yes to the questions of `K`. -/
structure NodeGuarded (plan : PatternDispatchPlan TH D) (K : Set (RegionQuestion TH))
    (n : GraphNodeId) : Prop where
  /-- What a test reads was made safe by a yes. -/
  reads : ∀ predicate onMatch onMiss, plan.graph.nodes[n]? = some (.test predicate onMatch onMiss) →
    ∀ s ∈ questionReads plan.guards (askedQuestion predicate onMatch onMiss),
      Grounded plan.graph.subjects K s
  /-- What a match edge projects is made safe by the yes that takes it. -/
  onMatch : ∀ predicate onMatch onMiss,
    plan.graph.nodes[n]? = some (.test predicate onMatch onMiss) →
    ∀ s ∈ onMatch.evidence.projections,
      Establishes plan.graph.subjects (askedQuestion predicate onMatch onMiss) s ∧
        Grounded plan.graph.subjects K predicate.subject
  onMiss : ∀ predicate onMatch onMiss,
    plan.graph.nodes[n]? = some (.test predicate onMatch onMiss) →
    onMiss.evidence.projections = []
  leaf : ∀ o evidence, plan.graph.nodes[n]? = some (.outcome o evidence) → evidence.projections = []
  /-- What an outcome binds was made safe by a yes. -/
  bindings : ∀ o evidence, plan.graph.nodes[n]? = some (.outcome o evidence) →
    ∀ outcome, plan.outcomes[o]? = some outcome →
      ∀ b ∈ outcome.bindings, Grounded plan.graph.subjects K b.source

/-- What a run finds at a node. -/
structure RunGuarded (rt : Runtime TH) (runHelper : RunHelper D) (plan : PatternDispatchPlan TH D)
    (ops : DispatchOperands) (K : Set (RegionQuestion TH)) (n : GraphNodeId)
    (st : DispatchExecState) : Prop where
  path : Reaches plan.graph.nodes plan.graph.root K n
  slots : Direct.Sound rt plan ops st
  /-- A subject that was made safe is projected from a value of its shape. -/
  reads : ∀ s, Grounded plan.graph.subjects K s → ∀ id source kind,
    plan.graph.subjects[s]? = some ⟨id, .projection ⟨source, kind⟩⟩ →
    Direct.Fits rt plan ops source s kind
  /-- So is what a match edge projects, once its region is hit. -/
  onMatch : ∀ predicate onMatch onMiss,
    plan.graph.nodes[n]? = some (.test predicate onMatch onMiss) →
    (Exec.regionHit rt runHelper plan ops predicate.subject onMatch.evidence predicate.region
      st).1 = .ok true →
    ∀ s ∈ onMatch.evidence.projections, ∀ id source kind,
      plan.graph.subjects[s]? = some ⟨id, .projection ⟨source, kind⟩⟩ →
      Direct.Fits rt plan ops source s kind

/-- Every read of a produced plan is guarded by a yes earlier on its path, and so no run projects
out of a value of the wrong shape. -/
theorem reads_are_guarded [DecidableEq TH] {patterns : SourcePatternRows TH C}
    {resolver : PatternResolver TH C D} {plan : PatternDispatchPlan TH D}
    (h : patternDispatchFromSourceWithResolver patterns resolver = .ok plan) :
    (∀ K n, Reaches plan.graph.nodes plan.graph.root K n → NodeGuarded plan K n) ∧
      ∀ rt runHelper ops, (∀ K n st, Direct.ExecReaches rt runHelper plan ops K n st →
          RunGuarded rt runHelper plan ops K n st) ∧
        ∀ o st, Exec.run rt runHelper plan ops = (.ok o, st) →
          ∃ K n evidence, Direct.ExecReaches rt runHelper plan ops K n st ∧
            plan.graph.nodes[n]? = some (.outcome o evidence) := by
  have hord := patternDispatch_inOrder h
  have hcov := patternDispatch_covers h
  refine ⟨fun K n hpath => ?_,
    fun rt runHelper ops => ⟨fun K n st hreach => ?_, fun o st hrun => ?_⟩⟩
  · have hat := hpath.covers hcov
    exact
      { reads := fun predicate onMatch onMiss hn => (covers_test_inv hat hn).1.reads
        onMatch := fun predicate onMatch onMiss hn s hs =>
          ⟨(covers_test_inv hat hn).1.projects s hs, (covers_test_inv hat hn).1.grounded_subject hs⟩
        onMiss := fun predicate onMatch onMiss hn => (covers_test_inv hat hn).1.miss
        leaf := fun o evidence hn => (covers_outcome_inv hat hn).projections
        bindings := fun o evidence hn => (covers_outcome_inv hat hn).bindings }
  · obtain ⟨hsound, hfits⟩ := hreach.fits hord hcov
    refine ⟨hreach.reaches, hsound, ?_, ?_⟩
    · intro s hs id source kind hget
      cases hs with
      | input hs =>
        rw [hget] at hs
        cases hs
      | projected hq hest _ =>
        obtain ⟨id', kind', hget', hallows, _⟩ := hest
        rw [hget] at hget'
        cases hget'
        exact hfits _ hq s kind hallows
    · intro predicate onMatch onMiss hn hhit s hs id source kind hget
      obtain ⟨id', kind', hget', hallows, _⟩ :=
        (covers_test_inv (hreach.reaches.covers hcov) hn).1.projects s hs
      rw [hget] at hget'
      cases hget'
      exact hreach.fits_edge hord hcov hn hhit hallows
  · exact Direct.ExecReaches.of_node .start hrun

/-- `{[x | _], 1}`. -/
def headAndOneRows : SourcePatternRows Unit Unit where
  inputCount := 1
  rows := [⟨[.tuple [.list [.var "x"] (some .wildcard), .literal (.int 1)]], [], none, 0⟩]
  prematch := .inputs []

def noDispatches : PatternResolver Unit Unit Empty where
  structType _ := .ok ()
  guardCall _ _ := .ok none
  preparedKeys dispatch := nomatch dispatch

theorem reads_are_guarded_headAndOne :
    ∃ plan, patternDispatchFromSourceWithResolver headAndOneRows noDispatches = .ok plan ∧
      NodeGuarded plan ∅ plan.graph.root := by
  cases h : patternDispatchFromSourceWithResolver headAndOneRows noDispatches with
  | error e =>
    have hok : (patternDispatchFromSourceWithResolver headAndOneRows noDispatches).isOk = true := by
      decide +kernel
    rw [h] at hok
    cases hok
  | ok plan => exact ⟨plan, rfl, (reads_are_guarded h).1 ∅ plan.graph.root .start⟩

/-! ## Arms of no producer -/

/-- An input and its head as a list. -/
def looseSubjects : List Subject := [⟨0, .input 0⟩, ⟨1, .projection ⟨0, .listHead⟩⟩]

/-- An arm that asks for a type and projects the head of a list. -/
def looseArms : List (DispatchArm Unit) :=
  [⟨0, [.projecting ⟨0, .type ()⟩ [1]], .empty, 0⟩]

-- The compiler takes the arm.  Its one test projects the head, and no list test is on the path.
theorem compileOrderedArms_keeps_unguarded_read :
    ∃ compiled, compileOrderedArms looseArms looseSubjects ⟨1, [], []⟩ = .ok compiled ∧
      ∃ K n predicate onMatch onMiss, Reaches compiled.graph.nodes compiled.graph.root K n ∧
        compiled.graph.nodes[n]? = some (.test predicate onMatch onMiss) ∧
        1 ∈ onMatch.evidence.projections ∧ ∀ q ∈ insert (askedQuestion predicate onMatch onMiss) K,
          ¬Establishes compiled.graph.subjects q 1 := by
  cases h : compileOrderedArms looseArms looseSubjects ⟨1, [], []⟩ with
  | error e =>
    have hok : (compileOrderedArms looseArms looseSubjects ⟨1, [], []⟩).isOk = true := by
      decide +kernel
    rw [h] at hok
    cases hok
  | ok compiled =>
    have hroot : ∀ c ∈ (compileOrderedArms looseArms looseSubjects ⟨1, [], []⟩).toOption,
        c.graph.nodes[c.graph.root]? =
          some ((RegionQuestion.projecting ⟨0, .type ()⟩ [1]).intoTestNode 1 0) ∧
        c.graph.subjects = looseSubjects := by
      decide +kernel
    obtain ⟨hn, hsubjects⟩ := hroot compiled (by rw [h]; rfl)
    refine ⟨compiled, rfl, ∅, _, _, _, _, .start, hn, List.mem_cons_self, ?_⟩
    rintro q (rfl | hq) ⟨id, kind, hget, hallows, _⟩
    · rw [hsubjects] at hget
      cases hget
      exact hallows
    · exact hq

end Fz.Dispatch
