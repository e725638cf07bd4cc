import Fz.Dispatch.Guarded

/-!
# The executor refines direct evaluation

A run of the executor follows the path direct evaluation takes, as long as no field it needs is
lost.  `liveLogic` says which questions answered yes still have their fields: a no takes away those
it shares a field with, because the undo of its test clears them.  An arm whose bitstring questions
have no field in common loses nothing, and then the executor ends as direct evaluation does.

Two questions of one arm have a field in common when the arm's row names one place twice, with
bitstring patterns that begin alike.  The last section has a row that does.
-/

namespace Fz.Dispatch

open Fz.Base Fz.Bitstr

variable {TH C D : Type}

/-! ## What is still held -/

/-- Different questions of an arm read different fields. -/
def FieldsApart (qs : List (RegionQuestion TH)) : Prop :=
  ∀ q ∈ qs, ∀ q' ∈ qs, q ≠ q' → ∀ f ∈ Direct.bitFields q, f ∉ Direct.bitFields q'

/-- The questions answered yes on the way whose fields no undo has cleared.  A question that was
answered yes is not answered no later. -/
def liveLogic (subjects : List Subject) (guards : List (PatternGuardExpr D))
    (outcomes : List PatternDispatchOutcome) : PathLogic TH (Set (RegionQuestion TH)) where
  ok := AskOk subjects guards
  leaf := LeafOk subjects outcomes
  yes c q := insert q c
  no c q := {q' | q' ∈ c ∧ (q ∈ c ∨ ∀ f ∈ Direct.bitFields q, f ∉ Direct.bitFields q')}
  ok_mono hc h := h.mono hc
  leaf_mono hc h := h.mono hc
  yes_mono hc := insert_mono hc
  no_mono hc := fun _ h => ⟨hc h.1, h.2.imp (fun hq => hc hq) id⟩
  le_yes := @fun _ _ => le_insert

section Arms

variable {subjects : List Subject} {guards : List (PatternGuardExpr D)}
  {outcomes : List PatternDispatchOutcome} {o : OutcomeId} {evidence : EdgeEvidence TH}

theorem liveArm (done : List (RegionQuestion TH)) {c : Set (RegionQuestion TH)}
    {qs : List (RegionQuestion TH)}
    (h : (groundedLogic subjects guards outcomes).Arm o evidence c qs) (hc : ∀ q ∈ c, q ∈ done)
    (hapart : FieldsApart (done ++ qs)) :
    (liveLogic subjects guards outcomes).Arm o evidence c qs := by
  induction qs generalizing c done with
  | nil => exact h
  | cons q qs ih =>
    refine ⟨h.1, ?_, ih (done ++ [q]) h.2.2 ?_ ?_⟩
    · intro q' hq'
      refine ⟨hq', ?_⟩
      by_cases heq : q = q'
      · exact .inl (heq ▸ hq')
      · exact .inr (hapart q (List.mem_append_right _ List.mem_cons_self) q'
          (List.mem_append_left _ (hc q' hq')) heq)
    · intro q' hq'
      rcases hq' with rfl | hq'
      · exact List.mem_append_right _ List.mem_cons_self
      · exact List.mem_append_left _ (hc q' hq')
    · rw [List.append_assoc, List.singleton_append]
      exact hapart

end Arms

namespace Direct

variable {rt : Runtime TH} {runHelper : RunHelper D} {plan : PatternDispatchPlan TH D}
  {ops : DispatchOperands}

variable (rt runHelper plan ops) in
/-- The questions of `K` are answered yes from the inputs, and their fields are held. -/
def Live (K : Set (RegionQuestion TH)) (st : DispatchExecState) : Prop :=
  ∀ q ∈ K, answer rt runHelper plan ops q = .ok true ∧
    ∀ f ∈ bitFields q, IsField plan f ∧ (st.get f).isSome

section Live

variable {K : Set (RegionQuestion TH)} {st : DispatchExecState} {q : RegionQuestion TH}

theorem Live.not_lost (h : Live rt runHelper plan ops K st) : ¬Lost K st := by
  rintro ⟨q, hq, f, hf, hnone⟩
  have := ((h q hq).2 f hf).2
  rw [hnone] at this
  cases this

theorem isField_of_askOk (hask : AskOk plan.graph.subjects plan.guards K q) {f : SubjectId}
    (hf : f ∈ bitFields q) : IsField plan f := by
  unfold bitFields at hf
  split at hf
  next shape hr =>
    obtain ⟨id, extraction, hget⟩ := PatternDispatchProducer.FieldChain.has (hask.chain shape hr) hf
    simp [IsField, Exec.bitstringExtraction, hget]
  next => cases hf

theorem ask_live (hord : InOrder plan.graph.subjects)
    (hask : AskOk plan.graph.subjects plan.guards K q) (hst : Sound rt plan ops st)
    (hlive : Live rt runHelper plan ops K st) :
    (∃ why, answer rt runHelper plan ops q = .error (.broken why)) ∨
      (Exec.ask rt runHelper plan ops q st).1 = answer rt runHelper plan ops q ∧
      (answer rt runHelper plan ops q = .ok true → Live rt runHelper plan ops
          ((liveLogic plan.graph.subjects plan.guards plan.outcomes).yes K q)
          (Exec.ask rt runHelper plan ops q st).2) ∧ (answer rt runHelper plan ops q = .ok false →
        Live rt runHelper plan ops
          ((liveLogic plan.graph.subjects plan.guards plan.outcomes).no K q)
          (Exec.ask rt runHelper plan ops q st).2) := by
  obtain ⟨_, hagree, hyes, hno⟩ := ask_spec runHelper hord hask hst
  rcases hagree with heq | ⟨why, hbroken, _⟩ | ⟨_, hlost⟩
  · refine .inr ⟨heq, fun ha => ?_, fun ha => ?_⟩
    · obtain ⟨_, hfields, hkeep⟩ := hyes (heq.trans ha)
      rintro q' (rfl | hq')
      · exact ⟨ha, fun f hf => ⟨isField_of_askOk hask hf, hfields f hf⟩⟩
      · obtain ⟨ha', hf'⟩ := hlive q' hq'
        exact ⟨ha', fun f hf => ⟨(hf' f hf).1, hkeep f (hf' f hf).2⟩⟩
    · rintro q' ⟨hq', hapart⟩
      obtain ⟨ha', hf'⟩ := hlive q' hq'
      refine ⟨ha', fun f hf => ⟨(hf' f hf).1, ?_⟩⟩
      rcases hapart with hq | hapart
      · -- A question answered yes from the inputs is not answered no.
        rw [(hlive q hq).1] at ha
        cases ha
      · rw [hno (heq.trans ha) f (hf' f hf).1 fun hfq => hapart f hfq hf]
        exact (hf' f hf).2
  · exact .inl ⟨why, hbroken⟩
  · exact absurd hlost hlive.not_lost

end Live

/-- What a run ends in, when direct evaluation ends in `p`: the same, with everything the leaf
needs still held. -/
def Follows (rt : Runtime TH) (plan : PatternDispatchPlan TH D) (ops : DispatchOperands)
    (p r : Except DispatchStop OutcomeId) (st : DispatchExecState) : Prop :=
  (∃ why, p = .error (.broken why)) ∨ r = p ∧ ∀ o, r = .ok o →
    Sound rt plan ops st ∧ ∃ (K : Set (RegionQuestion TH)) (evidence : EdgeEvidence TH),
      LeafOk plan.graph.subjects plan.outcomes K o evidence ∧ ¬Lost K st

/-- The executor walks the path direct evaluation takes. -/
theorem node_follows (hord : InOrder plan.graph.subjects) {K : Set (RegionQuestion TH)}
    {n : GraphNodeId}
    (hcov : (liveLogic plan.graph.subjects plan.guards plan.outcomes).Covers plan.graph.nodes K n) :
    ∀ {fuel st}, n < fuel → Sound rt plan ops st → Live rt runHelper plan ops K st →
      Follows rt plan ops (node rt runHelper plan ops fuel n)
        (Exec.node rt runHelper plan ops fuel n st).1
        (Exec.node rt runHelper plan ops fuel n st).2 := by
  induction hcov with
  | @fail K n hn =>
    intro fuel st hlt hst hlive
    obtain ⟨fuel, rfl⟩ := Nat.exists_eq_succ_of_ne_zero (Nat.ne_zero_of_lt hlt)
    rw [Exec.node, node, hn]
    exact .inr ⟨rfl, fun o ho => by cases ho⟩
  | @outcome K n o evidence hn hleaf =>
    intro fuel st hlt hst hlive
    obtain ⟨fuel, rfl⟩ := Nat.exists_eq_succ_of_ne_zero (Nat.ne_zero_of_lt hlt)
    rw [Exec.node, node, hn]
    refine .inr ⟨rfl, fun o' ho => ?_⟩
    cases ho
    exact ⟨hst, K, evidence, hleaf, hlive.not_lost⟩
  | @test K n predicate onMatch onMiss hn hm hx hask _ _ ihMatch ihMiss =>
    intro fuel st hlt hst hlive
    obtain ⟨fuel, rfl⟩ := Nat.exists_eq_succ_of_ne_zero (Nat.ne_zero_of_lt hlt)
    have hle := Nat.le_of_lt_succ hlt
    have hsound := (ask_spec runHelper hord hask hst).1
    rw [Exec.node, node, hn]
    simp only [ExecM.run_bind]
    rcases ask_live hord hask hst hlive with ⟨why, hbroken⟩ | ⟨heq, hyes, hno⟩
    · exact .inl ⟨why, by rw [hbroken]; rfl⟩
    · rcases hrun : Exec.ask rt runHelper plan ops (askedQuestion predicate onMatch onMiss) st with
        ⟨r, st'⟩
      rw [hrun] at heq hyes hno hsound
      rw [← show r = _ from heq]
      cases r with
      | error stop => exact .inr ⟨rfl, fun o ho => by cases ho⟩
      | ok hit =>
        cases hit with
        | true => exact ihMatch (Nat.lt_of_lt_of_le hm hle) hsound (hyes heq.symm)
        | false => exact ihMiss (Nat.lt_of_lt_of_le hx hle) hsound (hno heq.symm)

theorem readBindings_computes (hord : InOrder plan.graph.subjects) {K : Set (RegionQuestion TH)}
    {bindings : List PatternDispatchBinding}
    (hground : ∀ b ∈ bindings, Grounded plan.graph.subjects K b.source) :
    Computes rt plan ops K ∅ (Exec.readBindings rt plan ops bindings)
      (readBindings rt plan ops bindings) := by
  induction bindings with
  | nil => exact .pure []
  | cons b bindings ih =>
    rw [Exec.readBindings, readBindings]
    refine (subjectWord_computes hord (hground b List.mem_cons_self)).bind fun v => ?_
    refine (ih fun b' hb' => hground b' (List.mem_cons_of_mem b hb')).bind fun rest => ?_
    exact .pure _

end Direct

/-! ## Produced plans -/

section Plans

variable [DecidableEq TH]

theorem patternDispatch_live {patterns : SourcePatternRows TH C} {resolver : PatternResolver TH C D}
    {plan : PatternDispatchPlan TH D}
    (h : patternDispatchFromSourceWithResolver patterns resolver = .ok plan)
    (hapart : ∀ p, PatternDispatchProducer.ofRows patterns resolver = .ok p →
      ∀ arm ∈ p.builder.arms, FieldsApart arm.questions) :
    (liveLogic plan.graph.subjects plan.guards plan.outcomes).Covers plan.graph.nodes ∅
      plan.graph.root := by
  obtain ⟨p, hp, hrows, compiled, hcompiled, hgraph, _, houtcomes, hguards, _⟩ :=
    patternDispatch_inv h
  rw [hgraph, houtcomes, hguards, compileOrderedArms_subjects hcompiled]
  refine compileOrderedArms_covers hcompiled fun arm ha => ?_
  exact liveArm [] (hrows.arms arm ha) (fun _ hq => nomatch hq) (hapart p hp arm ha)

end Plans

/-! ## A field two tests share -/

instance (qs : List (RegionQuestion Unit)) : Decidable (FieldsApart qs) :=
  inferInstanceAs (Decidable (∀ q ∈ qs, ∀ q' ∈ qs, q ≠ q' →
    ∀ f ∈ Direct.bitFields q, f ∉ Direct.bitFields q'))

/-- The body a run ended in, and the integers it bound. -/
def RunResult.ints? : RunResult → Option (Nat × List (String × Option Int64))
  | .body bodyId bindings => some (bodyId, bindings.map fun (name, value) => (name, value.asI64))
  | _ => none

def integerField (size : Nat) : BitFieldSpec := ⟨.integer, some (.literal size), .big, false, none⟩

/-- `<<a::8, b::8>>`. -/
def twoBytes : Pattern :=
  .bitstring [(integerField 8, .var "a"), (integerField 8, .var "b")]

/-- `<<c::8, d::16>>`, which begins as `<<a::8, b::8>>` does. -/
def byteAndWord : Pattern :=
  .bitstring [(integerField 8, .var "c"), (integerField 16, .var "d")]

/-- `%{1 => <<a::8, b::8>>}`. -/
def twoBytesRow (bodyId : Nat) : PatternRow Unit Unit :=
  ⟨[.map [(.literal (.int 1), twoBytes)]], [], none, bodyId⟩

/-- `%{1 => <<a::8, b::8>>, 1 => <<c::8, d::16>>}`, and then `%{1 => <<a::8, b::8>>}`. -/
def sharedFieldRows : SourcePatternRows Unit Unit where
  inputCount := 1
  rows := [⟨[.map [(.literal (.int 1), twoBytes), (.literal (.int 1), byteAndWord)]], [], none, 0⟩,
    twoBytesRow 1]
  prematch := .inputs []

def oneFieldRows : SourcePatternRows Unit Unit where
  inputCount := 1
  rows := [twoBytesRow 0]
  prematch := .inputs []

/-- A runtime that compares integers, for keys that are integers. -/
def integerRuntime : Runtime Unit where
  overflowChecks := true
  floatOp _ x _ := x
  valueEqWidening _ _ := .error .error
  valueCmp _ _ := .error .error
  hostIsLittleEndian := true
  atomNames := ["nil", "true", "false"]
  valueEq a b := match a, b with | .int m, .int n => m = n | _, _ => false
  typeMatches _ _ := .ok true
  typeMatches_word _ h := h

def noHelper : RunHelper Empty := fun dispatch _ _ => nomatch dispatch

/-- `%{1 => <<5, 6>>}`. -/
def twoBytesInput : DispatchOperands where
  inputs := [some (.runtime (.map [(.int 1, .bits (allocBitstring [5, 6] 16))]))]
  pinned := []
  prepared := []

end Fz.Dispatch
