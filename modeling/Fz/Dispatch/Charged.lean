import Fz.Dispatch.Agreement
import Fz.Dispatch.ProducerSound

/-!
# What a plan charges its inputs

A demand on a subject climbs to the input the subject descends from.  `Demanded` says that it
arrives there below what the input was charged.  Every node of a compiled graph was charged when it
was added, and charges only rise, so in the finished graph every test's questions are demanded:
`NodeCharged` says it node by node.
-/

namespace Fz.Dispatch

open Fz.Base

variable {TH C D : Type}

/-! ## Demanded subjects -/

/-- An input was charged at least a demand. -/
def Meets (inputDemand : List DispatchDemand) (ordinal : Nat) (d : DispatchDemand) : Prop :=
  ∃ slot, inputDemand[ordinal]? = some slot ∧ d.Below slot

/-- What a demand on a subject asks of its input, the input was charged. -/
def Demanded (subjects : List Subject) (inputDemand : List DispatchDemand) (s : SubjectId)
    (d : DispatchDemand) : Prop :=
  ∃ ordinal e, subjectDemand subjects (subjects.length + 1) s d = .ok (ordinal, e) ∧
    Meets inputDemand ordinal e

section Demanded

variable {subjects : List Subject} {inputDemand : List DispatchDemand} {s : SubjectId}
  {d e : DispatchDemand}

theorem Meets.mono {ordinal : Nat} (h : Meets inputDemand ordinal e) (hd : d.Below e) :
    Meets inputDemand ordinal d := by
  obtain ⟨slot, hslot, hbelow⟩ := h
  exact ⟨slot, hslot, hd.trans hbelow⟩

theorem subjectDemand_fuel (hord : InOrder subjects) (fuel : Nat) :
    ∀ {s d fuel'}, s < fuel → s < fuel' →
      subjectDemand subjects fuel s d = subjectDemand subjects fuel' s d := by
  induction fuel with
  | zero => exact fun h => nomatch h
  | succ fuel ih =>
    intro s d fuel' hlt hlt'
    cases fuel' with
    | zero => exact nomatch hlt'
    | succ fuel' =>
      rw [subjectDemand, subjectDemand]
      split
      · rfl
      · rfl
      next id source kind hs =>
        have hsource := (hord s id source kind hs).1
        exact ih (Nat.lt_of_lt_of_le hsource (Nat.le_of_lt_succ hlt))
          (Nat.lt_of_lt_of_le hsource (Nat.le_of_lt_succ hlt'))

theorem subjectDemand_mono (fuel : Nat) {ordinal : Nat} {e' : DispatchDemand}
    (h : subjectDemand subjects fuel s e = .ok (ordinal, e')) (hd : d.Below e) :
    ∃ d', subjectDemand subjects fuel s d = .ok (ordinal, d') ∧ d'.Below e' := by
  induction fuel generalizing s d e with
  | zero => cases h
  | succ fuel ih =>
    rw [subjectDemand] at h ⊢
    split at h
    · cases h
    next hs =>
      cases h
      exact ⟨d, rfl, hd⟩
    next source kind hs => exact ih h (hd.atStep _)

theorem Demanded.mono (h : Demanded subjects inputDemand s e) (hd : d.Below e) :
    Demanded subjects inputDemand s d := by
  obtain ⟨ordinal, e', he, hmeets⟩ := h
  obtain ⟨d', hd', hbelow⟩ := subjectDemand_mono _ he hd
  exact ⟨ordinal, d', hd', hmeets.mono hbelow⟩

theorem demanded_input {id ordinal : Nat} (hs : subjects[s]? = some ⟨id, .input ordinal⟩) :
    Demanded subjects inputDemand s d ↔ Meets inputDemand ordinal d := by
  unfold Demanded
  rw [subjectDemand, hs]
  constructor
  · rintro ⟨_, _, h, hmeets⟩
    cases h
    exact hmeets
  · exact fun h => ⟨ordinal, d, rfl, h⟩

theorem demanded_projection (hord : InOrder subjects) {id source : Nat} {kind : ProjectionKind}
    (hs : subjects[s]? = some ⟨id, .projection ⟨source, kind⟩⟩) :
    Demanded subjects inputDemand s d ↔
      Demanded subjects inputDemand source (demandAtStep (.ofKind kind) d) := by
  have hlt : s < subjects.length := (List.getElem?_eq_some_iff.mp hs).1
  have hsource := (hord s id source kind hs).1
  have hclimb : subjectDemand subjects (subjects.length + 1) s d =
      subjectDemand subjects (subjects.length + 1) source (demandAtStep (.ofKind kind) d) := by
    rw [subjectDemand, hs]
    exact subjectDemand_fuel hord subjects.length (Nat.lt_trans hsource hlt)
      (Nat.lt_succ_of_lt (Nat.lt_trans hsource hlt))
  rw [Demanded, Demanded, hclimb]

end Demanded

/-! ## Charges -/

namespace DispatchGraphBuilder

variable {b b' b'' : DispatchGraphBuilder TH}

/-- The charges have risen, and nothing else has moved. -/
structure Raised (b b' : DispatchGraphBuilder TH) : Prop extends b.OnlyDemand b' where
  demand : ∀ {ordinal d}, Meets b.inputDemand ordinal d → Meets b'.inputDemand ordinal d

theorem Raised.refl (b : DispatchGraphBuilder TH) : b.Raised b := ⟨.refl b, id⟩

theorem Raised.trans (h : b.Raised b') (h' : b'.Raised b'') : b.Raised b'' :=
  ⟨h.toOnlyDemand.trans h'.toOnlyDemand, fun hd => h'.demand (h.demand hd)⟩

theorem Raised.demanded {s : SubjectId} {d : DispatchDemand} (h : b.Raised b')
    (hs : Demanded b.subjects b.inputDemand s d) : Demanded b'.subjects b'.inputDemand s d := by
  obtain ⟨ordinal, e, he, hmeets⟩ := hs
  exact ⟨ordinal, e, h.subjects ▸ he, h.demand hmeets⟩

theorem chargeInput_spec {ordinal : Nat} {demand : DispatchDemand}
    (h : b.chargeInput ordinal demand = .ok b') :
    b.Raised b' ∧ Meets b'.inputDemand ordinal demand := by
  have honly := chargeInput_onlyDemand h
  unfold chargeInput at h
  split at h
  · cases h
  next slot hslot =>
    cases h
    have hlt := (List.getElem?_eq_some_iff.mp hslot).1
    refine ⟨⟨honly, ?_⟩, slot.join demand, ?_, DispatchDemand.below_join_right slot demand⟩
    · rintro o d ⟨slot', hslot', hd⟩
      by_cases heq : ordinal = o
      · subst heq
        cases hslot.symm.trans hslot'
        exact ⟨_, List.getElem?_set_self hlt, hd.trans (DispatchDemand.below_join_left slot demand)⟩
      · exact ⟨slot', (List.getElem?_set_ne heq).trans hslot', hd⟩
    · exact List.getElem?_set_self hlt

theorem chargeSubject_spec {s : SubjectId} {demand : DispatchDemand}
    (h : b.chargeSubject s demand = .ok b') :
    b.Raised b' ∧ Demanded b'.subjects b'.inputDemand s demand := by
  obtain ⟨⟨ordinal, e⟩, he, h⟩ := Except.bind_eq_ok.mp h
  obtain ⟨hraised, hmeets⟩ := chargeInput_spec h
  exact ⟨hraised, ordinal, e, hraised.subjects ▸ he, hmeets⟩

/-- A pin an input delivers has that input charged whole. -/
def PinCharged (b : DispatchGraphBuilder TH) (pin : PinnedValueId) : Prop :=
  ∀ ordinal, b.inputs.pinned[pin]? = some (some ordinal) → Meets b.inputDemand ordinal .whole

theorem Raised.pinCharged {pin : PinnedValueId} (h : b.Raised b') (hp : b.PinCharged pin) :
    b'.PinCharged pin := fun ordinal hpin => h.demand (hp ordinal (h.inputs ▸ hpin))

theorem chargePin_spec {pin : PinnedValueId} (h : b.chargePin pin = .ok b') :
    b.Raised b' ∧ b'.PinCharged pin := by
  unfold chargePin at h
  split at h
  next ordinal hpin =>
    obtain ⟨hraised, hmeets⟩ := chargeInput_spec h
    refine ⟨hraised, fun o ho => ?_⟩
    rw [hraised.inputs, hpin] at ho
    cases ho
    exact hmeets
  next hpin =>
    cases h
    exact ⟨.refl b, fun o ho => (hpin o ho).elim⟩

/-- What a guard reads was charged. -/
def LeafCharged (b : DispatchGraphBuilder TH) : GuardLeaf → Prop
  | .subject s => Demanded b.subjects b.inputDemand s .whole
  | .pinned pin => b.PinCharged pin

theorem Raised.leafCharged {leaf : GuardLeaf} (h : b.Raised b') (hl : b.LeafCharged leaf) :
    b'.LeafCharged leaf := by
  cases leaf with
  | subject s => exact h.demanded hl
  | pinned pin => exact h.pinCharged hl

/-- The pins a question about a value compares with or measures by. -/
def regionPins (subjects : List Subject) : Region TH → List PinnedValueId
  | .equal (.pinned pin) => [pin]
  | .bitstring shape => shape.fields.filterMap (fieldPin subjects)
  | _ => []

/-- What a test asks was charged.  A guard rides a subject it need not read. -/
structure TestCharged (b : DispatchGraphBuilder TH) (predicate : RegionPredicate TH) : Prop where
  leaves : ∀ guard leaves, predicate.region = .guard guard →
    b.inputs.guardLeaves[guard]? = some leaves → ∀ leaf ∈ leaves, b.LeafCharged leaf
  subject : (∀ guard, predicate.region ≠ .guard guard) →
    Demanded b.subjects b.inputDemand predicate.subject (demandForRegion predicate.region)
  pins : ∀ pin ∈ regionPins b.subjects predicate.region, b.PinCharged pin

theorem charges_each {α : Type} {Q : DispatchGraphBuilder TH → α → Prop}
    {charge : DispatchGraphBuilder TH → α → Except CompileError (DispatchGraphBuilder TH)}
    (hkeep : ∀ {c c' : DispatchGraphBuilder TH} {a : α}, c.Raised c' → Q c a → Q c' a)
    (hstep : ∀ {c c' : DispatchGraphBuilder TH} {a : α}, charge c a = .ok c' → c.Raised c' ∧ Q c' a)
    {list : List α} {b b' : DispatchGraphBuilder TH} (h : list.foldlM charge b = .ok b') :
    b.Raised b' ∧ ∀ a ∈ list, Q b' a := by
  induction list generalizing b with
  | nil =>
    cases h
    exact ⟨.refl _, fun _ ha => nomatch ha⟩
  | cons a list ih =>
    rw [List.foldlM_cons] at h
    obtain ⟨c, hc, h⟩ := Except.bind_eq_ok.mp h
    obtain ⟨hraised, ha⟩ := hstep hc
    obtain ⟨hrest, hall⟩ := ih h
    exact ⟨hraised.trans hrest, List.forall_mem_cons.mpr ⟨hkeep hrest ha, hall⟩⟩

theorem chargeGuard_spec {guard : GuardId} (h : b.chargeGuard guard = .ok b') :
    b.Raised b' ∧ ∀ leaves, b.inputs.guardLeaves[guard]? = some leaves →
      ∀ leaf ∈ leaves, b'.LeafCharged leaf := by
  unfold chargeGuard at h
  split at h
  next hnone =>
    cases h
    exact ⟨.refl b, fun leaves hl => nomatch hnone.symm.trans hl⟩
  next leaves hleaves =>
    obtain ⟨hraised, hall⟩ := charges_each (Q := LeafCharged) (fun h hq => h.leafCharged hq)
      (fun {c c' leaf} hc => by
        cases leaf with
        | subject s => exact chargeSubject_spec hc
        | pinned pin => exact chargePin_spec hc) h
    refine ⟨hraised, fun leaves' hl => ?_⟩
    cases hleaves.symm.trans hl
    exact hall

theorem chargeBitstringSizes_spec {shape : BitstringShape}
    (h : b.chargeBitstringSizes shape = .ok b') :
    b.Raised b' ∧ ∀ pin ∈ shape.fields.filterMap (fieldPin b'.subjects), b'.PinCharged pin := by
  obtain ⟨hraised, hall⟩ := charges_each
    (Q := fun c field => ∀ pin, fieldPin c.subjects field = some pin → c.PinCharged pin)
    (fun h hq pin hpin => h.pinCharged (hq pin (h.subjects ▸ hpin)))
    (fun {c c' field} hc => by
      split at hc
      next pin hpin =>
        obtain ⟨hraised, hcharged⟩ := chargePin_spec hc
        refine ⟨hraised, fun pin' hpin' => ?_⟩
        rw [hraised.subjects, hpin] at hpin'
        cases hpin'
        exact hcharged
      next hnone =>
        cases hc
        exact ⟨.refl c, fun pin hpin => by cases hnone.symm.trans hpin⟩) h
  refine ⟨hraised, fun pin hpin => ?_⟩
  obtain ⟨field, hfield, hpin⟩ := List.mem_filterMap.mp hpin
  exact hall field hfield pin hpin

theorem Raised.testCharged {predicate : RegionPredicate TH} (h : b.Raised b')
    (hn : b.TestCharged predicate) : b'.TestCharged predicate where
  leaves guard leaves hr hl leaf hmem :=
    h.leafCharged (hn.leaves guard leaves hr (h.inputs ▸ hl) leaf hmem)
  subject hr := h.demanded (hn.subject hr)
  pins pin hpin := h.pinCharged (hn.pins pin (h.subjects ▸ hpin))

theorem chargeGuardTest_spec {s : SubjectId} {guard : GuardId} {onMatch onMiss : DispatchEdge TH}
    (h : b.chargeNode (.test ⟨s, .guard guard⟩ onMatch onMiss) = .ok b') :
    b.Raised b' ∧ b'.TestCharged ⟨s, .guard guard⟩ := by
  obtain ⟨hraised, hall⟩ := chargeGuard_spec h
  refine ⟨hraised, ⟨fun g leaves hr hl => ?_, fun hr => (hr guard rfl).elim,
    fun pin hpin => nomatch hpin⟩⟩
  cases hr
  exact hall leaves (hraised.inputs ▸ hl)

theorem chargeNode_test_spec {predicate : RegionPredicate TH} {onMatch onMiss : DispatchEdge TH}
    (h : b.chargeNode (.test predicate onMatch onMiss) = .ok b') :
    b.Raised b' ∧ b'.TestCharged predicate := by
  obtain ⟨s, region⟩ := predicate
  by_cases hguard : ∃ guard, region = .guard guard
  · obtain ⟨guard, rfl⟩ := hguard
    exact chargeGuardTest_spec h
  -- Every other question charges its subject, and then the pins it reads.
  have hnot : ∀ guard, region ≠ .guard guard := fun guard heq => hguard ⟨guard, heq⟩
  rw [chargeNode] at h
  · obtain ⟨c, hc, h⟩ := Except.bind_eq_ok.mp h
    obtain ⟨hraised, hdemanded⟩ := chargeSubject_spec hc
    have hpins : c.Raised b' ∧ ∀ pin ∈ regionPins b'.subjects region, b'.PinCharged pin := by
      split at h
      next pin =>
        obtain ⟨hraised', hpin⟩ := chargePin_spec h
        exact ⟨hraised', fun pin' hmem => List.mem_singleton.mp hmem ▸ hpin⟩
      next shape => exact chargeBitstringSizes_spec h
      next hequal hbits =>
        cases h
        refine ⟨.refl _, fun pin hpin => ?_⟩
        unfold regionPins at hpin
        split at hpin
        · exact (hequal _ rfl).elim
        · exact (hbits _ rfl).elim
        · cases hpin
    exact ⟨hraised.trans hpins.1, ⟨fun guard _ hr => (hnot guard hr).elim,
      fun _ => hpins.1.demanded hdemanded, hpins.2⟩⟩
  · exact hnot

theorem chargeNode_raised {node : DispatchNode TH} (h : b.chargeNode node = .ok b') :
    b.Raised b' := by
  cases node with
  | fail =>
    cases h
    exact .refl b
  | outcome o evidence =>
    cases h
    exact .refl b
  | test predicate onMatch onMiss => exact (chargeNode_test_spec h).1

/-- Every test of the graph so far was charged. -/
def TestsCharged (b : DispatchGraphBuilder TH) : Prop :=
  ∀ predicate onMatch onMiss, .test predicate onMatch onMiss ∈ b.nodes → b.TestCharged predicate

theorem addNode_testsCharged {node : DispatchNode TH} {n : GraphNodeId} (hb : b.TestsCharged)
    (h : b.addNode node = .ok (n, b')) : b'.TestsCharged := by
  obtain ⟨c, hc, h⟩ := Except.bind_eq_ok.mp h
  cases h
  intro predicate onMatch onMiss hmem
  have hcharged : c.TestCharged predicate := by
    rcases List.mem_append.mp hmem with hold | hnew
    · have hraised := chargeNode_raised hc
      exact hraised.testCharged (hb predicate onMatch onMiss (hraised.nodes ▸ hold))
    · cases List.mem_singleton.mp hnew
      exact (chargeNode_test_spec hc).2
  exact ⟨hcharged.leaves, hcharged.subject, hcharged.pins⟩

end DispatchGraphBuilder

/-! ## Produced plans -/

namespace PatternDispatchPlan

variable (plan : PatternDispatchPlan TH D)

def Demands (s : SubjectId) (d : DispatchDemand) : Prop :=
  Demanded plan.graph.subjects plan.graph.inputDemand s d

def PinCharged (id : PinnedValueId) : Prop :=
  ∀ pin ordinal, plan.pinned[id]? = some pin → pin.input = some ordinal →
    Meets plan.graph.inputDemand ordinal .whole

def LeafCharged : GuardLeaf → Prop
  | .subject s => plan.Demands s .whole
  | .pinned pin => plan.PinCharged pin

/-- What a test of the plan asks was charged. -/
structure Charges (predicate : RegionPredicate TH) : Prop where
  leaves : ∀ guard expr, predicate.region = .guard guard → plan.guards[guard]? = some expr →
    ∀ leaf ∈ expr.leaves, plan.LeafCharged leaf
  subject : (∀ guard, predicate.region ≠ .guard guard) →
    plan.Demands predicate.subject (demandForRegion predicate.region)
  pins : ∀ pin ∈ DispatchGraphBuilder.regionPins plan.graph.subjects predicate.region,
    plan.PinCharged pin

end PatternDispatchPlan

/-- Every test of a produced plan was charged. -/
theorem patternDispatch_charges [DecidableEq TH] {patterns : SourcePatternRows TH C}
    {resolver : PatternResolver TH C D} {plan : PatternDispatchPlan TH D}
    (h : patternDispatchFromSourceWithResolver patterns resolver = .ok plan)
    {predicate : RegionPredicate TH} {onMatch onMiss : DispatchEdge TH}
    (hmem : .test predicate onMatch onMiss ∈ plan.graph.nodes) : plan.Charges predicate := by
  obtain ⟨p, _, _, compiled, hcompiled, hgraph, _, _, hguards, hpinned⟩ := patternDispatch_inv h
  obtain ⟨b, ⟨hinputs, hcharged⟩, hsubjects, hnodes, hdemand⟩ := compileOrderedArms_keeps
    (P := fun b => b.inputs = ⟨p.inputCount, p.pinned.map PatternPinnedInput.input,
      p.guards.map PatternGuardExpr.leaves⟩ ∧ b.TestsCharged)
    (fun hb hadd => ⟨by
        obtain ⟨c, hc, hadd'⟩ := Except.bind_eq_ok.mp hadd
        cases hadd'
        exact (DispatchGraphBuilder.chargeNode_onlyDemand hc).inputs.trans hb.1,
      DispatchGraphBuilder.addNode_testsCharged hb.2 hadd⟩)
    hcompiled ⟨rfl, fun _ _ _ hmem => nomatch hmem⟩
  have htest := hcharged predicate onMatch onMiss (hnodes ▸ hgraph ▸ hmem)
  have hpin : ∀ pin, b.PinCharged pin → plan.PinCharged pin := by
    intro pin hb info ordinal hinfo hinput
    rw [hgraph, hdemand]
    refine hb ordinal ?_
    rw [hinputs, List.getElem?_map, ← hpinned, hinfo]
    exact congrArg some hinput
  refine ⟨fun guard expr hr hexpr leaf hleaf => ?_, fun hr => ?_, fun pin hmem => ?_⟩
  · have hcharge := htest.leaves guard expr.leaves hr
      (by rw [hinputs, List.getElem?_map, ← hguards, hexpr]; rfl) leaf hleaf
    cases leaf with
    | subject s =>
      show Demanded _ _ _ _
      rw [hgraph, hsubjects, hdemand]
      exact hcharge
    | pinned pin => exact hpin pin hcharge
  · show Demanded _ _ _ _
    rw [hgraph, hsubjects, hdemand]
    exact htest.subject hr
  · rw [hgraph, hsubjects] at hmem
    exact hpin pin (htest.pins pin hmem)

end Fz.Dispatch
