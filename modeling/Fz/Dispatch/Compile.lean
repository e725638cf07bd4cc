import Fz.Dispatch.Demand
import Mathlib.Algebra.GroupWithZero.Nat

/-!
# Compiling ordered arms to a dispatch graph

`compileOrderedArms` lowers source-ordered arms to a graph.  Consecutive arms that
share their first question ask it once: the shared arms are compiled without it under
the match edge, with the arms after them as the fallback of both edges.  Every node is
added after the nodes it points to.

Adding a node also charges what its question asks of the declared inputs.  The charge
asserts that every question names a subject of the matrix and every subject a declared
input, and `build` asserts that every projection rides a charged input.  A failed
assertion is a panic of the source and an error here.
-/

namespace Fz.Dispatch

variable {TH : Type}

/-- One value a guard reads. -/
inductive GuardLeaf where
  | subject (subject : SubjectId)
  | pinned (pin : PinnedValueId)
deriving DecidableEq, Repr

/-- What a question's demand is resolved against besides the matrix. -/
structure PlanInputs where
  /-- The declared input count. -/
  count : Nat
  /-- The input each pinned value arrives on, when the rows' prematch bound it. -/
  pinned : List (Option Nat)
  /-- What each guard reads. -/
  guardLeaves : List (List GuardLeaf)
deriving DecidableEq, Repr

/-- Why no graph came back.  The first is the error value of the source; the others
are its panics, and `cyclicSubject` is its endless climb. -/
inductive CompileError where
  | unknownNode (node : GraphNodeId)
  | missingSubject (subject : SubjectId)
  | cyclicSubject (subject : SubjectId)
  | undeclaredInput (ordinal count : Nat)
  | unchargedProjection (ordinal : Nat)
deriving DecidableEq, Repr

structure DispatchCompileStats where
  arms : Nat := 0
  testNodes : Nat := 0
  outcomeNodes : Nat := 0
  failNodes : Nat := 0
  sharedPrefixTests : Nat := 0
deriving DecidableEq, Repr

structure DispatchGraph (TH : Type) where
  subjects : List Subject
  nodes : List (DispatchNode TH)
  root : GraphNodeId
  inputDemand : List DispatchDemand

structure CompiledDispatchGraph (TH : Type) where
  graph : DispatchGraph TH
  stats : DispatchCompileStats

structure DispatchGraphBuilder (TH : Type) where
  subjects : List Subject
  nodes : List (DispatchNode TH)
  inputs : PlanInputs
  inputDemand : List DispatchDemand

/-! ## Charging the inputs -/

/-- The input a subject descends from, and what a demand on the subject asks of that
input.  The climb visits each subject at most once unless it is cyclic, so `fuel`
above the table's length runs out only on a cycle. -/
@[grind =] def subjectDemand (subjects : List Subject) :
    Nat → SubjectId → DispatchDemand → Except CompileError (Nat × DispatchDemand)
  | 0, subject, _ => .error (.cyclicSubject subject)
  | fuel + 1, subject, demand =>
    match subjects[subject]? with
    | none => .error (.missingSubject subject)
    | some ⟨_, .input ordinal⟩ => .ok (ordinal, demand)
    | some ⟨_, .projection ⟨source, kind⟩⟩ =>
      subjectDemand subjects fuel source (demandAtStep (.ofKind kind) demand)

/-- The input a subject descends from, for a caller that asks nothing of it. -/
def subjectRoot (subjects : List Subject) (subject : SubjectId) : Except CompileError Nat :=
  (·.1) <$> subjectDemand subjects (subjects.length + 1) subject .ignore

namespace DispatchGraphBuilder

def typed (subjects : List Subject) (inputs : PlanInputs) : DispatchGraphBuilder TH :=
  { subjects, nodes := [], inputs, inputDemand := List.replicate inputs.count .ignore }

def chargeInput (b : DispatchGraphBuilder TH) (ordinal : Nat) (demand : DispatchDemand) :
    Except CompileError (DispatchGraphBuilder TH) :=
  match b.inputDemand[ordinal]? with
  | none => .error (.undeclaredInput ordinal b.inputs.count)
  | some slot => .ok { b with inputDemand := b.inputDemand.set ordinal (slot.join demand) }

def chargeSubject (b : DispatchGraphBuilder TH) (subject : SubjectId) (demand : DispatchDemand) :
    Except CompileError (DispatchGraphBuilder TH) := do
  let (ordinal, demand) ← subjectDemand b.subjects (b.subjects.length + 1) subject demand
  b.chargeInput ordinal demand

/-- A pin the rows' prematch bound reads the input that delivers it. -/
def chargePin (b : DispatchGraphBuilder TH) (pin : PinnedValueId) :
    Except CompileError (DispatchGraphBuilder TH) :=
  match b.inputs.pinned[pin]? with
  | some (some input) => b.chargeInput input .whole
  | _ => .ok b

def chargeGuard (b : DispatchGraphBuilder TH) (guard : GuardId) :
    Except CompileError (DispatchGraphBuilder TH) :=
  match b.inputs.guardLeaves[guard]? with
  | none => .ok b
  | some leaves => leaves.foldlM (fun b leaf =>
    match leaf with
    | .subject subject => b.chargeSubject subject .whole
    | .pinned pin => b.chargePin pin) b

/-- The pin that sizes a bitstring field, when one does. -/
def fieldPin (subjects : List Subject) (field : SubjectId) : Option PinnedValueId :=
  match subjects[field]? with
  | some ⟨_, .projection ⟨_, .bitstringField ⟨_, ⟨_, some (.pinned pin), _, _, _⟩, _⟩⟩⟩ => some pin
  | _ => none

def chargeBitstringSizes (b : DispatchGraphBuilder TH) (shape : BitstringShape) :
    Except CompileError (DispatchGraphBuilder TH) :=
  shape.fields.foldlM (fun b field =>
    match fieldPin b.subjects field with
    | some pin => b.chargePin pin
    | none => .ok b) b

/-- Charges what one node asks of the declared inputs.  Only a test asks anything.  A
guard rides a carrier subject it need not read, so its leaves are charged instead. -/
def chargeNode (b : DispatchGraphBuilder TH) : DispatchNode TH →
    Except CompileError (DispatchGraphBuilder TH)
  | .test ⟨_, .guard guard⟩ _ _ => b.chargeGuard guard
  | .test ⟨subject, region⟩ _ _ => do
      let b ← b.chargeSubject subject (demandForRegion region)
      match region with
      | .equal (.pinned pin) => b.chargePin pin
      | .bitstring shape => b.chargeBitstringSizes shape
      | _ => .ok b
  | _ => .ok b

def addNode (b : DispatchGraphBuilder TH) (node : DispatchNode TH) :
    Except CompileError (GraphNodeId × DispatchGraphBuilder TH) := do
  let b ← b.chargeNode node
  .ok (b.nodes.length, { b with nodes := b.nodes ++ [node] })

def ensureNode (b : DispatchGraphBuilder TH) (node : GraphNodeId) : Except CompileError Unit :=
  if node < b.nodes.length then .ok () else .error (.unknownNode node)

/-- The projections the evidence of a node's edges, or of its leaf, makes safe. -/
def nodeProjections : DispatchNode TH → List SubjectId
  | .fail => []
  | .outcome _ evidence => evidence.projections
  | .test _ onMatch onMiss => onMatch.evidence.projections ++ onMiss.evidence.projections

/-- Every projection sits under a test that charged its root input. -/
def ensureProjectionsRideAChargedInput (b : DispatchGraphBuilder TH) : Except CompileError Unit :=
  b.nodes.forM fun node => (nodeProjections node).forM fun projection => do
    let ordinal ← subjectRoot b.subjects projection
    match b.inputDemand[ordinal]? with
    | some demand => if demand.asksAnything then .ok () else .error (.unchargedProjection ordinal)
    | none => .error (.unchargedProjection ordinal)

def build (b : DispatchGraphBuilder TH) (root : GraphNodeId) :
    Except CompileError (DispatchGraph TH) := do
  b.ensureNode root
  b.nodes.forM fun node =>
    match node with
    | .test _ onMatch onMiss => do
        b.ensureNode onMatch.target
        b.ensureNode onMiss.target
    | _ => .ok ()
  b.ensureProjectionsRideAChargedInput
  .ok { subjects := b.subjects, nodes := b.nodes, root, inputDemand := b.inputDemand }

end DispatchGraphBuilder

/-! ## Compiling the arms -/

/-- The builder and the counters a compilation threads through. -/
structure CompileState (TH : Type) where
  builder : DispatchGraphBuilder TH
  stats : DispatchCompileStats

abbrev CompileM (TH : Type) := StateT (CompileState TH) (Except CompileError)

/-- An arm and the questions of it not yet asked. -/
structure ArmCompileState (TH : Type) where
  arm : DispatchArm TH
  questions : List (RegionQuestion TH)
deriving DecidableEq

def addNode (node : DispatchNode TH) (count : DispatchCompileStats → DispatchCompileStats) :
    CompileM TH GraphNodeId := fun s => do
  let (node, builder) ← s.builder.addNode node
  .ok (node, { builder, stats := count s.stats })

def fallbackNode : CompileM TH GraphNodeId :=
  addNode .fail fun stats => { stats with failNodes := stats.failNodes + 1 }

def outcomeNode (arm : DispatchArm TH) : CompileM TH GraphNodeId :=
  addNode (.outcome arm.outcome arm.evidence) fun stats =>
    { stats with outcomeNodes := stats.outcomeNodes + 1 }

def testNode (question : RegionQuestion TH) (onMatch onMiss : GraphNodeId) :
    CompileM TH GraphNodeId :=
  addNode (question.intoTestNode onMatch onMiss) fun stats =>
    { stats with testNodes := stats.testNodes + 1 }

/-- The tests of one arm over its outcome, last question first.  Each miss edge leaves
for the same node. -/
def compileSingleArm (arm : ArmCompileState TH) (onMiss : GraphNodeId) :
    CompileM TH GraphNodeId := do
  let leaf ← outcomeNode arm.arm
  arm.questions.reverse.foldlM (fun current question => testNode question current onMiss) leaf

/-- The questions and arms a sequence has left.  Both recursive calls of the shared case
lower it: the arms after the shared ones are fewer, and the shared ones each lose a
question. -/
def armsMeasure (arms : List (ArmCompileState TH)) : Nat :=
  (arms.map fun arm => arm.questions.length + 1).sum

/-- How many arms at the head of the sequence ask this question first. -/
def sharedCount [DecidableEq TH] (question : RegionQuestion TH)
    (arms : List (ArmCompileState TH)) : Nat :=
  (arms.takeWhile fun arm => arm.questions.head? = some question).length

/-- The arm without the question it shares with its neighbours. -/
def ArmCompileState.strip (arm : ArmCompileState TH) : ArmCompileState TH :=
  { arm with questions := arm.questions.tail }

theorem armsMeasure_drop_le (n : Nat) (arms : List (ArmCompileState TH)) :
    armsMeasure (arms.drop n) ≤ armsMeasure arms := by
  induction arms generalizing n with
  | nil => simp
  | cons arm rest ih =>
    cases n with
    | zero => simp
    | succ n =>
      have h := ih n
      simp only [armsMeasure, List.drop_succ_cons, List.map_cons, List.sum_cons] at h ⊢
      omega

theorem armsMeasure_drop_lt {n : Nat} (hn : 0 < n) (arm : ArmCompileState TH)
    (rest : List (ArmCompileState TH)) :
    armsMeasure ((arm :: rest).drop n) < armsMeasure (arm :: rest) := by
  obtain ⟨m, rfl⟩ := Nat.exists_eq_add_of_lt hn
  have h := armsMeasure_drop_le m rest
  simp only [armsMeasure, Nat.zero_add, List.drop_succ_cons, List.map_cons, List.sum_cons] at h ⊢
  omega

theorem armsMeasure_strip_take_le (n : Nat) (arms : List (ArmCompileState TH)) :
    armsMeasure ((arms.take n).map ArmCompileState.strip) ≤ armsMeasure arms := by
  induction arms generalizing n with
  | nil => simp
  | cons arm rest ih =>
    cases n with
    | zero => simp [armsMeasure]
    | succ n =>
      have h := ih n
      simp only [armsMeasure, List.take_succ_cons, List.map_cons, List.sum_cons,
        ArmCompileState.strip, List.length_tail] at h ⊢
      omega

theorem armsMeasure_strip_take_lt {arm : ArmCompileState TH} (hq : 0 < arm.questions.length)
    (n : Nat) (rest : List (ArmCompileState TH)) :
    armsMeasure (((arm :: rest).take n).map ArmCompileState.strip) < armsMeasure (arm :: rest) := by
  cases n with
  | zero =>
    simp only [armsMeasure, List.take_zero, List.map_nil, List.sum_nil, List.map_cons,
      List.sum_cons]
    omega
  | succ n =>
    have h := armsMeasure_strip_take_le n rest
    simp only [armsMeasure, List.take_succ_cons, List.map_cons, List.sum_cons,
      ArmCompileState.strip, List.length_tail] at h ⊢
    omega

def compileArmSequence [DecidableEq TH] (arms : List (ArmCompileState TH))
    (fallback : GraphNodeId) : CompileM TH GraphNodeId :=
  match arms with
  | [] => pure fallback
  | first :: rest =>
    match _hq : first.questions with
    | [] => outcomeNode first.arm
    | question :: _ =>
      let shared := sharedCount question (first :: rest)
      if _hs : 1 < shared then do
        modify fun s =>
          { s with stats.sharedPrefixTests := s.stats.sharedPrefixTests + 1 }
        let afterShared ← compileArmSequence ((first :: rest).drop shared) fallback
        let stripped := ((first :: rest).take shared).map ArmCompileState.strip
        let onMatch ← compileArmSequence stripped afterShared
        testNode question onMatch afterShared
      else do
        let onMiss ← compileArmSequence rest fallback
        compileSingleArm first onMiss
termination_by armsMeasure arms
decreasing_by
  · exact armsMeasure_drop_lt (Nat.lt_trans Nat.zero_lt_one _hs) first rest
  · exact armsMeasure_strip_take_lt (by rw [_hq]; exact Nat.succ_pos _) _ rest
  · simp only [armsMeasure, List.map_cons, List.sum_cons]
    omega

section Equations

variable [DecidableEq TH] {first : ArmCompileState TH} {rest : List (ArmCompileState TH)}
  {question : RegionQuestion TH} {more : List (RegionQuestion TH)} {fallback : GraphNodeId}

theorem compileArmSequence_nil :
    compileArmSequence ([] : List (ArmCompileState TH)) fallback = pure fallback := by
  rw [compileArmSequence]

theorem compileArmSequence_done (hq : first.questions = []) :
    compileArmSequence (first :: rest) fallback = outcomeNode first.arm := by
  rw [compileArmSequence]
  split
  · rfl
  · simp_all

theorem compileArmSequence_shared (hq : first.questions = question :: more)
    (hs : 1 < sharedCount question (first :: rest)) :
    compileArmSequence (first :: rest) fallback = (do
      modify fun s =>
        { s with stats.sharedPrefixTests := s.stats.sharedPrefixTests + 1 }
      let shared := sharedCount question (first :: rest)
      let afterShared ← compileArmSequence ((first :: rest).drop shared) fallback
      let onMatch ←
        compileArmSequence (((first :: rest).take shared).map ArmCompileState.strip) afterShared
      testNode question onMatch afterShared) := by
  rw [compileArmSequence]
  split
  next hq' => simp [hq] at hq'
  next hq' =>
    obtain ⟨rfl, rfl⟩ := List.cons.inj (hq.symm.trans hq')
    simp only [hs, dif_pos]

theorem compileArmSequence_single (hq : first.questions = question :: more)
    (hs : ¬ 1 < sharedCount question (first :: rest)) :
    compileArmSequence (first :: rest) fallback = (do
      let onMiss ← compileArmSequence rest fallback
      compileSingleArm first onMiss) := by
  rw [compileArmSequence]
  split
  next hq' => simp [hq] at hq'
  next hq' =>
    obtain ⟨rfl, rfl⟩ := List.cons.inj (hq.symm.trans hq')
    simp only [hs, dif_neg, not_false_eq_true]

end Equations

def compileOrderedArms [DecidableEq TH] (orderedArms : List (DispatchArm TH))
    (subjects : List Subject) (inputs : PlanInputs) :
    Except CompileError (CompiledDispatchGraph TH) := do
  let start : CompileState TH :=
    { builder := .typed subjects inputs, stats := { arms := orderedArms.length } }
  let (fallback, s) ← fallbackNode start
  let states := orderedArms.map fun arm =>
    ({ arm, questions := arm.questions } : ArmCompileState TH)
  let (root, s) ← compileArmSequence states fallback s
  let graph ← s.builder.build root
  .ok { graph, stats := s.stats }

def compileDispatchMatrix [DecidableEq TH] (matrix : DispatchMatrix TH) (inputs : PlanInputs) :
    Except CompileError (CompiledDispatchGraph TH) :=
  compileOrderedArms matrix.arms matrix.subjects inputs

end Fz.Dispatch
