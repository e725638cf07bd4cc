import Fz.Base.Except
import Fz.Base.List
import Fz.Dispatch.Compile
import Mathlib.Data.List.TakeWhile

/-!
# The compiled graph decides by first match

`DispatchGraph.walk` follows a graph from a node under a truth assignment to the
questions.  `firstMatch` is the meaning of ordered arms: the first arm all of whose
questions answer yes wins, and nothing wins when there is none.

The proof relates a node of a growing graph to the leaf it leads to (`Leads`).  Nodes
are only ever appended, so what a node leads to stays true while the compiler goes on
(`Leads.grow`).  `compileArmSequence_spec` is the invariant of the compiler: a node
for a sequence of arms leads to the sequence's first match, with the leaf the fallback
leads to as the answer when no arm matches.  The shared case holds because arms that
agree on a first question all fail when it answers no, and lose nothing when it answers
yes.
-/

namespace Fz.Dispatch

open Fz.Base

variable {TH : Type}

/-! ## Meaning of arms and graphs -/

/-- The question a test node asks, evidence included. -/
def askedQuestion (predicate : RegionPredicate TH) (onMatch onMiss : DispatchEdge TH) :
    RegionQuestion TH :=
  ⟨predicate, onMatch.evidence, onMiss.evidence⟩

/-- Follow the graph from a node to a leaf.  `none` means that `fuel` ran out or that a
node is missing. -/
def DispatchGraph.walk (g : DispatchGraph TH) (answer : RegionQuestion TH → Bool) :
    Nat → GraphNodeId → Option (DispatchNode TH)
  | 0, _ => none
  | fuel + 1, node =>
    match g.nodes[node]? with
    | none => none
    | some (.test predicate onMatch onMiss) =>
      if answer (askedQuestion predicate onMatch onMiss) then
        g.walk answer fuel onMatch.target
      else g.walk answer fuel onMiss.target
    | some leaf => some leaf

/-- All questions of an arm answer yes.  A guard is the arm's last question. -/
def DispatchArm.holds (answer : RegionQuestion TH → Bool) (arm : DispatchArm TH) : Bool :=
  arm.questions.all answer

/-- The leaf ordered first-match semantics selects. -/
def firstMatch (answer : RegionQuestion TH → Bool) (arms : List (DispatchArm TH)) :
    DispatchNode TH :=
  match arms.find? (DispatchArm.holds answer) with
  | some arm => .outcome arm.outcome arm.evidence
  | none => .fail

/-- The same over arms that have part of their questions left, with the leaf of the
fallback as the answer when none holds. -/
def firstMatchFrom (answer : RegionQuestion TH → Bool) (fallback : DispatchNode TH) :
    List (ArmCompileState TH) → DispatchNode TH
  | [] => fallback
  | arm :: rest =>
    if arm.questions.all answer then .outcome arm.arm.outcome arm.arm.evidence
    else firstMatchFrom answer fallback rest

/-! ## Leading to a leaf -/

section Leads

variable (answer : RegionQuestion TH → Bool)

/-- `Leads answer nodes n leaf`: node `n` leads to `leaf` under the assignment.  Test
nodes point to earlier nodes, which is what bounds the walk. -/
inductive Leads (nodes : List (DispatchNode TH)) : GraphNodeId → DispatchNode TH → Prop where
  | fail {n} : nodes[n]? = some .fail → Leads nodes n .fail
  | outcome {n o evidence} :
      nodes[n]? = some (.outcome o evidence) → Leads nodes n (.outcome o evidence)
  | onMatch {n predicate onMatch onMiss leaf} :
      nodes[n]? = some (.test predicate onMatch onMiss) →
      answer (askedQuestion predicate onMatch onMiss) = true →
      onMatch.target < n → Leads nodes onMatch.target leaf → Leads nodes n leaf
  | onMiss {n predicate onMatch onMiss leaf} :
      nodes[n]? = some (.test predicate onMatch onMiss) →
      answer (askedQuestion predicate onMatch onMiss) = false →
      onMiss.target < n → Leads nodes onMiss.target leaf → Leads nodes n leaf

variable {answer}

theorem Leads.lt_length {nodes : List (DispatchNode TH)} {n : GraphNodeId}
    {leaf : DispatchNode TH} (h : Leads answer nodes n leaf) : n < nodes.length := by
  cases h with
  | fail hn => exact (List.getElem?_eq_some_iff.mp hn).1
  | outcome hn => exact (List.getElem?_eq_some_iff.mp hn).1
  | onMatch hn => exact (List.getElem?_eq_some_iff.mp hn).1
  | onMiss hn => exact (List.getElem?_eq_some_iff.mp hn).1

theorem Leads.grow {nodes nodes' : List (DispatchNode TH)} {n : GraphNodeId}
    {leaf : DispatchNode TH} (h : Leads answer nodes n leaf) (hp : nodes <+: nodes') :
    Leads answer nodes' n leaf := by
  induction h with
  | fail hn => exact .fail (getElem?_grow hp hn)
  | outcome hn => exact .outcome (getElem?_grow hp hn)
  | onMatch hn ha hlt _ ih => exact .onMatch (getElem?_grow hp hn) ha hlt ih
  | onMiss hn ha hlt _ ih => exact .onMiss (getElem?_grow hp hn) ha hlt ih

theorem Leads.walk_eq {g : DispatchGraph TH} {n : GraphNodeId} {leaf : DispatchNode TH}
    (h : Leads answer g.nodes n leaf) :
    ∀ fuel : Nat, n < fuel → g.walk answer fuel n = some leaf := by
  induction h with
  | fail hn =>
    intro fuel hf
    cases fuel with
    | zero => exact absurd hf (Nat.not_lt_zero _)
    | succ k => simp [DispatchGraph.walk, hn]
  | outcome hn =>
    intro fuel hf
    cases fuel with
    | zero => exact absurd hf (Nat.not_lt_zero _)
    | succ k => simp [DispatchGraph.walk, hn]
  | onMatch hn ha hlt _ ih =>
    intro fuel hf
    cases fuel with
    | zero => exact absurd hf (Nat.not_lt_zero _)
    | succ k =>
      simp only [DispatchGraph.walk, hn, ha, if_true]
      exact ih k (Nat.lt_of_lt_of_le hlt (Nat.le_of_lt_succ hf))
  | onMiss hn ha hlt _ ih =>
    intro fuel hf
    cases fuel with
    | zero => exact absurd hf (Nat.not_lt_zero _)
    | succ k =>
      simp only [DispatchGraph.walk, hn, ha, Bool.false_eq_true, if_false]
      exact ih k (Nat.lt_of_lt_of_le hlt (Nat.le_of_lt_succ hf))

end Leads

/-! ## What the builder adds -/

namespace DispatchGraphBuilder

/-- Two builders that differ in their demands only. -/
structure OnlyDemand (b b' : DispatchGraphBuilder TH) : Prop where
  nodes : b'.nodes = b.nodes
  subjects : b'.subjects = b.subjects
  inputs : b'.inputs = b.inputs

theorem OnlyDemand.refl (b : DispatchGraphBuilder TH) : b.OnlyDemand b := ⟨rfl, rfl, rfl⟩

theorem OnlyDemand.trans {b b' b'' : DispatchGraphBuilder TH} (h : b.OnlyDemand b')
    (h' : b'.OnlyDemand b'') : b.OnlyDemand b'' :=
  ⟨h'.nodes.trans h.nodes, h'.subjects.trans h.subjects, h'.inputs.trans h.inputs⟩

variable {b b' : DispatchGraphBuilder TH}

theorem chargeInput_onlyDemand {ordinal : Nat}
    {demand : DispatchDemand} (h : b.chargeInput ordinal demand = .ok b') : b.OnlyDemand b' := by
  unfold chargeInput at h
  split at h
  · cases h
  · cases h
    exact ⟨rfl, rfl, rfl⟩

theorem chargeSubject_onlyDemand {subject : SubjectId}
    {demand : DispatchDemand} (h : b.chargeSubject subject demand = .ok b') : b.OnlyDemand b' := by
  obtain ⟨_, _, h⟩ := Except.bind_eq_ok.mp h
  exact chargeInput_onlyDemand h

theorem chargePin_onlyDemand {pin : PinnedValueId}
    (h : b.chargePin pin = .ok b') : b.OnlyDemand b' := by
  unfold chargePin at h
  split at h
  · exact chargeInput_onlyDemand h
  · cases h
    exact .refl b

theorem chargeGuard_onlyDemand {guard : GuardId}
    (h : b.chargeGuard guard = .ok b') : b.OnlyDemand b' := by
  unfold chargeGuard at h
  split at h
  · cases h
    exact .refl b
  · refine Except.foldlM_inv (P := fun c => b.OnlyDemand c) ?_ (.refl b) h
    intro c leaf c' hc hstep
    cases leaf with
    | subject s => exact hc.trans (chargeSubject_onlyDemand hstep)
    | pinned p => exact hc.trans (chargePin_onlyDemand hstep)

theorem chargeBitstringSizes_onlyDemand {shape : BitstringShape}
    (h : b.chargeBitstringSizes shape = .ok b') : b.OnlyDemand b' := by
  refine Except.foldlM_inv (P := fun c => b.OnlyDemand c) ?_ (.refl b) h
  intro c field c' hc hstep
  split at hstep
  · exact hc.trans (chargePin_onlyDemand hstep)
  · cases hstep
    exact hc

theorem chargeNode_onlyDemand {node : DispatchNode TH}
    (h : b.chargeNode node = .ok b') : b.OnlyDemand b' := by
  unfold chargeNode at h
  split at h
  · exact chargeGuard_onlyDemand h
  · obtain ⟨c, hc, h⟩ := Except.bind_eq_ok.mp h
    have hsubject := chargeSubject_onlyDemand hc
    split at h
    · exact hsubject.trans (chargePin_onlyDemand h)
    · exact hsubject.trans (chargeBitstringSizes_onlyDemand h)
    · cases h
      exact hsubject
  · cases h
    exact .refl b

end DispatchGraphBuilder

theorem addNode_spec {node : DispatchNode TH}
    {count : DispatchCompileStats → DispatchCompileStats} {s s' : CompileState TH}
    {n : GraphNodeId} (h : addNode node count s = .ok (n, s')) :
    n = s.builder.nodes.length ∧ s'.builder.nodes = s.builder.nodes ++ [node] := by
  obtain ⟨⟨m, b⟩, hadd, h⟩ := Except.bind_eq_ok.mp h
  cases h
  obtain ⟨c, hc, hadd⟩ := Except.bind_eq_ok.mp hadd
  cases hadd
  rw [(DispatchGraphBuilder.chargeNode_onlyDemand hc).nodes]
  exact ⟨rfl, rfl⟩

/-! ## What a compiled sequence leads to -/

section Compile

variable {s s' : CompileState TH} {n : GraphNodeId}

theorem fallbackNode_spec (answer : RegionQuestion TH → Bool)
    (h : fallbackNode s = .ok (n, s')) : Leads answer s'.builder.nodes n .fail := by
  obtain ⟨rfl, hn⟩ := addNode_spec h
  rw [hn]
  exact .fail (getElem?_append_length _ _)

theorem outcomeNode_spec (answer : RegionQuestion TH → Bool) {arm : DispatchArm TH}
    (h : outcomeNode arm s = .ok (n, s')) : s.builder.nodes <+: s'.builder.nodes ∧
      Leads answer s'.builder.nodes n (.outcome arm.outcome arm.evidence) := by
  obtain ⟨rfl, hn⟩ := addNode_spec h
  rw [hn]
  exact ⟨List.prefix_append _ _, .outcome (getElem?_append_length _ _)⟩

variable {answer : RegionQuestion TH → Bool}

theorem testNode_spec {question : RegionQuestion TH} {onMatch onMiss : GraphNodeId}
    {yes no : DispatchNode TH} (h : testNode question onMatch onMiss s = .ok (n, s'))
    (hyes : Leads answer s.builder.nodes onMatch yes)
    (hno : Leads answer s.builder.nodes onMiss no) : s.builder.nodes <+: s'.builder.nodes ∧
      Leads answer s'.builder.nodes n (if answer question then yes else no) := by
  obtain ⟨rfl, hn⟩ := addNode_spec h
  rw [hn]
  have hp := List.prefix_append s.builder.nodes [question.intoTestNode onMatch onMiss]
  have hat := getElem?_append_length s.builder.nodes (question.intoTestNode onMatch onMiss)
  refine ⟨hp, ?_⟩
  cases ha : answer question with
  | true => exact .onMatch hat ha hyes.lt_length (hyes.grow hp)
  | false => exact .onMiss hat ha hno.lt_length (hno.grow hp)

theorem compileSingleArm_spec {arm : ArmCompileState TH} {onMiss : GraphNodeId}
    {leaf : DispatchNode TH} (h : compileSingleArm arm onMiss s = .ok (n, s'))
    (hmiss : Leads answer s.builder.nodes onMiss leaf) : s.builder.nodes <+: s'.builder.nodes ∧
      Leads answer s'.builder.nodes n
        (if arm.questions.all answer then .outcome arm.arm.outcome arm.arm.evidence else leaf) := by
  obtain ⟨out, s₁, hout, hfold⟩ := StateT.bind_eq_ok.mp h
  obtain ⟨hp, hlead⟩ := outcomeNode_spec answer hout
  -- The fold runs from the last question to the first; `done` are those already tested.
  have key := StateT.foldlM_rel
    (P := fun todo current t => s.builder.nodes <+: t.builder.nodes ∧
      ∃ done, arm.questions = todo.reverse ++ done ∧
        Leads answer t.builder.nodes current
          (if done.all answer then .outcome arm.arm.outcome arm.arm.evidence else leaf))
    ?_ ⟨hp, [], by simp, by simpa using hlead⟩ hfold
  · obtain ⟨hp', done, hq, hlead'⟩ := key
    rw [List.reverse_nil, List.nil_append] at hq
    rw [hq]
    exact ⟨hp', hlead'⟩
  · intro question todo current t next t' hinv hstep
    obtain ⟨hpt, done, hq, hcur⟩ := hinv
    obtain ⟨hpt', hlead'⟩ := testNode_spec hstep hcur (hmiss.grow hpt)
    refine ⟨hpt.trans hpt', question :: done, ?_, ?_⟩
    · rw [hq, List.reverse_cons, List.append_assoc]
      rfl
    · cases ha : answer question with
      | true => simpa [ha] using hlead'
      | false => simpa [ha] using hlead'

/-! ## Sharing a first question -/

section Sharing

variable {fallback : DispatchNode TH}

theorem firstMatchFrom_append (xs ys : List (ArmCompileState TH)) :
    firstMatchFrom answer fallback (xs ++ ys) =
      firstMatchFrom answer (firstMatchFrom answer fallback ys) xs := by
  induction xs with
  | nil => rfl
  | cons arm rest ih =>
    simp only [List.cons_append, firstMatchFrom, ih]

theorem firstMatchFrom_shared {question : RegionQuestion TH} {arms : List (ArmCompileState TH)}
    (h : ∀ arm ∈ arms, arm.questions.head? = some question) : firstMatchFrom answer fallback arms =
      if answer question then firstMatchFrom answer fallback (arms.map ArmCompileState.strip)
      else fallback := by
  induction arms with
  | nil => cases answer question <;> rfl
  | cons arm rest ih =>
    obtain ⟨hhead, hrest⟩ := List.forall_mem_cons.mp h
    have ih := ih hrest
    obtain ⟨more, hq⟩ := List.head?_eq_some_iff.mp hhead
    cases ha : answer question with
    | true =>
      simp only [ha, if_true] at ih
      simp only [firstMatchFrom, List.map_cons, ArmCompileState.strip, hq, List.tail_cons,
        List.all_cons, ha, Bool.true_and, ih, if_true]
    | false =>
      simp only [ha, Bool.false_eq_true, if_false] at ih
      simp only [firstMatchFrom, hq, List.all_cons, ha, Bool.false_and, ih,
        Bool.false_eq_true, if_false]

variable [DecidableEq TH]

theorem head?_of_mem_take_sharedCount {question : RegionQuestion TH}
    {arms : List (ArmCompileState TH)} :
    ∀ arm ∈ arms.take (sharedCount question arms), arm.questions.head? = some question := by
  intro arm hmem
  have htake : arms.take (sharedCount question arms) =
      arms.takeWhile fun arm => arm.questions.head? = some question :=
    (List.prefix_iff_eq_take.mp (List.takeWhile_prefix _)).symm
  rw [htake] at hmem
  simpa using List.mem_takeWhile_imp hmem

/-- The invariant of the compiler.  Nodes are only added, and the node of a sequence
leads to what first match selects. -/
theorem compileArmSequence_spec (arms : List (ArmCompileState TH)) (fallbackId : GraphNodeId) :
    ∀ {n : GraphNodeId} {leaf : DispatchNode TH} {s s' : CompileState TH},
      compileArmSequence arms fallbackId s = .ok (n, s') →
      Leads answer s.builder.nodes fallbackId leaf → s.builder.nodes <+: s'.builder.nodes ∧
        Leads answer s'.builder.nodes n (firstMatchFrom answer leaf arms) := by
  induction arms, fallbackId using compileArmSequence.induct with
  | case1 fallbackId =>
    intro n leaf s s' h hfall
    rw [compileArmSequence_nil, StateT.pure_eq_ok] at h
    obtain ⟨rfl, rfl⟩ := Prod.mk.inj h
    exact ⟨List.prefix_rfl, hfall⟩
  | case2 fallbackId first rest hq =>
    -- An arm with nothing left to ask wins, and the arms after it are unreachable.
    intro n leaf s s' h hfall
    rw [compileArmSequence_done hq] at h
    obtain ⟨hp, hlead⟩ := outcomeNode_spec answer h
    exact ⟨hp, by simpa [firstMatchFrom, hq] using hlead⟩
  | case3 fallbackId first rest question more hq shared hs ihAfter =>
    rename_i ihShared
    intro n leaf s s' h hfall
    rw [compileArmSequence_shared hq hs] at h
    obtain ⟨_, s₀, hmod, h⟩ := StateT.bind_eq_ok.mp h
    cases StateT.modify_eq_ok.mp hmod
    obtain ⟨afterShared, s₁, hafter, h⟩ := StateT.bind_eq_ok.mp h
    obtain ⟨onMatch, s₂, hmatch, htest⟩ := StateT.bind_eq_ok.mp h
    obtain ⟨hp₁, hlead₁⟩ := ihAfter hafter hfall
    obtain ⟨hp₂, hlead₂⟩ := ihShared afterShared hmatch hlead₁
    obtain ⟨hp₃, hlead₃⟩ := testNode_spec htest hlead₂ (hlead₁.grow hp₂)
    refine ⟨hp₁.trans (hp₂.trans hp₃), ?_⟩
    rw [← List.take_append_drop shared (first :: rest), firstMatchFrom_append,
      firstMatchFrom_shared head?_of_mem_take_sharedCount]
    exact hlead₃
  | case4 fallbackId first rest question more hq shared hs =>
    rename_i ih
    intro n leaf s s' h hfall
    rw [compileArmSequence_single hq hs] at h
    obtain ⟨onMiss, s₁, hmiss, h⟩ := StateT.bind_eq_ok.mp h
    obtain ⟨hp₁, hlead₁⟩ := ih hmiss hfall
    obtain ⟨hp₂, hlead₂⟩ := compileSingleArm_spec h hlead₁
    exact ⟨hp₁.trans hp₂, hlead₂⟩

end Sharing

end Compile

/-! ## The compiled graph -/

theorem build_spec {b : DispatchGraphBuilder TH} {root : GraphNodeId} {g : DispatchGraph TH}
    (h : b.build root = .ok g) : g.nodes = b.nodes ∧ g.root = root := by
  obtain ⟨_, _, h⟩ := Except.bind_eq_ok.mp h
  obtain ⟨_, _, h⟩ := Except.bind_eq_ok.mp h
  obtain ⟨_, _, h⟩ := Except.bind_eq_ok.mp h
  cases h
  exact ⟨rfl, rfl⟩

theorem firstMatchFrom_fail (answer : RegionQuestion TH → Bool) (arms : List (DispatchArm TH)) :
    firstMatchFrom answer .fail
        (arms.map fun arm => ({ arm, questions := arm.questions } : ArmCompileState TH)) =
      firstMatch answer arms := by
  induction arms with
  | nil => rfl
  | cons arm rest ih =>
    rw [List.map_cons, firstMatchFrom, ih]
    unfold firstMatch
    cases ha : arm.questions.all answer with
    | true => simp [DispatchArm.holds, ha]
    | false => simp [DispatchArm.holds, ha]

theorem firstMatch_eq_fail_iff (answer : RegionQuestion TH → Bool) (arms : List (DispatchArm TH)) :
    firstMatch answer arms = .fail ↔ ∀ arm ∈ arms, arm.holds answer = false := by
  unfold firstMatch
  cases hf : arms.find? (DispatchArm.holds answer) with
  | none => simpa using hf
  | some arm =>
    have hmem := List.mem_of_find?_eq_some hf
    have hholds := List.find?_some hf
    constructor
    · intro h
      cases h
    · intro h
      rw [h arm hmem] at hholds
      cases hholds

section Main

variable [DecidableEq TH]

theorem compileOrderedArms_leads {arms : List (DispatchArm TH)} {subjects : List Subject}
    {inputs : PlanInputs} {compiled : CompiledDispatchGraph TH}
    (h : compileOrderedArms arms subjects inputs = .ok compiled)
    (answer : RegionQuestion TH → Bool) :
    Leads answer compiled.graph.nodes compiled.graph.root (firstMatch answer arms) := by
  obtain ⟨⟨fallback, s₁⟩, hfall, h⟩ := Except.bind_eq_ok.mp h
  obtain ⟨⟨root, s₂⟩, hseq, h⟩ := Except.bind_eq_ok.mp h
  obtain ⟨graph, hbuild, h⟩ := Except.bind_eq_ok.mp h
  cases h
  obtain ⟨_, hlead⟩ := compileArmSequence_spec _ _ hseq (fallbackNode_spec answer hfall)
  obtain ⟨hg, rfl⟩ := build_spec hbuild
  rw [firstMatchFrom_fail] at hlead
  rw [hg]
  exact hlead

/-- Walking a compiled graph from its root selects the first arm all of whose questions
answer yes, and fails exactly when there is none. -/
theorem compileOrderedArms_walk {arms : List (DispatchArm TH)} {subjects : List Subject}
    {inputs : PlanInputs} {compiled : CompiledDispatchGraph TH}
    (h : compileOrderedArms arms subjects inputs = .ok compiled)
    (answer : RegionQuestion TH → Bool) :
    compiled.graph.walk answer compiled.graph.nodes.length compiled.graph.root =
        some (firstMatch answer arms) ∧
      (compiled.graph.walk answer compiled.graph.nodes.length compiled.graph.root = some .fail ↔
        ∀ arm ∈ arms, arm.holds answer = false) := by
  have hlead := compileOrderedArms_leads h answer
  have hwalk := hlead.walk_eq compiled.graph.nodes.length hlead.lt_length
  refine ⟨hwalk, ?_⟩
  rw [hwalk, Option.some.injEq, firstMatch_eq_fail_iff]

end Main

/-- The arms of `{1, _}` and `{_, 2}`.  Both ask for a pair first. -/
def pairArms : List (DispatchArm Unit) :=
  [⟨0, [.tupleArity 0 2 [1, 2], .equality 1 (.const (.int 1))], .empty, 0⟩,
   ⟨1, [.tupleArity 0 2 [1, 2], .equality 2 (.const (.int 2))], .empty, 1⟩]

def pairSubjects : List Subject :=
  [⟨0, .input 0⟩, ⟨1, .projection ⟨0, .tupleField 0⟩⟩, ⟨2, .projection ⟨0, .tupleField 1⟩⟩]

-- The first arm fails after the shared question answered yes, and the second wins.
theorem compileOrderedArms_walk_pair :
    ∃ compiled, compileOrderedArms pairArms pairSubjects ⟨1, [], []⟩ = .ok compiled ∧
      compiled.graph.walk (fun q => q ≠ .equality 1 (.const (.int 1)))
          compiled.graph.nodes.length compiled.graph.root = some (.outcome 1 .empty) := by
  cases h : compileOrderedArms pairArms pairSubjects ⟨1, [], []⟩ with
  | error e =>
    have hok : (compileOrderedArms pairArms pairSubjects ⟨1, [], []⟩).isOk = true := by
      decide +kernel
    rw [h] at hok
    cases hok
  | ok compiled =>
    exact ⟨compiled, rfl, (compileOrderedArms_walk h _).1.trans (by decide)⟩

/-! ## The size of the graph -/

section Size

def DispatchCompileStats.nodes (stats : DispatchCompileStats) : Nat :=
  stats.testNodes + stats.outcomeNodes + stats.failNodes

/-- The nodes, and one more for each test that several arms share. -/
def CompileState.spent (s : CompileState TH) : Nat :=
  s.builder.nodes.length + s.stats.sharedPrefixTests

/-- Every edge goes to an earlier node, and the counters count the nodes. -/
structure CompileState.Ordered (s : CompileState TH) : Prop where
  edges : ∀ (n : GraphNodeId) (predicate : RegionPredicate TH) (onMatch onMiss : DispatchEdge TH),
    s.builder.nodes[n]? = some (.test predicate onMatch onMiss) →
      onMatch.target < n ∧ onMiss.target < n
  counted : s.stats.nodes = s.builder.nodes.length

/-- At most `k` is spent, and `n` is a node. -/
structure CompileState.Adds (s s' : CompileState TH) (k : Nat) (n : GraphNodeId) : Prop where
  ordered : s'.Ordered
  grows : s.builder.nodes.length ≤ s'.builder.nodes.length
  bound : s'.spent ≤ s.spent + k
  node : n < s'.builder.nodes.length

variable {s s' : CompileState TH} {n : GraphNodeId}

theorem addNode_adds {node : DispatchNode TH} {count : DispatchCompileStats → DispatchCompileStats}
    (hs : s.Ordered) (h : addNode node count s = .ok (n, s'))
    (hcount : (count s.stats).nodes = s.stats.nodes + 1)
    (hshared : (count s.stats).sharedPrefixTests = s.stats.sharedPrefixTests)
    (hedges : ∀ predicate onMatch onMiss, node = .test predicate onMatch onMiss →
      onMatch.target < s.builder.nodes.length ∧ onMiss.target < s.builder.nodes.length) :
    s.Adds s' 1 n := by
  obtain ⟨rfl, hnodes⟩ := addNode_spec h
  have hlen : s'.builder.nodes.length = s.builder.nodes.length + 1 := by
    rw [hnodes, List.length_append, List.length_singleton]
  have hstats : s'.stats = count s.stats := by
    obtain ⟨⟨_, b⟩, -, h⟩ := Except.bind_eq_ok.mp h
    cases h
    rfl
  refine ⟨⟨fun n predicate onMatch onMiss hn => ?_, ?_⟩, by omega, ?_, hlen ▸ Nat.lt_succ_self _⟩
  · rw [hnodes, List.getElem?_append] at hn
    split at hn
    · exact hs.edges n predicate onMatch onMiss hn
    · rename_i hge
      have hnode := List.mem_singleton.mp (List.mem_of_getElem? hn)
      exact (hedges predicate onMatch onMiss hnode.symm).imp
        (fun h => h.trans_le (Nat.le_of_not_lt hge)) fun h => h.trans_le (Nat.le_of_not_lt hge)
  · rw [hlen, hstats, hcount, hs.counted]
  · simp only [CompileState.spent, hlen, hstats, hshared]
    omega

theorem CompileState.Adds.trans {s'' : CompileState TH} {j k : Nat} {m : GraphNodeId}
    (h : s.Adds s' j m) (h' : s'.Adds s'' k n) : s.Adds s'' (j + k) n :=
  ⟨h'.ordered, h.grows.trans h'.grows, by have := h.bound; have := h'.bound; omega, h'.node⟩

theorem testNode_adds {question : RegionQuestion TH} {onMatch onMiss : GraphNodeId}
    (hs : s.Ordered) (h : testNode question onMatch onMiss s = .ok (n, s'))
    (hmatch : onMatch < s.builder.nodes.length) (hmiss : onMiss < s.builder.nodes.length) :
    s.Adds s' 1 n := by
  refine addNode_adds hs h (by simp only [DispatchCompileStats.nodes]; omega) rfl ?_
  rintro _ _ _ heq
  cases heq
  exact ⟨hmatch, hmiss⟩

theorem compileSingleArm_adds {arm : ArmCompileState TH} {onMiss : GraphNodeId}
    (hs : s.Ordered) (h : compileSingleArm arm onMiss s = .ok (n, s'))
    (hmiss : onMiss < s.builder.nodes.length) : s.Adds s' (arm.questions.length + 1) n := by
  obtain ⟨out, s₁, hout, hfold⟩ := StateT.bind_eq_ok.mp h
  have hleaf : s.Adds s₁ 1 out :=
    addNode_adds hs hout (by simp only [DispatchCompileStats.nodes]; omega) rfl (by rintro _ _ _ ⟨⟩)
  have hall := StateT.foldlM_rel
    (P := fun todo current t =>
      ∃ k, s.Adds t k current ∧ k + todo.length = arm.questions.length + 1)
    ?_ ⟨1, hleaf, by simp [Nat.add_comm]⟩ hfold
  · obtain ⟨k, hadds, rfl⟩ := hall
    exact hadds
  · rintro question todo current t next t' ⟨k, hadds, hk⟩ hstep
    have htest := testNode_adds hadds.ordered hstep hadds.node (hmiss.trans_le hadds.grows)
    exact ⟨k + 1, hadds.trans htest, by simp only [List.length_cons] at hk; omega⟩

theorem armsMeasure_strip {question : RegionQuestion TH} {arms : List (ArmCompileState TH)}
    (h : ∀ arm ∈ arms, arm.questions.head? = some question) :
    armsMeasure (arms.map ArmCompileState.strip) + arms.length = armsMeasure arms := by
  induction arms with
  | nil => rfl
  | cons arm arms ih =>
    obtain ⟨harm, harms⟩ := List.forall_mem_cons.mp h
    obtain ⟨more, hq⟩ := List.head?_eq_some_iff.mp harm
    have := ih harms
    simp only [armsMeasure, List.map_cons, List.sum_cons, ArmCompileState.strip, hq, List.tail_cons,
      List.length_cons] at this ⊢
    omega

theorem armsMeasure_append (xs ys : List (ArmCompileState TH)) :
    armsMeasure (xs ++ ys) = armsMeasure xs + armsMeasure ys := by
  rw [armsMeasure, List.map_append, List.sum_append]
  rfl

variable [DecidableEq TH]

theorem compileArmSequence_adds (arms : List (ArmCompileState TH)) (fallback : GraphNodeId) :
    ∀ {n : GraphNodeId} {s s' : CompileState TH}, compileArmSequence arms fallback s = .ok (n, s') →
      s.Ordered → fallback < s.builder.nodes.length → s.Adds s' (armsMeasure arms) n := by
  induction arms, fallback using compileArmSequence.induct with
  | case1 fallback =>
    intro n s s' h hs hfall
    rw [compileArmSequence_nil, StateT.pure_eq_ok] at h
    obtain ⟨rfl, rfl⟩ := Prod.mk.inj h
    exact ⟨hs, le_rfl, Nat.le_add_right _ _, hfall⟩
  | case2 fallback first rest hq =>
    intro n s s' h hs hfall
    rw [compileArmSequence_done hq] at h
    have hadds : s.Adds s' 1 n :=
      addNode_adds hs h (by simp only [DispatchCompileStats.nodes]; omega) rfl (by rintro _ _ _ ⟨⟩)
    refine ⟨hadds.ordered, hadds.grows, hadds.bound.trans ?_, hadds.node⟩
    simp only [armsMeasure, List.map_cons, List.sum_cons]
    omega
  | case3 fallback first rest question more hq shared hs ihAfter =>
    rename_i ihShared
    intro n s s' h hord hfall
    rw [compileArmSequence_shared hq hs] at h
    obtain ⟨_, s₀, hmod, h⟩ := StateT.bind_eq_ok.mp h
    cases StateT.modify_eq_ok.mp hmod
    obtain ⟨afterShared, s₁, hafter, h⟩ := StateT.bind_eq_ok.mp h
    obtain ⟨onMatch, s₂, hmatch, htest⟩ := StateT.bind_eq_ok.mp h
    have h₁ := ihAfter hafter ⟨hord.edges, hord.counted⟩ hfall
    have h₂ := ihShared afterShared hmatch h₁.ordered h₁.node
    have h₃ := testNode_adds h₂.ordered htest h₂.node (h₁.node.trans_le h₂.grows)
    have hadds := (h₁.trans h₂).trans h₃
    refine ⟨hadds.ordered, hadds.grows, hadds.bound.trans ?_, hadds.node⟩
    have hlen : ((first :: rest).take (sharedCount question (first :: rest))).length =
        sharedCount question (first :: rest) := by
      rw [List.length_take, sharedCount, Nat.min_eq_left (List.takeWhile_sublist _).length_le]
    have hstrip := armsMeasure_strip
      (@head?_of_mem_take_sharedCount _ _ question (first :: rest))
    have hparts := armsMeasure_append ((first :: rest).take (sharedCount question (first :: rest)))
      ((first :: rest).drop (sharedCount question (first :: rest)))
    have hspent : CompileState.spent { s with stats := { s.stats with
        sharedPrefixTests := s.stats.sharedPrefixTests + 1 } } = s.spent + 1 := rfl
    rw [hlen] at hstrip
    rw [List.take_append_drop] at hparts
    subst shared
    rw [hspent]
    omega
  | case4 fallback first rest question more hq shared hs =>
    rename_i ih
    intro n s s' h hord hfall
    rw [compileArmSequence_single hq hs] at h
    obtain ⟨onMiss, s₁, hmiss, h⟩ := StateT.bind_eq_ok.mp h
    have h₁ := ih hmiss hord hfall
    have h₂ := compileSingleArm_adds h₁.ordered h h₁.node
    have hadds := h₁.trans h₂
    refine ⟨hadds.ordered, hadds.grows, hadds.bound.trans ?_, hadds.node⟩
    simp only [armsMeasure, List.map_cons, List.sum_cons]
    omega

/-- The graph of ordered arms has no cycle: every edge goes to an earlier node.  It has at most one
node for each question and each arm and one to fail, less one for each test that arms share, and the
counters count its nodes. -/
theorem compileOrderedArms_acyclic {arms : List (DispatchArm TH)} {subjects : List Subject}
    {inputs : PlanInputs} {compiled : CompiledDispatchGraph TH}
    (h : compileOrderedArms arms subjects inputs = .ok compiled) :
    (∀ (n : GraphNodeId) (predicate : RegionPredicate TH) (onMatch onMiss : DispatchEdge TH),
      compiled.graph.nodes[n]? = some (.test predicate onMatch onMiss) →
        onMatch.target < n ∧ onMiss.target < n) ∧
      compiled.graph.nodes.length + compiled.stats.sharedPrefixTests ≤
        (arms.map fun arm => arm.questions.length + 1).sum + 1 ∧
      compiled.stats.testNodes + compiled.stats.outcomeNodes + compiled.stats.failNodes =
        compiled.graph.nodes.length := by
  obtain ⟨⟨fallback, s₁⟩, hfall, h⟩ := Except.bind_eq_ok.mp h
  obtain ⟨⟨root, s₂⟩, hseq, h⟩ := Except.bind_eq_ok.mp h
  obtain ⟨graph, hbuild, h⟩ := Except.bind_eq_ok.mp h
  cases h
  have hnone : (⟨.typed subjects inputs, { arms := arms.length }⟩ : CompileState TH).Ordered :=
    ⟨fun _ _ _ _ hn => by simp [DispatchGraphBuilder.typed] at hn, rfl⟩
  have hfail := addNode_adds hnone hfall rfl rfl (by rintro _ _ _ ⟨⟩)
  have hadds := hfail.trans (compileArmSequence_adds _ _ hseq hfail.ordered hfail.node)
  rw [(build_spec hbuild).1]
  refine ⟨hadds.ordered.edges, hadds.bound.trans ?_, hadds.ordered.counted⟩
  show 0 + (1 + _) ≤ _
  rw [armsMeasure, List.map_map, Nat.zero_add, Nat.add_comm]
  rfl

end Size

theorem compileOrderedArms_acyclic_pair :
    ∃ compiled, compileOrderedArms pairArms pairSubjects ⟨1, [], []⟩ = .ok compiled ∧
      compiled.graph.nodes.length + compiled.stats.sharedPrefixTests ≤ 7 := by
  cases h : compileOrderedArms pairArms pairSubjects ⟨1, [], []⟩ with
  | error e =>
      have hok : (compileOrderedArms pairArms pairSubjects ⟨1, [], []⟩).isOk = true := by
        decide +kernel
      rw [h] at hok
      cases hok
  | ok compiled => exact ⟨compiled, rfl, (compileOrderedArms_acyclic h).2.1⟩

end Fz.Dispatch
