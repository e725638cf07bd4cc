import Fz.Dispatch.CompileCorrect
import Mathlib.Order.Basic

/-!
# Facts along the paths of a compiled graph

A `PathLogic` says what is known along a path of a graph: how an answer changes it, what a
question needs of it and what a leaf needs.  `Covers` is that every path from a node finds what
its questions and its leaf need.

`compileOrderedArms_covers` is the rule for compiled graphs.  If each arm finds what it needs when
its own questions are all answered yes, one after the other, and a no of one of them loses nothing
that was known before it, then the whole graph does.  Arms that share a question are stripped of it,
so a question may rely on an answer another arm asked for; the rule holds because arms share a
question only with everything before it.
-/

namespace Fz.Dispatch

open Fz.Base

/-- What is known along a path, and what is needed of it. -/
structure PathLogic (TH κ : Type) [Preorder κ] where
  ok : κ → RegionQuestion TH → Prop
  leaf : κ → OutcomeId → EdgeEvidence TH → Prop
  yes : κ → RegionQuestion TH → κ
  no : κ → RegionQuestion TH → κ
  ok_mono {c c' q} : c ≤ c' → ok c q → ok c' q
  leaf_mono {c c' o e} : c ≤ c' → leaf c o e → leaf c' o e
  yes_mono {c c' q} : c ≤ c' → yes c q ≤ yes c' q
  no_mono {c c' q} : c ≤ c' → no c q ≤ no c' q
  le_yes {c q} : c ≤ yes c q

variable {TH κ : Type} [Preorder κ] (L : PathLogic TH κ)

/-- Every path from a node finds what it needs, when `c` is known at the node. -/
inductive PathLogic.Covers (nodes : List (DispatchNode TH)) : κ → GraphNodeId → Prop where
  | fail {c n} : nodes[n]? = some .fail → Covers nodes c n
  | outcome {c n o evidence} : nodes[n]? = some (.outcome o evidence) → L.leaf c o evidence →
      Covers nodes c n
  | test {c n predicate onMatch onMiss} :
      nodes[n]? = some (.test predicate onMatch onMiss) →
      onMatch.target < n → onMiss.target < n →
      L.ok c (askedQuestion predicate onMatch onMiss) →
      Covers nodes (L.yes c (askedQuestion predicate onMatch onMiss)) onMatch.target →
      Covers nodes (L.no c (askedQuestion predicate onMatch onMiss)) onMiss.target →
      Covers nodes c n

/-- An arm finds what it needs when its questions are answered yes in order, and loses nothing
when one is answered no. -/
def PathLogic.Arm (o : OutcomeId) (evidence : EdgeEvidence TH) : κ → List (RegionQuestion TH) → Prop
  | c, [] => L.leaf c o evidence
  | c, q :: qs => L.ok c q ∧ c ≤ L.no c q ∧ Arm o evidence (L.yes c q) qs

variable {L}

namespace PathLogic

theorem Covers.lt_length {nodes : List (DispatchNode TH)} {c : κ} {n : GraphNodeId}
    (h : L.Covers nodes c n) : n < nodes.length := by
  cases h with
  | fail hn => exact (List.getElem?_eq_some_iff.mp hn).1
  | outcome hn => exact (List.getElem?_eq_some_iff.mp hn).1
  | test hn => exact (List.getElem?_eq_some_iff.mp hn).1

theorem Covers.grow {nodes nodes' : List (DispatchNode TH)} {c : κ} {n : GraphNodeId}
    (h : L.Covers nodes c n) (hp : nodes <+: nodes') : L.Covers nodes' c n := by
  induction h with
  | fail hn => exact .fail (getElem?_grow hp hn)
  | outcome hn hl => exact .outcome (getElem?_grow hp hn) hl
  | test hn hm hx hok _ _ ihMatch ihMiss =>
    exact .test (getElem?_grow hp hn) hm hx hok ihMatch ihMiss

theorem Covers.mono {nodes : List (DispatchNode TH)} {c : κ} {n : GraphNodeId}
    (h : L.Covers nodes c n) : ∀ {c'}, c ≤ c' → L.Covers nodes c' n := by
  induction h with
  | fail hn => exact fun _ => .fail hn
  | outcome hn hl => exact fun hc => .outcome hn (L.leaf_mono hc hl)
  | test hn hm hx hok _ _ ihMatch ihMiss =>
    intro c' hc
    exact .test hn hm hx (L.ok_mono hc hok) (ihMatch (L.yes_mono hc)) (ihMiss (L.no_mono hc))

end PathLogic

section Compile

variable {s s' : CompileState TH} {n : GraphNodeId} {c : κ}

theorem fallbackNode_covers (c : κ) (h : fallbackNode s = .ok (n, s')) :
    L.Covers s'.builder.nodes c n := by
  obtain ⟨rfl, hn⟩ := addNode_spec h
  rw [hn]
  exact .fail (getElem?_append_length _ _)

theorem outcomeNode_covers {arm : DispatchArm TH} (h : outcomeNode arm s = .ok (n, s'))
    (hl : L.leaf c arm.outcome arm.evidence) :
    s.builder.nodes <+: s'.builder.nodes ∧ L.Covers s'.builder.nodes c n := by
  obtain ⟨rfl, hn⟩ := addNode_spec h
  rw [hn]
  exact ⟨List.prefix_append _ _, .outcome (getElem?_append_length _ _) hl⟩

theorem testNode_covers {question : RegionQuestion TH} {onMatch onMiss : GraphNodeId}
    (h : testNode question onMatch onMiss s = .ok (n, s')) (hok : L.ok c question)
    (hyes : L.Covers s.builder.nodes (L.yes c question) onMatch)
    (hno : L.Covers s.builder.nodes (L.no c question) onMiss) :
    s.builder.nodes <+: s'.builder.nodes ∧ L.Covers s'.builder.nodes c n := by
  obtain ⟨rfl, hn⟩ := addNode_spec h
  rw [hn]
  have hp := List.prefix_append s.builder.nodes [question.intoTestNode onMatch onMiss]
  have hat := getElem?_append_length s.builder.nodes (question.intoTestNode onMatch onMiss)
  exact ⟨hp, .test hat hyes.lt_length hno.lt_length hok (hyes.grow hp) (hno.grow hp)⟩

namespace PathLogic

/-- What is known after some questions were answered yes. -/
def yesAll (L : PathLogic TH κ) (c : κ) (qs : List (RegionQuestion TH)) : κ := qs.foldl L.yes c

theorem le_yesAll (c : κ) (qs : List (RegionQuestion TH)) : c ≤ L.yesAll c qs := by
  induction qs generalizing c with
  | nil => exact le_refl c
  | cons q qs ih => exact le_trans L.le_yes (ih (L.yes c q))

theorem Arm.split {o : OutcomeId} {evidence : EdgeEvidence TH} {q : RegionQuestion TH}
    {before qs : List (RegionQuestion TH)} {c : κ} (h : L.Arm o evidence c (before ++ q :: qs)) :
    L.ok (L.yesAll c before) q ∧ L.yesAll c before ≤ L.no (L.yesAll c before) q := by
  induction before generalizing c with
  | nil => exact ⟨h.1, h.2.1⟩
  | cons _ _ ih => exact ih h.2.2

theorem Arm.leaf_yesAll {o : OutcomeId} {evidence : EdgeEvidence TH}
    {qs : List (RegionQuestion TH)} {c : κ} (h : L.Arm o evidence c qs) :
    L.leaf (L.yesAll c qs) o evidence := by
  induction qs generalizing c with
  | nil => exact h
  | cons _ _ ih => exact ih h.2.2

end PathLogic

theorem compileSingleArm_covers {arm : ArmCompileState TH} {onMiss : GraphNodeId}
    (h : compileSingleArm arm onMiss s = .ok (n, s'))
    (harm : L.Arm arm.arm.outcome arm.arm.evidence c arm.questions)
    (hmiss : L.Covers s.builder.nodes c onMiss) :
    s.builder.nodes <+: s'.builder.nodes ∧ L.Covers s'.builder.nodes c n := by
  obtain ⟨out, s₁, hout, hfold⟩ := StateT.bind_eq_ok.mp h
  obtain ⟨hp, hcov⟩ := outcomeNode_covers hout harm.leaf_yesAll
  -- The fold runs from the last question to the first; `done` are those already tested.
  have key := StateT.foldlM_rel
    (P := fun todo current t => s.builder.nodes <+: t.builder.nodes ∧
      ∃ done, arm.questions = todo.reverse ++ done ∧
        L.Covers t.builder.nodes (L.yesAll c todo.reverse) current)
    ?_ ⟨hp, [], by simp, by simpa using hcov⟩ hfold
  · obtain ⟨hp', done, _, hcov'⟩ := key
    exact ⟨hp', hcov'⟩
  · intro question todo current t next t' hinv hstep
    obtain ⟨hpt, done, hq, hcur⟩ := hinv
    rw [List.reverse_cons, List.append_assoc, List.singleton_append] at hq
    rw [List.reverse_cons, PathLogic.yesAll, List.foldl_append] at hcur
    rw [hq] at harm
    obtain ⟨hok, hno⟩ := harm.split
    have hmiss' := (hmiss.grow hpt).mono (le_trans (PathLogic.le_yesAll c todo.reverse) hno)
    obtain ⟨hpt', hcov'⟩ := testNode_covers hstep hok hcur hmiss'
    exact ⟨hpt.trans hpt', question :: done, hq, hcov'⟩

theorem PathLogic.Arm.strip {question : RegionQuestion TH} {arm : ArmCompileState TH}
    (hhead : arm.questions.head? = some question)
    (h : L.Arm arm.arm.outcome arm.arm.evidence c arm.questions) :
    L.Arm arm.strip.arm.outcome arm.strip.arm.evidence (L.yes c question) arm.strip.questions := by
  obtain ⟨more, hq⟩ := List.head?_eq_some_iff.mp hhead
  simp only [ArmCompileState.strip, hq, List.tail_cons]
  rw [hq] at h
  exact h.2.2

variable [DecidableEq TH]

/-- The rule for a sequence of arms. -/
theorem compileArmSequence_covers (arms : List (ArmCompileState TH)) (fallbackId : GraphNodeId) :
    ∀ {n : GraphNodeId} {c : κ} {s s' : CompileState TH},
      compileArmSequence arms fallbackId s = .ok (n, s') →
      (∀ arm ∈ arms, L.Arm arm.arm.outcome arm.arm.evidence c arm.questions) →
      L.Covers s.builder.nodes c fallbackId →
      s.builder.nodes <+: s'.builder.nodes ∧ L.Covers s'.builder.nodes c n := by
  induction arms, fallbackId using compileArmSequence.induct with
  | case1 fallbackId =>
    intro n c s s' h _ hfall
    rw [compileArmSequence_nil, StateT.pure_eq_ok] at h
    obtain ⟨rfl, rfl⟩ := Prod.mk.inj h
    exact ⟨List.prefix_rfl, hfall⟩
  | case2 fallbackId first rest hq =>
    intro n c s s' h harms _
    rw [compileArmSequence_done hq] at h
    have harm := harms first List.mem_cons_self
    rw [hq] at harm
    exact outcomeNode_covers h harm
  | case3 fallbackId first rest question more hq shared hs ihAfter =>
    rename_i ihShared
    intro n c s s' h harms hfall
    rw [compileArmSequence_shared hq hs] at h
    obtain ⟨_, s₀, hmod, h⟩ := StateT.bind_eq_ok.mp h
    cases StateT.modify_eq_ok.mp hmod
    obtain ⟨afterShared, s₁, hafter, h⟩ := StateT.bind_eq_ok.mp h
    obtain ⟨onMatch, s₂, hmatch, htest⟩ := StateT.bind_eq_ok.mp h
    have hfirst := harms first List.mem_cons_self
    rw [hq] at hfirst
    obtain ⟨hp₁, hcov₁⟩ := ihAfter hafter (fun arm ha => harms arm (List.mem_of_mem_drop ha)) hfall
    have hstripped : ∀ arm ∈ ((first :: rest).take shared).map ArmCompileState.strip,
        L.Arm arm.arm.outcome arm.arm.evidence (L.yes c question) arm.questions := by
      intro arm ha
      obtain ⟨arm', ha', rfl⟩ := List.mem_map.mp ha
      exact (harms arm' (List.mem_of_mem_take ha')).strip (head?_of_mem_take_sharedCount arm' ha')
    obtain ⟨hp₂, hcov₂⟩ := ihShared afterShared hmatch hstripped (hcov₁.mono L.le_yes)
    obtain ⟨hp₃, hcov₃⟩ := testNode_covers htest hfirst.1 hcov₂ ((hcov₁.grow hp₂).mono hfirst.2.1)
    exact ⟨hp₁.trans (hp₂.trans hp₃), hcov₃⟩
  | case4 fallbackId first rest question more hq shared hs =>
    rename_i ih
    intro n c s s' h harms hfall
    rw [compileArmSequence_single hq hs] at h
    obtain ⟨onMiss, s₁, hmiss, h⟩ := StateT.bind_eq_ok.mp h
    obtain ⟨hp₁, hcov₁⟩ := ih hmiss (fun arm ha => harms arm (List.mem_cons_of_mem _ ha)) hfall
    obtain ⟨hp₂, hcov₂⟩ := compileSingleArm_covers h (harms first List.mem_cons_self) hcov₁
    exact ⟨hp₁.trans hp₂, hcov₂⟩

theorem compileOrderedArms_covers {arms : List (DispatchArm TH)} {subjects : List Subject}
    {inputs : PlanInputs} {compiled : CompiledDispatchGraph TH}
    (h : compileOrderedArms arms subjects inputs = .ok compiled)
    (harms : ∀ arm ∈ arms, L.Arm arm.outcome arm.evidence c arm.questions) :
    L.Covers compiled.graph.nodes c compiled.graph.root := by
  obtain ⟨⟨fallback, s₁⟩, hfall, h⟩ := Except.bind_eq_ok.mp h
  obtain ⟨⟨root, s₂⟩, hseq, h⟩ := Except.bind_eq_ok.mp h
  obtain ⟨graph, hbuild, h⟩ := Except.bind_eq_ok.mp h
  cases h
  obtain ⟨hg, rfl⟩ := build_spec hbuild
  rw [hg]
  refine (compileArmSequence_covers _ _ hseq ?_ (fallbackNode_covers c hfall)).2
  intro arm ha
  obtain ⟨arm', ha', rfl⟩ := List.mem_map.mp ha
  exact harms arm' ha'

end Compile

/-! ## What every added node keeps -/

section Keeps

variable {P : DispatchGraphBuilder TH → Prop} {s s' : CompileState TH} {n : GraphNodeId}
  (hstep : ∀ {b b' : DispatchGraphBuilder TH} {node : DispatchNode TH} {n : GraphNodeId},
    P b → b.addNode node = .ok (n, b') → P b')

include hstep

theorem addNode_keeps {node : DispatchNode TH}
    {count : DispatchCompileStats → DispatchCompileStats} (h : addNode node count s = .ok (n, s'))
    (hs : P s.builder) : P s'.builder := by
  obtain ⟨⟨m, b⟩, hadd, h⟩ := Except.bind_eq_ok.mp h
  cases h
  exact hstep hs hadd

theorem compileSingleArm_keeps {arm : ArmCompileState TH} {onMiss : GraphNodeId}
    (h : compileSingleArm arm onMiss s = .ok (n, s')) (hs : P s.builder) : P s'.builder := by
  obtain ⟨out, s₁, hout, hfold⟩ := StateT.bind_eq_ok.mp h
  refine StateT.foldlM_rel (P := fun _ _ t => P t.builder) ?_ (addNode_keeps hstep hout hs) hfold
  intro question todo current t next t' ht htest
  exact addNode_keeps hstep htest ht

variable [DecidableEq TH]

theorem compileArmSequence_keeps (arms : List (ArmCompileState TH)) (fallbackId : GraphNodeId) :
    ∀ {n : GraphNodeId} {s s' : CompileState TH},
      compileArmSequence arms fallbackId s = .ok (n, s') → P s.builder → P s'.builder := by
  induction arms, fallbackId using compileArmSequence.induct with
  | case1 fallbackId =>
    intro n s s' h hs
    rw [compileArmSequence_nil, StateT.pure_eq_ok] at h
    obtain ⟨rfl, rfl⟩ := Prod.mk.inj h
    exact hs
  | case2 fallbackId first rest hq =>
    intro n s s' h hs
    rw [compileArmSequence_done hq] at h
    exact addNode_keeps hstep h hs
  | case3 fallbackId first rest question more hq shared hs ihAfter =>
    rename_i ihShared
    intro n s s' h hs'
    rw [compileArmSequence_shared hq hs] at h
    obtain ⟨_, s₀, hmod, h⟩ := StateT.bind_eq_ok.mp h
    cases StateT.modify_eq_ok.mp hmod
    obtain ⟨afterShared, s₁, hafter, h⟩ := StateT.bind_eq_ok.mp h
    obtain ⟨onMatch, s₂, hmatch, htest⟩ := StateT.bind_eq_ok.mp h
    exact addNode_keeps hstep htest (ihShared afterShared hmatch (ihAfter hafter hs'))
  | case4 fallbackId first rest question more hq shared hs =>
    rename_i ih
    intro n s s' h hs'
    rw [compileArmSequence_single hq hs] at h
    obtain ⟨onMiss, s₁, hmiss, h⟩ := StateT.bind_eq_ok.mp h
    exact compileSingleArm_keeps hstep h (ih hmiss hs')

theorem compileOrderedArms_keeps {arms : List (DispatchArm TH)} {subjects : List Subject}
    {inputs : PlanInputs} {compiled : CompiledDispatchGraph TH}
    (h : compileOrderedArms arms subjects inputs = .ok compiled)
    (hstart : P (.typed subjects inputs)) :
    ∃ b, P b ∧ compiled.graph.subjects = b.subjects ∧ compiled.graph.nodes = b.nodes ∧
      compiled.graph.inputDemand = b.inputDemand := by
  obtain ⟨⟨fallback, s₁⟩, hfall, h⟩ := Except.bind_eq_ok.mp h
  obtain ⟨⟨root, s₂⟩, hseq, h⟩ := Except.bind_eq_ok.mp h
  obtain ⟨graph, hbuild, h⟩ := Except.bind_eq_ok.mp h
  cases h
  obtain ⟨_, _, hbuild⟩ := Except.bind_eq_ok.mp hbuild
  obtain ⟨_, _, hbuild⟩ := Except.bind_eq_ok.mp hbuild
  obtain ⟨_, _, hbuild⟩ := Except.bind_eq_ok.mp hbuild
  cases hbuild
  exact ⟨s₂.builder, compileArmSequence_keeps hstep _ _ hseq (addNode_keeps hstep hfall hstart),
    rfl, rfl, rfl⟩

end Keeps

theorem compileOrderedArms_subjects [DecidableEq TH] {arms : List (DispatchArm TH)}
    {subjects : List Subject} {inputs : PlanInputs} {compiled : CompiledDispatchGraph TH}
    (h : compileOrderedArms arms subjects inputs = .ok compiled) :
    compiled.graph.subjects = subjects := by
  have hstep : ∀ {b b' : DispatchGraphBuilder TH} {node : DispatchNode TH} {n : GraphNodeId},
      b.subjects = subjects → b.addNode node = .ok (n, b') → b'.subjects = subjects := by
    intro b b' node n hb hadd
    obtain ⟨c, hc, hadd⟩ := Except.bind_eq_ok.mp hadd
    cases hadd
    exact (DispatchGraphBuilder.chargeNode_onlyDemand hc).subjects.trans hb
  obtain ⟨b, hb, hsubjects, _, _⟩ := compileOrderedArms_keeps
    (P := fun b => b.subjects = subjects) hstep h rfl
  exact hsubjects.trans hb

end Fz.Dispatch
