import Fz.Dispatch.Covers
import Fz.Dispatch.Producer
import Mathlib.Data.Set.Insert
import Mathlib.Data.Set.BooleanAlgebra
import Mathlib.Order.CompletePartialOrder

/-!
# What a path has established

A question reads its subject out of the value the subject's source has, so the source has to have
the shape the projection needs.  `Establishes` says which question, answered yes, makes a
projection safe, and `Grounded` that a subject and everything it is projected from are safe under
the questions answered yes so far.  `AskOk` is what a question needs: its reads are grounded, and
what its match edge projects is made safe by its own answer.

`groundedLogic` carries this along the paths of a graph: a yes adds its question, a no adds nothing
and takes nothing away.
-/

namespace Fz.Dispatch

open Fz.Base

variable {TH D : Type}

/-! ## Safe projections -/

/-- Whether a region, answered yes of a source, makes a projection of that source safe. -/
def Region.Allows (s : SubjectId) : Region TH → ProjectionKind → Prop
  | .tupleArity arity, .tupleField index => index < arity
  | .type _, .structField _ => True
  | .list .cons, .listHead => True
  | .list .cons, .listTail => True
  | .mapKeyPresent key, .mapValue key' => key' = key
  | .bitstring shape, .bitstringField _ => s ∈ shape.fields
  | _, _ => False

/-- A question whose yes makes a subject safe: it is about the subject's source, its region allows
the projection, and its match edge projects the subject. -/
def Establishes (subjects : List Subject) (q : RegionQuestion TH) (s : SubjectId) : Prop :=
  ∃ id kind, subjects[s]? = some ⟨id, .projection ⟨q.predicate.subject, kind⟩⟩ ∧
    q.predicate.region.Allows s kind ∧ s ∈ q.matchEvidence.projections

/-- A subject that is an input, or safe after the questions of `yes`, with everything it is
projected from. -/
inductive Grounded (subjects : List Subject) (yes : Set (RegionQuestion TH)) : SubjectId → Prop
    where
  | input {s id ordinal} : subjects[s]? = some ⟨id, .input ordinal⟩ → Grounded subjects yes s
  | projected {s q} : q ∈ yes → Establishes subjects q s →
      Grounded subjects yes q.predicate.subject → Grounded subjects yes s

/-- A subject is made after the subject it is projected from, and a field after the field before
it. -/
def InOrder (subjects : List Subject) : Prop :=
  ∀ (s id source : SubjectId) (kind : ProjectionKind),
    subjects[s]? = some ⟨id, .projection ⟨source, kind⟩⟩ → source < s ∧
      ∀ extraction, kind = .bitstringField extraction → ∀ g, extraction.previous = some g → g < s

/-- The fields of a bitstring pattern over `x`, each named by the field before it, and sized by
fields before it.  `done` are the fields already read. -/
def FieldChain (subjects : List Subject) (x : SubjectId) : List SubjectId → List SubjectId → Prop
  | _, [] => True
  | done, f :: fs =>
    (∃ id extraction, subjects[f]? = some ⟨id, .projection ⟨x, .bitstringField extraction⟩⟩ ∧
      extraction.previous = done.getLast? ∧
      ∀ g, extraction.spec.size = some (.binding g) → g ∈ done) ∧
    FieldChain subjects x (done ++ [f]) fs

/-! ## What questions and leaves need -/

def GuardLeaf.subject? (leaf : GuardLeaf) : Option SubjectId :=
  match leaf with
  | subject id => some id
  | pinned _ => none

/-- The subjects a question reads.  A guard rides a carrier it need not read. -/
def questionReads (guards : List (PatternGuardExpr D)) (q : RegionQuestion TH) : List SubjectId :=
  match q.predicate.region with
  | .guard guard =>
    match guards[guard]? with
    | some expr => expr.leaves.filterMap GuardLeaf.subject?
    | none => []
  | _ => [q.predicate.subject]

/-- What a question needs of the questions answered yes before it. -/
structure AskOk (subjects : List Subject) (guards : List (PatternGuardExpr D))
    (yes : Set (RegionQuestion TH)) (q : RegionQuestion TH) : Prop where
  reads : ∀ s ∈ questionReads guards q, Grounded subjects yes s
  projects : ∀ s ∈ q.matchEvidence.projections, Establishes subjects q s
  miss : q.missEvidence.projections = []
  chain : ∀ shape, q.predicate.region = .bitstring shape →
    FieldChain subjects q.predicate.subject [] shape.fields
  guard : ∀ g, q.predicate.region = .guard g → g < guards.length

/-- What a leaf needs: nothing is projected at it, and what its outcome binds is grounded. -/
structure LeafOk (subjects : List Subject) (outcomes : List PatternDispatchOutcome)
    (yes : Set (RegionQuestion TH)) (o : OutcomeId) (evidence : EdgeEvidence TH) : Prop where
  projections : evidence.projections = []
  outcome : o < outcomes.length
  bindings : ∀ outcome, outcomes[o]? = some outcome →
    ∀ b ∈ outcome.bindings, Grounded subjects yes b.source

/-! ## Monotonicity -/

section Mono

variable {subjects subjects' : List Subject} {yes yes' : Set (RegionQuestion TH)}

variable {q : RegionQuestion TH}

theorem Establishes.grow {s : SubjectId} (h : Establishes subjects q s)
    (hp : subjects <+: subjects') : Establishes subjects' q s := by
  obtain ⟨id, kind, hs, hallows, hmem⟩ := h
  exact ⟨id, kind, getElem?_grow hp hs, hallows, hmem⟩

theorem Grounded.grow {s : SubjectId} (h : Grounded subjects yes s) (hp : subjects <+: subjects') :
    Grounded subjects' yes s := by
  induction h with
  | input hs => exact .input (getElem?_grow hp hs)
  | projected hq he _ ih => exact .projected hq (he.grow hp) ih

theorem Grounded.mono {s : SubjectId} (h : Grounded subjects yes s) (hy : yes ⊆ yes') :
    Grounded subjects yes' s := by
  induction h with
  | input hs => exact .input hs
  | projected hq he _ ih => exact .projected (hy hq) he ih

theorem Grounded.of_establishes {s : SubjectId}
    (he : Establishes subjects q s) (hq : Grounded subjects yes q.predicate.subject) :
    Grounded subjects (insert q yes) s :=
  .projected (Set.mem_insert ..) he (hq.mono (Set.subset_insert ..))

theorem FieldChain.grow {x : SubjectId} {done fields : List SubjectId}
    (h : FieldChain subjects x done fields) (hp : subjects <+: subjects') :
    FieldChain subjects' x done fields := by
  induction fields generalizing done with
  | nil => exact h
  | cons f fs ih =>
    obtain ⟨⟨id, extraction, hs, hprev, hsize⟩, hrest⟩ := h
    exact ⟨⟨id, extraction, getElem?_grow hp hs, hprev, hsize⟩, ih hrest⟩

variable {guards : List (PatternGuardExpr D)} {outcomes : List PatternDispatchOutcome}

theorem AskOk.mono (h : AskOk subjects guards yes q) (hy : yes ⊆ yes') :
    AskOk subjects guards yes' q :=
  { h with reads := fun s hs => (h.reads s hs).mono hy }

theorem AskOk.grow (h : AskOk subjects guards yes q)
    (hp : subjects <+: subjects') : AskOk subjects' guards yes q where
  reads s hs := (h.reads s hs).grow hp
  projects s hs := (h.projects s hs).grow hp
  miss := h.miss
  chain shape hr := (h.chain shape hr).grow hp
  guard := h.guard

theorem AskOk.grow_guards {guards' : List (PatternGuardExpr D)}
    (h : AskOk subjects guards yes q) (hg : guards <+: guards') : AskOk subjects guards' yes q := by
  have hreads : questionReads guards' q = questionReads guards q := by
    unfold questionReads
    split
    next g hr => rw [getElem?_grow hg (List.getElem?_eq_getElem (h.guard g hr)),
      List.getElem?_eq_getElem (h.guard g hr)]
    next => rfl
  exact { h with
    reads := fun s hs => h.reads s (hreads ▸ hs)
    guard := fun g hr => Nat.lt_of_lt_of_le (h.guard g hr) hg.length_le }

theorem LeafOk.mono {o : OutcomeId} {evidence : EdgeEvidence TH}
    (h : LeafOk subjects outcomes yes o evidence) (hy : yes ⊆ yes') :
    LeafOk subjects outcomes yes' o evidence :=
  { h with bindings := fun outcome ho b hb => (h.bindings outcome ho b hb).mono hy }

theorem LeafOk.grow {outcomes' : List PatternDispatchOutcome} {o : OutcomeId}
    {evidence : EdgeEvidence TH} (h : LeafOk subjects outcomes yes o evidence)
    (hp : subjects <+: subjects') (ho : outcomes <+: outcomes') :
    LeafOk subjects' outcomes' yes o evidence where
  projections := h.projections
  outcome := Nat.lt_of_lt_of_le h.outcome ho.length_le
  bindings outcome hget b hb := by
    have hold := List.getElem?_eq_getElem h.outcome
    rw [getElem?_grow ho hold] at hget
    exact (h.bindings outcome (hold.trans hget) b hb).grow hp

end Mono

theorem AskOk.grounded_subject {subjects : List Subject} {guards : List (PatternGuardExpr D)}
    {yes : Set (RegionQuestion TH)} {q : RegionQuestion TH} {s : SubjectId}
    (h : AskOk subjects guards yes q) (hs : s ∈ q.matchEvidence.projections) :
    Grounded subjects yes q.predicate.subject := by
  obtain ⟨_, kind, _, hallows, _⟩ := h.projects s hs
  refine h.reads _ ?_
  unfold questionReads
  split
  next g hr => simp [hr, Region.Allows] at hallows
  next => exact List.mem_cons_self

theorem AskOk.grounded_projection {subjects : List Subject} {guards : List (PatternGuardExpr D)}
    {yes : Set (RegionQuestion TH)} {q : RegionQuestion TH} {s : SubjectId}
    (h : AskOk subjects guards yes q) (hs : s ∈ q.matchEvidence.projections) :
    Grounded subjects (insert q yes) s :=
  .of_establishes (h.projects s hs) (h.grounded_subject hs)

theorem insert_mono {c c' : Set (RegionQuestion TH)} {q : RegionQuestion TH} (hc : c ≤ c') :
    insert q c ≤ insert q c' := Set.insert_subset_insert hc

theorem le_insert {c : Set (RegionQuestion TH)} {q : RegionQuestion TH} : c ≤ insert q c :=
  Set.subset_insert q c

/-- The questions answered yes on the way. -/
def groundedLogic (subjects : List Subject) (guards : List (PatternGuardExpr D))
    (outcomes : List PatternDispatchOutcome) : PathLogic TH (Set (RegionQuestion TH)) where
  ok := AskOk subjects guards
  leaf := LeafOk subjects outcomes
  yes c q := insert q c
  no c _ := c
  ok_mono hc h := h.mono hc
  leaf_mono hc h := h.mono hc
  yes_mono hc := insert_mono hc
  no_mono hc := hc
  le_yes := @fun _ _ => le_insert

theorem groundedArm_grow {subjects subjects' : List Subject}
    {guards guards' : List (PatternGuardExpr D)} {outcomes outcomes' : List PatternDispatchOutcome}
    {o : OutcomeId} {evidence : EdgeEvidence TH} {yes : Set (RegionQuestion TH)}
    {qs : List (RegionQuestion TH)}
    (h : (groundedLogic subjects guards outcomes).Arm o evidence yes qs)
    (hp : subjects <+: subjects') (hg : guards <+: guards') (ho : outcomes <+: outcomes') :
    (groundedLogic subjects' guards' outcomes').Arm o evidence yes qs := by
  induction qs generalizing yes with
  | nil => exact LeafOk.grow h hp ho
  | cons q qs ih => exact ⟨(h.1.grow hp).grow_guards hg, h.2.1, ih h.2.2⟩

/-! ## Paths -/

/-- A path from the root to a node, with the questions it answers yes. -/
inductive Reaches (nodes : List (DispatchNode TH)) (root : GraphNodeId) :
    Set (RegionQuestion TH) → GraphNodeId → Prop where
  | start : Reaches nodes root ∅ root
  | yes {answered n predicate onMatch onMiss} : Reaches nodes root answered n →
      nodes[n]? = some (.test predicate onMatch onMiss) →
      Reaches nodes root (insert (askedQuestion predicate onMatch onMiss) answered) onMatch.target
  | no {answered n predicate onMatch onMiss} : Reaches nodes root answered n →
      nodes[n]? = some (.test predicate onMatch onMiss) →
      Reaches nodes root answered onMiss.target

section Paths

variable {nodes : List (DispatchNode TH)} {subjects : List Subject}
  {guards : List (PatternGuardExpr D)} {outcomes : List PatternDispatchOutcome}
  {yes : Set (RegionQuestion TH)} {n root : GraphNodeId}

theorem covers_test_inv {predicate : RegionPredicate TH} {onMatch onMiss : DispatchEdge TH}
    (h : (groundedLogic subjects guards outcomes).Covers nodes yes n)
    (hn : nodes[n]? = some (.test predicate onMatch onMiss)) :
    AskOk subjects guards yes (askedQuestion predicate onMatch onMiss) ∧
      (groundedLogic subjects guards outcomes).Covers nodes
        (insert (askedQuestion predicate onMatch onMiss) yes) onMatch.target ∧
      (groundedLogic subjects guards outcomes).Covers nodes yes onMiss.target := by
  cases h with
  | fail hn' => simp [hn'] at hn
  | outcome hn' => simp [hn'] at hn
  | test hn' _ _ hok hyes hno =>
    rw [hn, Option.some.injEq, DispatchNode.test.injEq] at hn'
    obtain ⟨rfl, rfl, rfl⟩ := hn'
    exact ⟨hok, hyes, hno⟩

theorem covers_outcome_inv {o : OutcomeId} {evidence : EdgeEvidence TH}
    (h : (groundedLogic subjects guards outcomes).Covers nodes yes n)
    (hn : nodes[n]? = some (.outcome o evidence)) : LeafOk subjects outcomes yes o evidence := by
  cases h with
  | fail hn' => simp [hn'] at hn
  | outcome hn' hl =>
    rw [hn, Option.some.injEq, DispatchNode.outcome.injEq] at hn'
    obtain ⟨rfl, rfl⟩ := hn'
    exact hl
  | test hn' => simp [hn'] at hn

theorem Reaches.covers (hroot : (groundedLogic subjects guards outcomes).Covers nodes ∅ root)
    (hp : Reaches nodes root yes n) :
    (groundedLogic subjects guards outcomes).Covers nodes yes n := by
  induction hp with
  | start => exact hroot
  | yes _ hn ih => exact (covers_test_inv ih hn).2.1
  | no _ hn ih => exact (covers_test_inv ih hn).2.2

end Paths

end Fz.Dispatch
