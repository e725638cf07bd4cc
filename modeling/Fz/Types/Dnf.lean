import Mathlib.Data.List.Basic
import Mathlib.Tactic.Push

/-!
# Disjunctive normal forms

One conjunctive clause is a list of positive and a list of negated factors; a normal form is a
list of clauses.  Union concatenates, intersection takes the product of the clauses, negation
distributes; duplicates are dropped on the way, and so is a clause that holds a factor both
positively and negatively.

Nothing here knows what a factor means.  For any reading `m` of the factors the three operations
are union, intersection and complement of the readings (`holds_dnfUnion`, `holds_dnfIntersect`,
`holds_dnfNeg`), and they invent no factor (`Each`).
-/

namespace Fz.Types

/-- `⋀ pos ∧ ⋀ ¬ neg`. -/
structure Conj (T : Type) where
  pos : List T
  neg : List T
  deriving DecidableEq

namespace Conj

variable {T : Type}

/-- The clause that constrains nothing. -/
def top : Conj T := ⟨[], []⟩

def posOf (t : T) : Conj T := ⟨[t], []⟩

def isTop (c : Conj T) : Bool := c.pos.isEmpty && c.neg.isEmpty

end Conj

variable {T : Type} [DecidableEq T]

/-- Append an element that is not there yet. -/
def pushNew (out : List T) (x : T) : List T := if x ∈ out then out else out ++ [x]

def dnfUnion (a b : List (Conj T)) : List (Conj T) :=
  let out := a.foldl pushNew []
  b.foldl pushNew out

def mergeClauses (a b : Conj T) : Conj T :=
  ⟨b.pos.foldl pushNew a.pos, b.neg.foldl pushNew a.neg⟩

/-- Whether a clause has a factor on both sides. -/
def Conj.contradicts (c : Conj T) : Bool := c.pos.any (fun p => p ∈ c.neg)

def dnfIntersectWith (a b : List (Conj T)) (merge : Conj T → Conj T → Option (Conj T)) :
    List (Conj T) :=
  a.foldl (fun out c1 => b.foldl (fun out c2 =>
    match merge c1 c2 with
    | none => out
    | some merged => if merged.contradicts then out else pushNew out merged) out) []

def dnfIntersect (a b : List (Conj T)) : List (Conj T) :=
  dnfIntersectWith a b fun c1 c2 => some (mergeClauses c1 c2)

/-- One single-factor clause for each way a clause can fail. -/
def negClause (c : Conj T) : List (Conj T) :=
  c.pos.map (fun p => ⟨[], [p]⟩) ++ c.neg.map (fun n => ⟨[n], []⟩)

/-- The negation loop: `acc` excludes the clauses `seen`, a clause seen before is skipped. -/
def dnfNegFrom (acc seen : List (Conj T)) : List (Conj T) → List (Conj T)
  | [] => acc
  | c :: cs =>
    if c ∈ seen then dnfNegFrom acc seen cs
    else dnfNegFrom (dnfIntersect acc (negClause c)) (seen ++ [c]) cs

def dnfNeg (d : List (Conj T)) : List (Conj T) := dnfNegFrom [Conj.top] [] d

def isDnfTop (d : List (Conj T)) : Bool :=
  match d with
  | [c] => c.isTop
  | _ => false

/-! ## Which clauses there are -/

theorem mem_pushNew {out : List T} {x y : T} : y ∈ pushNew out x ↔ y ∈ out ∨ y = x := by
  unfold pushNew
  split
  · constructor
    · exact .inl
    · rintro (h | rfl)
      · exact h
      · assumption
  · rw [List.mem_append, List.mem_singleton]

theorem mem_foldl {S A : Type} {step : List S → A → List S} {P : A → S → Prop}
    (hstep : ∀ out a s, s ∈ step out a ↔ s ∈ out ∨ P a s) : ∀ (as : List A) (out : List S) (s : S),
      s ∈ as.foldl step out ↔ s ∈ out ∨ ∃ a ∈ as, P a s := by
  intro as
  induction as with
  | nil => intro out s; simp
  | cons a as ih =>
    intro out s
    rw [List.foldl_cons, ih, hstep, or_assoc]
    simp only [List.mem_cons, exists_eq_or_imp]

theorem mem_foldl_pushNew {xs out : List T} {y : T} :
    y ∈ xs.foldl pushNew out ↔ y ∈ out ∨ y ∈ xs := by
  rw [mem_foldl (P := fun x y => y = x) (fun out x y => mem_pushNew)]
  simp

variable {a b : List (Conj T)}

theorem mem_dnfUnion {c : Conj T} : c ∈ dnfUnion a b ↔ c ∈ a ∨ c ∈ b := by
  simp only [dnfUnion, mem_foldl_pushNew, List.not_mem_nil, false_or]

theorem mem_dnfIntersect {c : Conj T} : c ∈ dnfIntersect a b ↔
      ∃ c1 ∈ a, ∃ c2 ∈ b, c = mergeClauses c1 c2 ∧ c.contradicts = false := by
  have hinner : ∀ (c1 : Conj T) (out : List (Conj T)) (c2 c : Conj T),
      c ∈ (if (mergeClauses c1 c2).contradicts then out else pushNew out (mergeClauses c1 c2)) ↔
        c ∈ out ∨ (c = mergeClauses c1 c2 ∧ c.contradicts = false) := by
    intro c1 out c2 c
    split
    · rename_i h
      constructor
      · exact .inl
      · rintro (hc | ⟨rfl, hc⟩)
        · exact hc
        · rw [h] at hc
          exact nomatch hc
    · rename_i h
      rw [mem_pushNew]
      constructor
      · rintro (hc | rfl)
        · exact .inl hc
        · exact .inr ⟨rfl, by simpa using h⟩
      · rintro (hc | ⟨hc, -⟩)
        · exact .inl hc
        · exact .inr hc
  rw [dnfIntersect, dnfIntersectWith,
    mem_foldl (fun out c1 c => mem_foldl (fun out c2 c => hinner c1 out c2 c) b out c)]
  simp only [List.not_mem_nil, false_or]

/-! ## Readings -/

variable (m : T → Prop)

/-- A clause holds under a reading of its factors. -/
def Conj.Holds (c : Conj T) : Prop := (∀ p ∈ c.pos, m p) ∧ ∀ n ∈ c.neg, ¬m n

/-- A normal form holds when one of its clauses does. -/
def DnfHolds (d : List (Conj T)) : Prop := ∃ c ∈ d, c.Holds m

variable {m}

theorem holds_mergeClauses {a b : Conj T} : (mergeClauses a b).Holds m ↔ a.Holds m ∧ b.Holds m := by
  simp only [Conj.Holds, mergeClauses, mem_foldl_pushNew]
  constructor
  · rintro ⟨hp, hn⟩
    exact ⟨⟨fun p h => hp p (.inl h), fun n h => hn n (.inl h)⟩,
      ⟨fun p h => hp p (.inr h), fun n h => hn n (.inr h)⟩⟩
  · rintro ⟨⟨hap, han⟩, ⟨hbp, hbn⟩⟩
    exact ⟨fun p h => h.elim (hap p) (hbp p), fun n h => h.elim (han n) (hbn n)⟩

theorem Conj.Holds.contradicts_eq_false {c : Conj T} (h : c.Holds m) : c.contradicts = false := by
  simp only [contradicts, List.any_eq_false, decide_eq_true_eq]
  exact fun p hp hn => h.2 p hn (h.1 p hp)

theorem holds_dnfUnion : DnfHolds m (dnfUnion a b) ↔ DnfHolds m a ∨ DnfHolds m b := by
  simp only [DnfHolds, mem_dnfUnion, or_and_right, exists_or]

theorem holds_dnfIntersect : DnfHolds m (dnfIntersect a b) ↔ DnfHolds m a ∧ DnfHolds m b := by
  simp only [DnfHolds, mem_dnfIntersect]
  constructor
  · rintro ⟨c, ⟨c1, h1, c2, h2, rfl, -⟩, hc⟩
    obtain ⟨ha, hb⟩ := holds_mergeClauses.mp hc
    exact ⟨⟨c1, h1, ha⟩, ⟨c2, h2, hb⟩⟩
  · rintro ⟨⟨c1, h1, ha⟩, ⟨c2, h2, hb⟩⟩
    have hc := holds_mergeClauses.mpr ⟨ha, hb⟩
    exact ⟨_, ⟨c1, h1, c2, h2, rfl, hc.contradicts_eq_false⟩, hc⟩

omit [DecidableEq T] in
theorem holds_negClause {c : Conj T} : DnfHolds m (negClause c) ↔ ¬c.Holds m := by
  simp only [DnfHolds, negClause, List.mem_append, List.mem_map, Conj.Holds]
  constructor
  · rintro ⟨_, ⟨p, hp, rfl⟩ | ⟨n, hn, rfl⟩, hc⟩ ⟨hpos, hneg⟩
    · exact hc.2 p (.head _) (hpos p hp)
    · exact hneg n hn (hc.1 n (.head _))
  · intro h
    rw [not_and_or] at h
    push Not at h
    rcases h with ⟨p, hp, hm⟩ | ⟨n, hn, hm⟩
    · exact ⟨_, .inl ⟨p, hp, rfl⟩, by simp, by simpa using hm⟩
    · exact ⟨_, .inr ⟨n, hn, rfl⟩, by simpa using hm, by simp⟩

theorem holds_dnfNegFrom : ∀ (ds acc seen : List (Conj T)),
    (DnfHolds m acc ↔ ∀ c ∈ seen, ¬c.Holds m) →
    (DnfHolds m (dnfNegFrom acc seen ds) ↔ ∀ c, c ∈ seen ∨ c ∈ ds → ¬c.Holds m) := by
  intro ds
  induction ds with
  | nil =>
    intro acc seen hacc
    simpa [dnfNegFrom] using hacc
  | cons d ds ih =>
    intro acc seen hacc
    rw [dnfNegFrom]
    split
    · rename_i hmem
      rw [ih acc seen hacc]
      constructor
      · rintro h c (hc | hc)
        · exact h c (.inl hc)
        · rcases List.mem_cons.mp hc with rfl | hc
          · exact h c (.inl hmem)
          · exact h c (.inr hc)
      · rintro h c (hc | hc)
        · exact h c (.inl hc)
        · exact h c (.inr (.tail _ hc))
    · rw [ih (dnfIntersect acc (negClause d)) (seen ++ [d])]
      · simp only [List.mem_append, List.mem_cons, List.not_mem_nil, false_or, or_assoc]
      · rw [holds_dnfIntersect, holds_negClause, hacc]
        simp only [List.mem_append, List.mem_singleton]
        constructor
        · rintro ⟨hs, hd⟩ c (hc | rfl)
          · exact hs c hc
          · exact hd
        · intro h
          exact ⟨fun c hc => h c (.inl hc), h d (.inr rfl)⟩

theorem holds_dnfNeg {d : List (Conj T)} : DnfHolds m (dnfNeg d) ↔ ¬DnfHolds m d := by
  rw [dnfNeg, holds_dnfNegFrom d [Conj.top] [] (by simp [DnfHolds, Conj.Holds, Conj.top])]
  simp [DnfHolds]

/-! ## Where factors come from -/

/-- Every factor of a normal form has a property. -/
def Each (P : T → Prop) (d : List (Conj T)) : Prop :=
  ∀ c ∈ d, (∀ p ∈ c.pos, P p) ∧ ∀ n ∈ c.neg, P n

variable {P : T → Prop}

theorem Each.dnfUnion (ha : Each P a) (hb : Each P b) : Each P (dnfUnion a b) := by
  intro c hc
  exact (mem_dnfUnion.mp hc).elim (ha c) (hb c)

theorem Each.dnfIntersect (ha : Each P a) (hb : Each P b) : Each P (dnfIntersect a b) := by
  intro c hc
  obtain ⟨c1, h1, c2, h2, rfl, -⟩ := mem_dnfIntersect.mp hc
  simp only [mergeClauses, mem_foldl_pushNew]
  exact ⟨fun p hp => hp.elim ((ha c1 h1).1 p) ((hb c2 h2).1 p),
    fun n hn => hn.elim ((ha c1 h1).2 n) ((hb c2 h2).2 n)⟩

omit [DecidableEq T] in
theorem Each.negClause {c : Conj T} (h : Each P [c]) : Each P (negClause c) := by
  intro c' hc'
  simp only [Types.negClause, List.mem_append, List.mem_map] at hc'
  rcases hc' with ⟨p, hp, rfl⟩ | ⟨n, hn, rfl⟩
  · simpa using (h c (.head _)).1 p hp
  · simpa using (h c (.head _)).2 n hn

theorem Each.dnfNegFrom : ∀ {ds acc seen : List (Conj T)}, Each P ds → Each P acc →
    Each P (dnfNegFrom acc seen ds) := by
  intro ds
  induction ds with
  | nil => exact fun _ hacc => hacc
  | cons d ds ih =>
    intro acc seen hds hacc
    have hrest : Each P ds := fun c hc => hds c (.tail _ hc)
    have hd : Each P [d] := by
      intro c hc
      rw [List.mem_singleton] at hc
      exact hds c (hc ▸ .head _)
    rw [Types.dnfNegFrom]
    split
    · exact ih hrest hacc
    · exact ih hrest (hacc.dnfIntersect hd.negClause)

theorem Each.dnfNeg {d : List (Conj T)} (h : Each P d) : Each P (dnfNeg d) :=
  Each.dnfNegFrom h (by simp [Each, Conj.top])

end Fz.Types
