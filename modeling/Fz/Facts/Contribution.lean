import Mathlib.Data.List.AList
import Mathlib.Data.List.Dedup
import Mathlib.Data.List.Sort

/-!
# The contribution store

Several publishers contribute a value to one key, and the store keeps the join of what they
contribute beside the contributions.  A publisher that has finished replaces its keys (`conclude`,
`concludeExact`) or adds to them (`concludePreservingFrontier`), and one that waits adds to them
(`extend`).  Every arm goes key by key through `apply`, which answers whether the join moved.

Values and identities are handles into a context that grows as joins intern their results.  A
handle keeps its meaning when the context grows, and a join that is made again finds the handle it
made the first time.  `Store`, `Stored` and the fields of `JoinContribution` say this.

Tables are association lists, whose order stands for the order in which the program's hash tables
are read.
-/

namespace Fz.Facts

/-! ## Contexts -/

/-- A context that only grows. -/
class Store (Ctx : Type) where
  Extends : Ctx → Ctx → Prop
  extends_refl : ∀ c, Extends c c
  extends_trans : ∀ {a b c}, Extends a b → Extends b c → Extends a c

export Store (Extends)

/-- Values whose handles a context has. -/
class Stored (Ctx α : Type) [Store Ctx] where
  Known : Ctx → α → Prop
  known_extends : ∀ {c c' : Ctx} {a : α}, Extends c c' → Known c a → Known c' a

export Stored (Known)

/-- Identities with an order that a run of the compiler does not change. -/
class SemanticOrd (Ctx K : Type) [Store Ctx] [Stored Ctx K] where
  semanticCmp : Ctx → K → K → Ordering
  cmp_extends : ∀ {c c' : Ctx} {a b : K}, Extends c c' → Known c a → Known c b →
    semanticCmp c' a b = semanticCmp c a b

export SemanticOrd (semanticCmp)

/-- A value that composes by monotone join within a context. -/
class JoinContribution (Ctx V : Type) [Store Ctx] [Stored Ctx V] where
  /-- The join of zero contributors. -/
  bottom : V
  joinAssign : Ctx → V → V → V × Ctx
  equivalent : Ctx → V → V → Bool
  known_bottom : ∀ c : Ctx, Known c bottom
  join_extends : ∀ (c : Ctx) (a b : V), Extends c (joinAssign c a b).2
  join_known : ∀ {c : Ctx} {a b : V}, Known c a → Known c b →
    Known (joinAssign c a b).2 (joinAssign c a b).1
  join_again : ∀ {c c' : Ctx} {a b : V}, Known c a → Known c b →
    Extends (joinAssign c a b).2 c' → (joinAssign c' a b).1 = (joinAssign c a b).1
  equivalent_refl : ∀ {c : Ctx} {a : V}, Known c a → equivalent c a a = true
  equivalent_extends : ∀ {c c' : Ctx} {a b : V}, Extends c c' → Known c a → Known c b →
    equivalent c' a b = equivalent c a b

export JoinContribution (bottom joinAssign equivalent)

section Sorting

variable {Ctx K α : Type} [Store Ctx] [Stored Ctx K] [SemanticOrd Ctx K]

/-- A stable sort by the identity of an entry. -/
def semanticSort (ctx : Ctx) (id : α → K) (entries : List α) : List α :=
  entries.insertionSort fun left right => semanticCmp ctx (id left) (id right) ≠ .gt

theorem semanticSort_perm (ctx : Ctx) (id : α → K) (entries : List α) :
    (semanticSort ctx id entries).Perm entries :=
  List.perm_insertionSort _ _

theorem semanticSort_extends {c c' : Ctx} (hc : Extends c c') {id : α → K} {entries : List α}
    (hknown : ∀ e ∈ entries, Known c (id e)) :
    semanticSort c' id entries = semanticSort c id entries := by
  have hsame := List.map_insertionSort
    (fun left right => semanticCmp c (id left) (id right) ≠ .gt)
    (fun left right => semanticCmp c' (id left) (id right) ≠ .gt) (fun e => e) entries
    fun a ha b hb => by rw [SemanticOrd.cmp_extends hc (hknown a ha) (hknown b hb)]
  rw [List.map_id', List.map_id'] at hsame
  exact hsame.symm

end Sorting

/-! ## The store -/

/-- One key's per-publisher contributions and their joined aggregate. -/
structure ContributionSlot (P V : Type) where
  contributors : AList fun _ : P => V
  joined : V

structure ContributionMap (K P V : Type) where
  slots : AList fun _ : K => ContributionSlot P V

/-- The publisher's new output keys, and the keys whose joined aggregate moved. -/
structure ContributionReplace (K : Type) where
  outputKeys : List K
  changedKeys : List K
  deriving DecidableEq

/-- One publisher's entry for a key in a conclusion. -/
inductive SlotEntry (V : Type) where
  | upsert (value : V)
  | withdraw

variable {Ctx K P V : Type} [Store Ctx] [Stored Ctx K] [Stored Ctx P] [Stored Ctx V]
  [DecidableEq K] [DecidableEq P] [SemanticOrd Ctx K] [SemanticOrd Ctx P] [JoinContribution Ctx V]

/-- Install one publisher's contribution.  `join` widens the publisher's prior entry; without it the
entry replaces. -/
def upsertContribution (ctx : Ctx) (contributors : AList fun _ : P => V) (publisher : P) (value : V)
    (join : Bool) : AList (fun _ : P => V) × Ctx :=
  match contributors.lookup publisher with
  | none => (contributors.insert publisher value, ctx)
  | some current =>
    if join then
      let (joined, ctx) := joinAssign ctx current value
      (contributors.insert publisher joined, ctx)
    else (contributors.insert publisher value, ctx)

/-- The contributions after one publisher's entry. -/
def SlotEntry.install (ctx : Ctx) (contributors : AList fun _ : P => V) (publisher : P)
    (entry : SlotEntry V) (join : Bool) : AList (fun _ : P => V) × Ctx :=
  match entry with
  | .upsert value => upsertContribution ctx contributors publisher value join
  | .withdraw => (contributors.erase publisher, ctx)

def joinFrom (joined : V) (ctx : Ctx) : List V → V × Ctx
  | [] => (joined, ctx)
  | value :: values =>
    let (joined, ctx) := joinAssign ctx joined value
    joinFrom joined ctx values

/-- Join every contributor into the key's aggregate. -/
def joinContributions (ctx : Ctx) (contributors : List V) : V × Ctx :=
  joinFrom (bottom Ctx) ctx contributors

/-- The contributions in the order of their publishers. -/
def orderedContributors (ctx : Ctx) (contributors : AList fun _ : P => V) : List V :=
  (semanticSort ctx Sigma.fst contributors.entries).map Sigma.snd

namespace ContributionMap

def new : ContributionMap K P V := ⟨∅⟩

/-- The joined aggregate for a key. -/
def get (map : ContributionMap K P V) (key : K) : Option V :=
  (map.slots.lookup key).map ContributionSlot.joined

/-- What one publisher contributes to a key. -/
def contribution (map : ContributionMap K P V) (key : K) (publisher : P) : Option V :=
  (map.slots.lookup key).bind fun slot => slot.contributors.lookup publisher

/-- Apply one publisher's entry to one key and report whether the joined aggregate moved.  An
emptied slot is dropped. -/
def apply (map : ContributionMap K P V) (ctx : Ctx) (key : K) (publisher : P) (entry : SlotEntry V)
    (join : Bool) : Bool × ContributionMap K P V × Ctx :=
  let slot := (map.slots.lookup key).getD ⟨∅, bottom Ctx⟩
  let rest := map.slots.erase key
  let oldJoined := if slot.contributors.entries.isEmpty then none else some slot.joined
  let (contributors, ctx) := entry.install ctx slot.contributors publisher join
  let (joined, ctx) := joinContributions ctx (orderedContributors ctx contributors)
  let moved := !oldJoined.any fun old => equivalent ctx old joined
  if contributors.entries.isEmpty then (moved, ⟨rest⟩, ctx)
  else
    let slot := ⟨contributors, if moved then joined else slot.joined⟩
    (moved, ⟨rest.insert key slot⟩, ctx)

/-- Apply a publisher's entries in order, collecting the keys whose aggregate moved. -/
def applyAll (publisher : P) (join : Bool) (map : ContributionMap K P V) (ctx : Ctx) :
    List (K × SlotEntry V) → List K × ContributionMap K P V × Ctx
  | [] => ([], map, ctx)
  | (key, entry) :: entries =>
    let (moved, map, ctx) := map.apply ctx key publisher entry join
    let (changed, map, ctx) := applyAll publisher join map ctx entries
    (if moved then key :: changed else changed, map, ctx)

/-- The entry of a key that a conclusion touches. -/
def concludedEntry (next : AList fun _ : K => V) (key : K) : K × SlotEntry V :=
  match next.lookup key with
  | some value => (key, .upsert value)
  | none => (key, .withdraw)

/-- The publisher's keys are replaced: a key that `next` does not list is withdrawn.  The values
join with the publisher's prior ones unless its ground shifted (`rebased`). -/
def conclude (map : ContributionMap K P V) (ctx : Ctx) (publisher : P) (previousOutputKeys : List K)
    (next : AList fun _ : K => V) (rebased : Bool) :
    ContributionReplace K × ContributionMap K P V × Ctx :=
  let touched := semanticSort ctx (fun key => key) (previousOutputKeys ++ next.keys).dedup
  let entries := touched.map (concludedEntry next)
  let (changed, map, ctx) := applyAll publisher (!rebased) map ctx entries
  (⟨next.keys, changed⟩, map, ctx)

/-- Replace this publisher's complete frontier and each listed value. -/
def concludeExact (map : ContributionMap K P V) (ctx : Ctx) (publisher : P)
    (previousOutputKeys : List K) (next : AList fun _ : K => V) :
    ContributionReplace K × ContributionMap K P V × Ctx :=
  map.conclude ctx publisher previousOutputKeys next true

/-- The entries of a table of new values, in the order of their keys. -/
def orderedNext (ctx : Ctx) (next : AList fun _ : K => V) : List (K × SlotEntry V) :=
  (semanticSort ctx Sigma.fst next.entries).map fun entry => (entry.1, .upsert entry.2)

/-- The new values join with the publisher's prior ones, and no key is withdrawn. -/
def concludePreservingFrontier (map : ContributionMap K P V) (ctx : Ctx) (publisher : P)
    (previousOutputKeys : List K) (next : AList fun _ : K => V) :
    ContributionReplace K × ContributionMap K P V × Ctx :=
  let (changed, map, ctx) := applyAll publisher true map ctx (orderedNext ctx next)
  (⟨(previousOutputKeys ++ next.keys).dedup, changed⟩, map, ctx)

/-- The arm of a publisher that waits: it recants nothing. -/
def extend (map : ContributionMap K P V) (ctx : Ctx) (publisher : P) (next : AList fun _ : K => V) :
    ContributionReplace K × ContributionMap K P V × Ctx :=
  if next.entries.isEmpty then (⟨[], []⟩, map, ctx)
  else
    let (changed, map, ctx) := applyAll publisher true map ctx (orderedNext ctx next)
    (⟨next.keys, changed⟩, map, ctx)

end ContributionMap

/-! ## Incoming input slots

The contributions to an input slot are sets of sources, kept sorted. -/

structure IncomingInputSources (σ : Type) where
  sources : List σ
  deriving DecidableEq

namespace IncomingInputSources

variable {σ : Type} [DecidableEq σ] [Stored Ctx σ] [SemanticOrd Ctx σ]

def new (ctx : Ctx) (sources : List σ) : IncomingInputSources σ :=
  ⟨semanticSort ctx (fun source => source) sources⟩

def joinAssign (ctx : Ctx) (self other : IncomingInputSources σ) : IncomingInputSources σ :=
  if other.sources.isEmpty || self = other then self
  else if self.sources.isEmpty then other
  else
    if (self.sources ++ other.sources).dedup.length ≠ self.sources.length then
      new ctx (self.sources ++ other.sources).dedup
    else self

instance : Stored Ctx (IncomingInputSources σ) where
  Known ctx v := ∀ source ∈ v.sources, Known ctx source
  known_extends hc hv source hsource := Stored.known_extends hc (hv source hsource)

theorem joinAssign_known {c : Ctx} {a b : IncomingInputSources σ} (ha : Known c a)
    (hb : Known c b) : Known c (joinAssign c a b) := by
  unfold joinAssign
  split
  · exact ha
  · split
    · exact hb
    · split
      · intro source hsource
        have hmem := (semanticSort_perm c (fun source => source) _).mem_iff.mp hsource
        rcases List.mem_append.mp (List.mem_dedup.mp hmem) with h | h
        · exact ha source h
        · exact hb source h
      · exact ha

theorem joinAssign_extends {c c' : Ctx} {a b : IncomingInputSources σ} (ha : Known c a)
    (hb : Known c b) (hc : Extends c c') : joinAssign c' a b = joinAssign c a b := by
  unfold joinAssign new
  rw [semanticSort_extends hc]
  intro source hsource
  rcases List.mem_append.mp (List.mem_dedup.mp hsource) with h | h
  · exact ha source h
  · exact hb source h

instance : JoinContribution Ctx (IncomingInputSources σ) where
  bottom := ⟨[]⟩
  joinAssign ctx a b := (joinAssign ctx a b, ctx)
  equivalent _ a b := a = b
  known_bottom _ := nofun
  join_extends c _ _ := Store.extends_refl c
  join_known := joinAssign_known
  join_again := joinAssign_extends
  equivalent_refl _ := decide_eq_true rfl
  equivalent_extends _ _ _ := rfl

end IncomingInputSources

end Fz.Facts
