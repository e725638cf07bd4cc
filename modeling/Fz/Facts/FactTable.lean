import Mathlib.Data.Finmap
import Mathlib.Data.List.Dedup

/-!
# The fact table and the dependency index

A fact is claimed by publishers.  It is quiet when none of them is dirty and none reads a fact that
can still move, and settled when it is also present.  The index holds what each publisher reads and
claims, and what each job waits for.

Facts, publishers and jobs are types of the caller, with a semantic order for each
(`SchedulerContext`).  A table without an entry for a key reads as one with an empty entry, so the
tables of sets are functions; only the slots are kept as a finite map.
-/

namespace Fz.Facts

/-! ## Ordered sets -/

/-- A set in the order of first insertion. -/
structure OrderedSet (α : Type) where
  order : List α
  nodup : order.Nodup

namespace OrderedSet

variable {α : Type} [DecidableEq α]

def empty : OrderedSet α := ⟨[], List.nodup_nil⟩

def insert (s : OrderedSet α) (value : α) : OrderedSet α :=
  if h : value ∈ s.order then s
  else ⟨s.order ++ [value], List.nodup_append_comm.mpr (List.nodup_cons.mpr ⟨h, s.nodup⟩)⟩

def remove (s : OrderedSet α) (value : α) : OrderedSet α :=
  ⟨s.order.filter fun existing => existing ≠ value, s.nodup.filter _⟩

def extend (s : OrderedSet α) (values : List α) : OrderedSet α := values.foldl insert s

def ofList (values : List α) : OrderedSet α := empty.extend values

end OrderedSet

/-! ## Facts -/

inductive FactUse (F : Type) where
  | current (fact : F)
  | settled (fact : F)
  deriving DecidableEq

def FactUse.fact {F : Type} : FactUse F → F
  | .current fact => fact
  | .settled fact => fact

inductive ContentMovement where
  | ascent
  | shift
  deriving DecidableEq

structure FactChange (F : Type) where
  key : F
  oldRevision : Option Nat
  newRevision : Option Nat
  oldSettled : Bool
  newSettled : Bool
  contentMovement : Option ContentMovement

def FactChange.readinessChanged {F : Type} (change : FactChange F) : Bool :=
  change.oldSettled ≠ change.newSettled

structure FactState where
  revision : Option Nat
  settled : Bool

structure FactMovement (F : Type) where
  key : F
  state : FactState

/-- The publishers, jobs and facts of a program, what their owners say of them, and the facts that
another owner keeps. -/
structure SchedulerContext (P Run F : Type) where
  run : P → Run
  ofRun : Run → P
  isCumulative : F → Bool
  externalState : F → Option FactState
  cmpPublisher : P → P → Ordering
  cmpRun : Run → Run → Ordering
  cmpFact : F → F → Ordering

/-! ## Slots -/

structure FactSlot (P : Type) where
  publishers : Finset P
  dirtyPublishers : Finset P
  unfinalPublishers : Finset P
  revisionCount : Nat

namespace FactSlot

variable {P : Type} [DecidableEq P]

def default : FactSlot P := ⟨∅, ∅, ∅, 0⟩

def revision (slot : FactSlot P) : Option Nat :=
  if slot.publishers = ∅ then none else some slot.revisionCount

def isLocallySettled (slot : FactSlot P) : Bool :=
  slot.publishers ≠ ∅ ∧ slot.dirtyPublishers = ∅

def isQuiet (slot : FactSlot P) : Bool :=
  slot.dirtyPublishers = ∅ ∧ slot.unfinalPublishers = ∅

def isSettled (slot : FactSlot P) : Bool :=
  slot.isLocallySettled ∧ slot.unfinalPublishers = ∅

end FactSlot

def setMembership {P : Type} [DecidableEq P] (set : Finset P) (publisher : P) (member : Bool) :
    Finset P :=
  if member then insert publisher set else set.erase publisher

/-! ## The table -/

variable {P Run F : Type} [DecidableEq P] [DecidableEq Run] [DecidableEq F]

structure FactTable (P F : Type) where
  slots : Finmap fun _ : F => FactSlot P

structure FactReplace (F : Type) where
  changed : List (FactChange F)
  outputKeys : OrderedSet F

/-- The change of a slot where its revision or readiness moved. -/
def slotChange (key : F) (old new : FactSlot P) (movement : Option ContentMovement) :
    List (FactChange F) :=
  if old.revision ≠ new.revision ∨ old.isSettled ≠ new.isSettled then
    [⟨key, old.revision, new.revision, old.isSettled, new.isSettled, movement⟩]
  else []

namespace FactTable

def isSettled (t : FactTable P F) (key : F) : Bool := (t.slots.lookup key).any FactSlot.isSettled

def isQuiet (t : FactTable P F) (key : F) : Bool := (t.slots.lookup key).all FactSlot.isQuiet

def state (t : FactTable P F) (key : F) : FactState :=
  match t.slots.lookup key with
  | none => ⟨none, false⟩
  | some slot => ⟨slot.revision, slot.isSettled⟩

def setPublisherUnfinal (t : FactTable P F) (key : F) (publisher : P) (unfinal : Bool) :
    FactTable P F × List (FactChange F) :=
  match t.slots.lookup key with
  | none => (t, [])
  | some slot =>
    if publisher ∉ slot.publishers then (t, [])
    else
      let slot' : FactSlot P :=
        { slot with unfinalPublishers := setMembership slot.unfinalPublishers publisher unfinal }
      (⟨t.slots.insert key slot'⟩,
        if slot.isSettled ≠ slot'.isSettled then
          [⟨key, slot.revision, slot.revision, slot.isSettled, slot'.isSettled, none⟩]
        else [])

def markDirtyKey (t : FactTable P F) (publisher : P) (key : F) :
    FactTable P F × List (FactChange F) :=
  match t.slots.lookup key with
  | none => (t, [])
  | some slot =>
    if publisher ∉ slot.publishers then (t, [])
    else if publisher ∈ slot.dirtyPublishers then (t, [])
    else
      let slot' : FactSlot P :=
        { slot with dirtyPublishers := insert publisher slot.dirtyPublishers }
      (⟨t.slots.insert key slot'⟩, slotChange key slot slot' none)

def markDirty (publisher : P) : List F → FactTable P F → FactTable P F × List (FactChange F)
  | [], t => (t, [])
  | key :: keys, t =>
    let (t, changed) := t.markDirtyKey publisher key
    let (t, rest) := markDirty publisher keys t
    (t, changed ++ rest)

end FactTable

namespace SchedulerContext

variable (ctx : SchedulerContext P Run F)

def appearanceRevision (key : F) (changedListed : Bool) : Nat :=
  if changedListed || !ctx.isCumulative key then 1 else 0

def contentMovement (key : F) (oldRevision newRevision : Option Nat)
    (publisherRebased withdrewPublisher : Bool) : Option ContentMovement :=
  if oldRevision.getD 0 = newRevision.getD 0 then none
  else if oldRevision.isNone then some .ascent
  else if newRevision.isNone || withdrewPublisher || publisherRebased || !ctx.isCumulative key then
    some .shift
  else some .ascent

/-- The slot of a key that its publisher lists. -/
def claimSlot (key : F) (publisher : P) (changedListed unfinal : Bool) (slot : FactSlot P)
    (dirtyPublishers : Finset P) : FactSlot P where
  publishers := insert publisher slot.publishers
  dirtyPublishers := dirtyPublishers
  unfinalPublishers := setMembership slot.unfinalPublishers publisher unfinal
  revisionCount :=
    if slot.publishers = ∅ then ctx.appearanceRevision key changedListed
    else if changedListed then slot.revisionCount + 1
    else slot.revisionCount

/-- The slot of a key that its publisher no longer lists. -/
def withdrawSlot (publisher : P) (changedListed : Bool) (slot : FactSlot P) : FactSlot P :=
  let publishers := slot.publishers.erase publisher
  { publishers := publishers
    dirtyPublishers := slot.dirtyPublishers.erase publisher
    unfinalPublishers := slot.unfinalPublishers.erase publisher
    revisionCount :=
      if changedListed && publishers ≠ ∅ then slot.revisionCount + 1 else slot.revisionCount }

def replaceKey (publisher : P) (outputKeys changedKeys : List F) (unfinal rebased : Bool)
    (t : FactTable P F) (key : F) : FactTable P F × List (FactChange F) :=
  let slot := (t.slots.lookup key).getD .default
  let listed : Bool := key ∈ outputKeys
  let withdrew : Bool := !listed && publisher ∈ slot.publishers
  let changedListed : Bool := key ∈ changedKeys
  let slot' :=
    if listed then
      ctx.claimSlot key publisher changedListed unfinal slot (slot.dirtyPublishers.erase publisher)
    else withdrawSlot publisher changedListed slot
  (⟨if slot'.publishers = ∅ then t.slots.erase key else t.slots.insert key slot'⟩,
    slotChange key slot slot'
      (ctx.contentMovement key slot.revision slot'.revision rebased withdrew))

def replaceKeys (publisher : P) (outputKeys changedKeys : List F) (unfinal rebased : Bool) :
    List F → FactTable P F → FactTable P F × List (FactChange F)
  | [], t => (t, [])
  | key :: keys, t =>
    let (t, changed) := ctx.replaceKey publisher outputKeys changedKeys unfinal rebased t key
    let (t, rest) := replaceKeys publisher outputKeys changedKeys unfinal rebased keys t
    (t, changed ++ rest)

/-- `none` where an assertion fails. -/
def replaceOutputsAfterRun (t : FactTable P F) (publisher : P) (previousOutputKeys : OrderedSet F)
    (outputs changedKeys : List F) (unfinal rebased : Bool) :
    Option (FactTable P F × FactReplace F) :=
  if h : outputs.Nodup ∧ changedKeys.Nodup ∧
      ∀ key ∈ changedKeys, key ∈ outputs ∨ key ∈ previousOutputKeys.order then
    let outputKeys : OrderedSet F := ⟨outputs, h.1⟩
    let touched := outputKeys.extend previousOutputKeys.order
    let (t, changed) :=
      ctx.replaceKeys publisher outputs changedKeys unfinal rebased touched.order t
    some (t, ⟨changed, outputKeys⟩)
  else none

def extendKey (publisher : P) (changedKeys : List F) (unfinal rebased : Bool) (t : FactTable P F)
    (key : F) : FactTable P F × List (FactChange F) :=
  let slot := (t.slots.lookup key).getD .default
  let slot' := ctx.claimSlot key publisher (key ∈ changedKeys) unfinal slot slot.dirtyPublishers
  (⟨t.slots.insert key slot'⟩,
    slotChange key slot slot'
      (ctx.contentMovement key slot.revision slot'.revision rebased false))

def extendKeys (publisher : P) (changedKeys : List F) (unfinal rebased : Bool) :
    List F → FactTable P F → FactTable P F × List (FactChange F)
  | [], t => (t, [])
  | key :: keys, t =>
    let (t, changed) := ctx.extendKey publisher changedKeys unfinal rebased t key
    let (t, rest) := extendKeys publisher changedKeys unfinal rebased keys t
    (t, changed ++ rest)

def extendOutputsAfterRun (t : FactTable P F) (publisher : P) (outputs changedKeys : List F)
    (unfinal rebased : Bool) : Option (FactTable P F × FactReplace F) :=
  if h : outputs.Nodup ∧ changedKeys.Nodup then
    let (t, changed) := ctx.extendKeys publisher changedKeys unfinal rebased outputs t
    some (t, ⟨changed, ⟨outputs, h.1⟩⟩)
  else none

end SchedulerContext

/-! ## Dependencies -/

structure DependencyIndex (P Run F : Type) where
  reads : P → Finset (FactUse F)
  subscribers : FactUse F → OrderedSet P
  waits : Run → Finset (FactUse F)
  waiters : FactUse F → OrderedSet Run
  outputs : P → OrderedSet F
  derivations : Run → OrderedSet P

namespace DependencyIndex

variable (deps : DependencyIndex P Run F)

/-- One owner's entries of a reverse index, from what it had to what it has. -/
def reindex {O : Type} [DecidableEq O] (index : FactUse F → OrderedSet O) (owner : O)
    (previous next : Finset (FactUse F)) : FactUse F → OrderedSet O :=
  fun use =>
    let without := if use ∈ previous then (index use).remove owner else index use
    if use ∈ next then without.insert owner else without

def unionReads (publisher : P) (nextReads : Finset (FactUse F)) : DependencyIndex P Run F :=
  let new := nextReads \ deps.reads publisher
  { deps with
    reads := Function.update deps.reads publisher (deps.reads publisher ∪ new)
    subscribers := reindex deps.subscribers publisher ∅ new }

def replaceReads (publisher : P) (nextReads : Finset (FactUse F)) : DependencyIndex P Run F :=
  { deps with
    reads := Function.update deps.reads publisher nextReads
    subscribers := reindex deps.subscribers publisher (deps.reads publisher) nextReads }

def replaceWaits (job : Run) (nextWaits : Finset (FactUse F)) : DependencyIndex P Run F :=
  { deps with
    waits := Function.update deps.waits job nextWaits
    waiters := reindex deps.waiters job (deps.waits job) nextWaits }

def replaceOutputs (publisher : P) (nextOutputs : OrderedSet F) : DependencyIndex P Run F :=
  { deps with outputs := Function.update deps.outputs publisher nextOutputs }

def replaceDerivations (job : Run) (next : OrderedSet P) : DependencyIndex P Run F :=
  { deps with derivations := Function.update deps.derivations job next }

def forget (publisher : P) : DependencyIndex P Run F :=
  { deps with
    reads := Function.update deps.reads publisher ∅
    subscribers := reindex deps.subscribers publisher (deps.reads publisher) ∅
    outputs := Function.update deps.outputs publisher .empty }

def outputKeys (publisher : P) : List F := (deps.outputs publisher).order

def subscribersOf (ctx : SchedulerContext P Run F) (use : FactUse F) : List P :=
  (deps.subscribers use).order.mergeSort fun left right => (ctx.cmpPublisher left right).isLE

def waitersOf (ctx : SchedulerContext P Run F) (use : FactUse F) : List Run :=
  (deps.waiters use).order.mergeSort fun left right => (ctx.cmpRun left right).isLE

/-- The readers of a fact, one that reads it in both ways twice. -/
def readersOf (ctx : SchedulerContext P Run F) (fact : F) : List P :=
  ((deps.subscribers (.current fact)).order ++ (deps.subscribers (.settled fact)).order).mergeSort
    fun left right => (ctx.cmpPublisher left right).isLE

end DependencyIndex

end Fz.Facts
