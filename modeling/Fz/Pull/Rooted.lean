import Fz.Base.Forest
import Fz.Base.Sorted
import Mathlib.Data.Finmap

/-!
# Rooted demand

A product may list other products as its members.  A reader of a rooted set wants every product that
its seed reaches through these edges, and to be told which of them changed.  The memo keeps for each
reader the parent pointers of a search from the seed (`RootedProducts`), with the index of their
children and the keys that changed since the reader last looked.  When completed products replace
their edges (`commitMembers`), the pointers are repaired in place: new edges are followed first
(`attach`), and each edge that is gone is repaired with another parent, or what was below it is cut
off and attached again where it can still be entered (`removeEdge`).

Sets of keys are read in the semantic order of the keys, which is linear.  A hash table whose
missing entries count as empty sets is a function to sets.
-/

namespace Fz.Pull

open Base (sorted)

variable {Key Value : Type} [LinearOrder Key]

/-! ## The memo -/

/-- What the memo holds of a product, settled or displaced. -/
structure ProductEntry (Key Value : Type) where
  value : Value
  membership : Finset Key

/-- The rooted set of one reader. -/
structure RootedProducts (Key : Type) where
  seed : Key
  parents : Finmap fun _ : Key => Option Key
  children : Key → Finset Key
  dirty : Finset Key
  changes : Finset Key

structure ProductMemo (Key Value : Type) where
  entries : Finmap fun _ : Key => ProductEntry Key Value
  /-- The readers whose formula waits for a rooted read that was not delivered. -/
  awaiting : Finset Key
  rooted : Finmap fun _ : Key => RootedProducts Key
  membershipReaders : Key → Finset Key
  rootedReaders : Key → Finset Key

inductive ReaderMutation where
  | invalidate
  | dirty
  | refresh
  deriving DecidableEq

namespace ProductMemo

def empty : ProductMemo Key Value := ⟨∅, ∅, ∅, fun _ => ∅, fun _ => ∅⟩

def membership (memo : ProductMemo Key Value) (key : Key) : Finset Key :=
  ((memo.entries.lookup key).map ProductEntry.membership).getD ∅

/-- The number of membership edges. -/
def edgeCount (memo : ProductMemo Key Value) : Nat :=
  ∑ key ∈ memo.entries.keys, (memo.membership key).card

end ProductMemo

/-! ## One rooted set -/

namespace RootedProducts

def new (seed : Key) : RootedProducts Key := ⟨seed, ∅, fun _ => ∅, ∅, ∅⟩

/-- Enter one key below its parent. -/
def enter (rooted : RootedProducts Key) (key : Key) (parent : Option Key) : RootedProducts Key where
  seed := rooted.seed
  parents := rooted.parents.insert key parent
  children := match parent with
    | some parent => Function.update rooted.children parent (insert key (rooted.children parent))
    | none => rooted.children
  dirty := insert key rooted.dirty
  changes := insert key rooted.changes

/-- Follow the edges from a key to the keys that are not reached yet. -/
def attach (memo : ProductMemo Key Value) (key : Key) (parent : Option Key)
    (rooted : RootedProducts Key) : RootedProducts Key × Finset Key :=
  Base.worklist (fun s item => item.1 ∈ s.1.parents)
    (fun s item => (s.1.enter item.1 item.2, insert item.1 s.2))
    (fun item => (sorted (memo.membership item.1)).map fun child => (child, some item.1))
    (1 + memo.edgeCount) [(key, parent)] (rooted, ∅)

/-- The ancestors of a key are searched for another. -/
def belowLoop (rooted : RootedProducts Key) (ancestor : Key) : Nat → Option Key → Bool
  | 0, _ => false
  | _ + 1, none => false
  | fuel + 1, some key =>
    key == ancestor || belowLoop rooted ancestor fuel ((rooted.parents.lookup key).getD none)

def below (rooted : RootedProducts Key) (key ancestor : Key) : Bool :=
  rooted.belowLoop ancestor rooted.parents.keys.card (some key)

def reparent (rooted : RootedProducts Key) (key parent : Key) : RootedProducts Key :=
  let children := match rooted.parents.lookup key with
    | some (some previous) =>
      Function.update rooted.children previous ((rooted.children previous).erase key)
    | _ => rooted.children
  { rooted with
    parents := rooted.parents.insert key (some parent)
    children := Function.update children parent (insert key (children parent)) }

/-- The other parents a key can have. -/
def alternates (memo : ProductMemo Key Value) (rooted : RootedProducts Key) (key : Key) :
    Finset Key :=
  (memo.membershipReaders key).filter fun candidate =>
    candidate ≠ key ∧ candidate ∈ rooted.parents ∧
      (rooted.children key = ∅ ∨ rooted.below candidate key = false)

/-- The keys at and below a key. -/
def subtree (rooted : RootedProducts Key) (key : Key) : Finset Key :=
  Base.worklist (fun detached member => member ∈ detached)
    (fun detached member => insert member detached)
    (fun member => sorted (rooted.children member))
    (1 + ∑ member ∈ rooted.parents.keys, (rooted.children member).card) [key] ∅

/-- Cut off a set of keys below a parent. -/
def detach (rooted : RootedProducts Key) (parent key : Key) (detached : Finset Key) :
    RootedProducts Key where
  seed := rooted.seed
  parents := (sorted detached).foldl (fun parents member => parents.erase member) rooted.parents
  children member :=
    if member ∈ detached then ∅
    else if member = parent then (rooted.children parent).erase key
    else rooted.children member
  dirty := rooted.dirty \ detached
  changes := rooted.changes

/-- The edges by which keys that were cut off can be entered again. -/
def entrances (memo : ProductMemo Key Value) (rooted : RootedProducts Key) (detached : Finset Key) :
    List (Key × Key) :=
  (sorted detached).flatMap fun member =>
    (sorted ((memo.membershipReaders member).filter (· ∈ rooted.parents))).map fun parent =>
      (member, parent)

def reenter (memo : ProductMemo Key Value) :
    List (Key × Key) → RootedProducts Key × Finset Key → RootedProducts Key × Finset Key
  | [], s => s
  | (member, parent) :: rest, (rooted, touched) =>
    if member ∈ rooted.parents then reenter memo rest (rooted, touched)
    else
      let (rooted, added) := rooted.attach memo member (some parent)
      reenter memo rest (rooted, touched ∪ added)

/-- A key that was cut off and entered again is as changed and as dirty as before; one that was not
has changed. -/
def settle (before : RootedProducts Key) (detached : Finset Key) (rooted : RootedProducts Key)
    (touched : Finset Key) : RootedProducts Key × Finset Key :=
  let restored := detached.filter (· ∈ rooted.parents)
  let lost := detached.filter (· ∉ rooted.parents)
  ({ rooted with
      changes := (rooted.changes \ (restored \ before.changes)) ∪ lost
      dirty := rooted.dirty \ (restored \ before.dirty) },
    (touched \ restored) ∪ lost)

/-- Repair the pointers after an edge is gone.  The keys whose membership moved are returned. -/
def removeEdge (memo : ProductMemo Key Value) (parent key : Key) (rooted : RootedProducts Key) :
    RootedProducts Key × Finset Key :=
  if rooted.parents.lookup key ≠ some (some parent) then (rooted, ∅)
  else
    match (sorted (rooted.alternates memo key)).head? with
    | some alternate => (rooted.reparent key alternate, ∅)
    | none =>
      let detached := rooted.subtree key
      let cut := rooted.detach parent key detached
      let (rooted', touched) := reenter memo (cut.entrances memo detached) (cut, ∅)
      settle rooted detached rooted' touched

def attachAll (memo : ProductMemo Key Value) (owner : Key) :
    List Key → RootedProducts Key × Finset Key → RootedProducts Key × Finset Key
  | [], s => s
  | child :: rest, (rooted, touched) =>
    let (rooted, added) := rooted.attach memo child (some owner)
    attachAll memo owner rest (rooted, touched ∪ added)

def removeAll (memo : ProductMemo Key Value) (owner : Key) :
    List Key → RootedProducts Key × Finset Key → RootedProducts Key × Finset Key
  | [], s => s
  | child :: rest, (rooted, touched) =>
    let (rooted, moved) := rooted.removeEdge memo owner child
    removeAll memo owner rest (rooted, touched ∪ moved)

/-- New entry paths exist before obsolete support is repaired. -/
def replaceEdges (memo : ProductMemo Key Value) (owner : Key) (previous : Finset Key)
    (rooted : RootedProducts Key) : RootedProducts Key × Finset Key :=
  let next := memo.membership owner
  removeAll memo owner (sorted (previous \ next))
    (attachAll memo owner (sorted (next \ previous)) (rooted, ∅))

/-- The owner of replaced edges is no longer dirty, and has changed if its product has. -/
def ownerSettled (owner : Key) (changed : Bool) (rooted : RootedProducts Key) :
    RootedProducts Key :=
  { rooted with
    dirty := rooted.dirty.erase owner
    changes := if changed then insert owner rooted.changes else rooted.changes }

end RootedProducts

/-! ## The readers -/

namespace ProductMemo

def retireRooted (memo : ProductMemo Key Value) (reader : Key) : ProductMemo Key Value :=
  match memo.rooted.lookup reader with
  | none => memo
  | some rooted =>
    { memo with
      rooted := memo.rooted.erase reader
      rootedReaders := fun member =>
        if member ∈ rooted.parents then (memo.rootedReaders member).erase reader
        else memo.rootedReaders member }

/-- What a reader that moves to another seed keeps of its old set. -/
def reseed (previous rooted : RootedProducts Key) : RootedProducts Key :=
  let shared := previous.parents.keys.filter (· ∈ rooted.parents)
  let lost := previous.parents.keys.filter (· ∉ rooted.parents)
  { rooted with
    changes := (rooted.changes \ (shared \ previous.changes)) ∪ lost ∪
      previous.changes.filter (· ∉ rooted.parents)
    dirty := rooted.dirty \ (shared \ previous.dirty) }

def registerRooted (memo : ProductMemo Key Value) (reader seed : Key) : ProductMemo Key Value :=
  if (memo.rooted.lookup reader).any fun rooted => rooted.seed == seed then memo
  else
    let rooted := ((RootedProducts.new seed).attach memo seed none).1
    let memo' := memo.retireRooted reader
    let rooted := match memo.rooted.lookup reader with
      | some previous => reseed previous rooted
      | none => rooted
    { memo' with
      rooted := memo'.rooted.insert reader rooted
      rootedReaders := fun member =>
        if member ∈ rooted.parents then insert reader (memo'.rootedReaders member)
        else memo'.rootedReaders member }

def replaceMembershipReaders (memo : ProductMemo Key Value) (owner : Key)
    (previous : Finset Key) : ProductMemo Key Value :=
  let next := memo.membership owner
  { memo with
    membershipReaders := fun child =>
      if child ∈ previous \ next then (memo.membershipReaders child).erase owner
      else if child ∈ next \ previous then insert owner (memo.membershipReaders child)
      else memo.membershipReaders child }

/-- One reader takes over the edges of an owner. -/
def committedReader (owner : Key) (previous : Finset Key) (changed : Bool) (reader : Key)
    (memo : ProductMemo Key Value) : List (ReaderMutation × Key) × ProductMemo Key Value :=
  match memo.rooted.lookup reader with
  | none => ([], memo)
  | some rooted =>
    let (rooted, touched) := rooted.replaceEdges memo owner previous
    let rooted := rooted.ownerSettled owner changed
    let mutations :=
      if (changed ∨ touched ≠ ∅) ∧ reader ∉ memo.awaiting then [(.invalidate, reader)]
      else if rooted.dirty = ∅ then [(.refresh, reader)] else []
    (mutations,
      { memo with
        rooted := memo.rooted.insert reader rooted
        rootedReaders := fun member =>
          if member ∉ touched then memo.rootedReaders member
          else if member ∈ rooted.parents then insert reader (memo.rootedReaders member)
          else (memo.rootedReaders member).erase reader })

def committedReaders (owner : Key) (previous : Finset Key) (changed : Bool) :
    List Key → ProductMemo Key Value → List (ReaderMutation × Key) × ProductMemo Key Value
  | [], memo => ([], memo)
  | reader :: readers, memo =>
    let (mutations, memo) := committedReader owner previous changed reader memo
    let (rest, memo) := committedReaders owner previous changed readers memo
    (mutations ++ rest, memo)

/-- Every reader that reaches an owner takes over its edges. -/
def committedRootedMember (owner : Key) (previous : Finset Key) (changed : Bool)
    (memo : ProductMemo Key Value) : List (ReaderMutation × Key) × ProductMemo Key Value :=
  committedReaders owner previous changed (sorted (memo.rootedReaders owner)) memo

end ProductMemo

/-! ## Completions -/

/-- A rooted read of a formula, and whether it was delivered. -/
structure RootedRead where
  delivered : Bool

structure ProductCommitMember (Key Value : Type) where
  key : Key
  value : Value
  membership : Finset Key
  rootedRead : Option RootedRead

/-- A member of a completion, with what the memo held of it. -/
structure Prepared (Key Value : Type) where
  key : Key
  value : Value
  changed : Bool
  membership : Finset Key
  previous : Finset Key
  rootedRead : Option RootedRead

namespace ProductMemo

variable (sameProductValue : Value → Value → Bool)

def prepare (memo : ProductMemo Key Value) (member : ProductCommitMember Key Value) :
    Prepared Key Value :=
  let previous := memo.entries.lookup member.key
  let changed := previous.all fun entry => !sameProductValue entry.value member.value
  { key := member.key
    value := if changed then member.value else (previous.map ProductEntry.value).getD member.value
    changed
    membership := member.membership
    previous := (previous.map ProductEntry.membership).getD ∅
    rootedRead := member.rootedRead }

/-- Install a member.  A formula that did not read a rooted set gives up the one it had, and one
that was delivered a rooted set has seen its changes.  Nothing is delivered to a reader that is not
registered. -/
def install (memo : ProductMemo Key Value) (member : Prepared Key Value) :
    Option (ProductMemo Key Value) :=
  let entry := ⟨member.value, member.membership⟩
  match member.rootedRead with
  | none =>
    let memo := memo.retireRooted member.key
    some { memo with entries := memo.entries.insert member.key entry }
  | some read =>
    if read.delivered then
      match memo.rooted.lookup member.key with
      | none => none
      | some rooted =>
        some { memo with
          rooted := memo.rooted.insert member.key { rooted with changes := ∅ }
          entries := memo.entries.insert member.key entry }
    else some { memo with entries := memo.entries.insert member.key entry }

def installAll : List (Prepared Key Value) → ProductMemo Key Value → Option (ProductMemo Key Value)
  | [], memo => some memo
  | member :: rest, memo => do
    let memo ← memo.install member
    installAll rest memo

def replaceAllReaders : List (Prepared Key Value) → ProductMemo Key Value → ProductMemo Key Value
  | [], memo => memo
  | member :: rest, memo =>
    replaceAllReaders rest (memo.replaceMembershipReaders member.key member.previous)

def committedMembers : List (Prepared Key Value) → ProductMemo Key Value →
    List (ReaderMutation × Key) × ProductMemo Key Value
  | [], memo => ([], memo)
  | member :: rest, memo =>
    let (mutations, memo) := memo.committedRootedMember member.key member.previous member.changed
    let (later, memo) := committedMembers rest memo
    (mutations ++ later, memo)

/-- Commit completed products: every member is installed, with its edges, before any rooted set is
repaired.  The members of a group come in the order of their keys. -/
def commitMembers (memo : ProductMemo Key Value) (members : List (ProductCommitMember Key Value)) :
    Option (List (ReaderMutation × Key) × ProductMemo Key Value) := do
  let prepared := members.map (memo.prepare sameProductValue)
  let memo := { memo with
    awaiting := memo.awaiting.filter fun key => key ∉ members.map ProductCommitMember.key }
  let memo ← installAll prepared memo
  return committedMembers prepared (replaceAllReaders prepared memo)

end ProductMemo

end Fz.Pull
