import Mathlib.Data.Finmap
import Mathlib.Data.List.Sort
import Mathlib.Logic.Relation
import Mathlib.Order.Defs.LinearOrder

/-!
# Recursive groups

A product whose formula waits for other products keeps the reads of its last evaluation.  When the
product that is evaluated now (`current`) is about to wait for a dependency, the products that wait
for each other in a cycle through it have to settle together.  They are found by one search for
strong components that starts at the dependency: it follows the recorded reads of the products that
wait, and for the current product the reads of this evaluation.  A product that neither waits nor is
the current one, because it is settled, displaced or not known, is not entered.

The search is a recursion over products that are not visited yet, so the number of products that
wait bounds its depth.  It answers `none` where the source panics, or where that bound is not
enough.
-/

namespace Fz.Pull

variable {Key Kind : Type} [LinearOrder Key] [DecidableEq Kind]

/-- The products that a formula read, each listed once. -/
structure ProductDependencies (Key : Type) where
  products : List Key
  distinct : products.Nodup

/-- What the memo holds of the products whose formula waits. -/
structure PendingMemo (Key : Type) where
  pendingDependencies : Finmap fun _ : Key => ProductDependencies Key

def PendingMemo.pendingProductDependencies (memo : PendingMemo Key) (key : Key) :
    Option (ProductDependencies Key) :=
  memo.pendingDependencies.lookup key

structure PendingNode where
  index : Nat
  lowlink : Nat

/-- The state of the search, the stack with its top first. -/
structure PendingStrongComponent (Key : Type) where
  nextIndex : Nat
  nodes : Finmap fun _ : Key => PendingNode
  stack : List Key
  onStack : Finset Key
  candidateInventory : Nat
  vertexVisits : Nat
  edgeScans : Nat

namespace PendingStrongComponent

def new : PendingStrongComponent Key := ⟨0, ∅, [], ∅, 0, 0, 0⟩

/-- Number a product and push it. -/
def enter (search : PendingStrongComponent Key) (key : Key) : PendingStrongComponent Key :=
  { search with
    nextIndex := search.nextIndex + 1
    nodes := search.nodes.insert key ⟨search.nextIndex, search.nextIndex⟩
    stack := key :: search.stack
    onStack := insert key search.onStack
    vertexVisits := search.vertexVisits + 1 }

def candidate (search : PendingStrongComponent Key) : PendingStrongComponent Key :=
  { search with candidateInventory := search.candidateInventory + 1 }

def scanned (search : PendingStrongComponent Key) : PendingStrongComponent Key :=
  { search with edgeScans := search.edgeScans + 1 }

/-- Lower the link of a visited product. -/
def lower (search : PendingStrongComponent Key) (key : Key) (bound : Nat) :
    Option (PendingStrongComponent Key) := do
  let node ← search.nodes.lookup key
  return { search with nodes := search.nodes.insert key ⟨node.index, min node.lowlink bound⟩ }

/-- Pop the stack down to a product. -/
def popComponent (key : Key) : List Key → Finset Key → Option (List Key × List Key × Finset Key)
  | [], _ => none
  | member :: stack, onStack =>
    if member = key then
      some ([member], stack, onStack.erase member)
    else do
      let (component, rest) ← popComponent key stack (onStack.erase member)
      return (member :: component, rest)

section Search

variable (memo : PendingMemo Key) (current : Key) (currentDependencies : ProductDependencies Key)

/-- The reads of a product that the search follows. -/
def dependenciesOf (key : Key) : Option (ProductDependencies Key) :=
  if key = current then some currentDependencies else memo.pendingProductDependencies key

/-- Follow the reads of one product in order. -/
def scan (visit : PendingStrongComponent Key → Key →
      Option (PendingStrongComponent Key × Option (List Key)))
    (key : Key) : List Key → PendingStrongComponent Key → Option (PendingStrongComponent Key)
  | [], search => some search
  | dependency :: dependencies, search =>
    if dependency ≠ current ∧ (memo.pendingProductDependencies dependency).isNone then
      scan visit key dependencies search
    else
      let search := search.scanned
      match search.nodes.lookup dependency with
      | none => do
        let (search, _) ← visit search dependency
        let node ← search.nodes.lookup dependency
        let search ← search.lower key node.lowlink
        scan visit key dependencies search
      | some node =>
        if dependency ∈ search.onStack then do
          let search ← search.lower key node.index
          scan visit key dependencies search
        else
          scan visit key dependencies search

def visit (kind : Key → Kind) : Nat → PendingStrongComponent Key → Key →
    Option (PendingStrongComponent Key × Option (List Key))
  | 0, _, _ => none
  | fuel + 1, search, key => do
    let search := search.enter key
    let dependencies := dependenciesOf memo current currentDependencies key
    let search :=
      if dependencies.isSome ∧ kind key = kind current then search.candidate else search
    let search ← scan memo current (visit kind fuel) key
      ((dependencies.map ProductDependencies.products).getD []) search
    let node ← search.nodes.lookup key
    if node.lowlink ≠ node.index then
      return (search, none)
    else
      let (component, stack, onStack) ← popComponent key search.stack search.onStack
      return ({ search with stack := stack, onStack := onStack }, some component)

/-- The strong component of the dependency, with the numbers of candidates, visits and scans. -/
def find (kind : Key → Kind) (dependency : Key) : Option (List Key × Nat × Nat × Nat) :=
  if dependency ≠ current ∧ (memo.pendingProductDependencies dependency).isNone then
    some ([], 0, 0, 0)
  else do
    let (search, members) ← visit memo current currentDependencies kind
      (memo.pendingDependencies.keys.card + 1) new dependency
    let members ← members
    return (members, search.candidateInventory, search.vertexVisits, search.edgeScans)

end Search

end PendingStrongComponent

structure RecursiveGroupSearch where
  candidateInventory : Nat
  vertexVisits : Nat
  edgeScans : Nat
  cycleClosed : Bool
  groupMembers : Nat

/-- The recursive group of the current product, if its read of the dependency closes a cycle. -/
def PendingMemo.pendingStrongComponent (memo : PendingMemo Key) (kind : Key → Kind) (current : Key)
    (currentDependencies : ProductDependencies Key) (dependency : Key) :
    Option (Option (List Key) × RecursiveGroupSearch) := do
  let (component, candidateInventory, vertexVisits, edgeScans) ←
    PendingStrongComponent.find memo current currentDependencies kind dependency
  let cycleClosed := component.any (· = current)
  let members :=
    if cycleClosed then
      some ((component.filter fun member => kind member = kind current).insertionSort (· ≤ ·))
    else none
  return (members, {
    candidateInventory, vertexVisits, edgeScans, cycleClosed
    groupMembers := (members.map List.length).getD 0 })

end Fz.Pull
