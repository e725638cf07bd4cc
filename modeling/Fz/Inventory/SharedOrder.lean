import Fz.Base.Entries
import Fz.Base.Wp

/-!
# Shared ordered inventories

A persistent AVL tree with cached heights and lengths.  Updates copy the path to the change and
share everything else, so two inventories may have nodes in common.  A node is an address and its
contents; the addresses given out so far are the state of the computation, and a node is found under
its address from then on (`StoredIn`).  Equality compares two inventories from the left and skips
the nodes they share.
-/

namespace Fz.Inventory

open Fz.Base Fz.Base.Entries

inductive SharedOrder (K V : Type) where
  | nil
  | cell (addr : Nat) (key : K) (value : V) (left right : SharedOrder K V) (height len : Nat)

/-- The expectations of the source that its callers rely on. -/
inductive Panic where
  | leftChild
  | rightChild
  | pivot
  | removeFirst

/-- The nodes allocated so far, each at the place of its address. -/
abbrev AllocM (K V : Type) := StateT (List (SharedOrder K V)) (Except Panic)

namespace SharedOrder

section Order

variable {K V Q : Type}

def len : SharedOrder K V → Nat
  | nil => 0
  | cell _ _ _ _ _ _ len => len

def isEmpty : SharedOrder K V → Bool
  | nil => true
  | cell .. => false

def height : SharedOrder K V → Nat
  | nil => 0
  | cell _ _ _ _ _ height _ => height

section Search

variable (key : Q) (compare : Q → K → Ordering)

def lookup : SharedOrder K V → Option V
  | nil => none
  | cell _ k v left right _ _ =>
    match compare key k with
    | .lt => lookup left
    | .eq => some v
    | .gt => lookup right

/-- The search of `ranked`, with the rank of the first entry below the cursor. -/
def rankedFrom (rank : Nat) : SharedOrder K V → Option (Nat × V)
  | nil => none
  | cell _ k v left right _ _ =>
    match compare key k with
    | .lt => rankedFrom rank left
    | .eq => some (rank + left.len, v)
    | .gt => rankedFrom (rank + (left.len + 1)) right

def ranked (t : SharedOrder K V) : Option (Nat × V) := rankedFrom key compare 0 t

def rank (t : SharedOrder K V) : Option Nat := (ranked key compare t).map Prod.fst

end Search

def getIndex (index : Nat) : SharedOrder K V → Option V
  | nil => none
  | cell _ _ v left right _ _ =>
    match compare index left.len with
    | .lt => getIndex index left
    | .eq => some v
    | .gt => getIndex (index - (left.len + 1)) right

/-! ## Iteration -/

/-- The cells from a cursor down its left spine are pushed, the last one on top. -/
def descend (stack : List (SharedOrder K V)) : SharedOrder K V → List (SharedOrder K V)
  | nil => stack
  | cell addr k v left right height len =>
    descend (cell addr k v left right height len :: stack) left

def next : List (SharedOrder K V) → Option ((K × V) × List (SharedOrder K V))
  | cell _ k v _ right _ _ :: stack => some ((k, v), descend stack right)
  | _ => none

/-- The first `n` entries of the iteration. -/
def takeEntries : Nat → List (SharedOrder K V) → List (K × V)
  | 0, _ => []
  | n + 1, stack =>
    match next stack with
    | none => []
    | some (entry, stack) => entry :: takeEntries n stack

def entries (t : SharedOrder K V) : List (K × V) := takeEntries t.len (descend [] t)

/-! ## Updates -/

def node (key : K) (value : V) (left right : SharedOrder K V) : AllocM K V (SharedOrder K V) := do
  let cells ← get
  let t := cell cells.length key value left right (1 + max left.height right.height)
    (1 + left.len + right.len)
  set (cells ++ [t])
  pure t

def balanced (key : K) (value : V) (left right : SharedOrder K V) : AllocM K V (SharedOrder K V) :=
  if left.height > right.height + 1 then
    match left with
    | nil => throw .leftChild
    | cell _ childKey childValue childLeft childRight _ _ =>
      if childLeft.height ≥ childRight.height then do
        let lower ← node key value childRight right
        node childKey childValue childLeft lower
      else match childRight with
        | nil => throw .pivot
        | cell _ pivotKey pivotValue pivotLeft pivotRight _ _ => do
          let low ← node childKey childValue childLeft pivotLeft
          let high ← node key value pivotRight right
          node pivotKey pivotValue low high
  else if right.height > left.height + 1 then
    match right with
    | nil => throw .rightChild
    | cell _ childKey childValue childLeft childRight _ _ =>
      if childRight.height ≥ childLeft.height then do
        let lower ← node key value left childLeft
        node childKey childValue lower childRight
      else match childLeft with
        | nil => throw .pivot
        | cell _ pivotKey pivotValue pivotLeft pivotRight _ _ => do
          let low ← node key value left pivotLeft
          let high ← node childKey childValue pivotRight childRight
          node pivotKey pivotValue low high
  else node key value left right

/-- Whether the inventory has changed, and the inventory after it. -/
def insert [DecidableEq V] (key : K) (value : V) (compare : K → K → Ordering) :
    SharedOrder K V → AllocM K V (Bool × SharedOrder K V)
  | nil => do
    let t ← node key value nil nil
    pure (true, t)
  | cell addr k v left right height len =>
    match compare key k with
    | .eq =>
      if v = value then pure (false, cell addr k v left right height len)
      else do
        let t ← node key value left right
        pure (true, t)
    | .lt => do
      let (changed, left') ← insert key value compare left
      if !changed then pure (false, cell addr k v left right height len)
      else do
        let t ← balanced k v left' right
        pure (true, t)
    | .gt => do
      let (changed, right') ← insert key value compare right
      if !changed then pure (false, cell addr k v left right height len)
      else do
        let t ← balanced k v left right'
        pure (true, t)

def removeFirst : SharedOrder K V → AllocM K V ((K × V) × SharedOrder K V)
  | nil => throw .removeFirst
  | cell _ k v left right _ _ =>
    if left.isEmpty then pure ((k, v), right)
    else do
      let (first, left') ← removeFirst left
      let t ← balanced k v left' right
      pure (first, t)

/-- The value removed, if the key was there, and the inventory after it. -/
def remove (key : Q) (compare : Q → K → Ordering) :
    SharedOrder K V → AllocM K V (Option V × SharedOrder K V)
  | nil => pure (none, nil)
  | cell addr k v left right height len =>
    match compare key k with
    | .lt => do
      match ← remove key compare left with
      | (none, _) => pure (none, cell addr k v left right height len)
      | (some removed, left') =>
        let t ← balanced k v left' right
        pure (some removed, t)
    | .gt => do
      match ← remove key compare right with
      | (none, _) => pure (none, cell addr k v left right height len)
      | (some removed, right') =>
        let t ← balanced k v left right'
        pure (some removed, t)
    | .eq =>
      if left.isEmpty then pure (some v, right)
      else if right.isEmpty then pure (some v, left)
      else do
        let ((nextKey, nextValue), right') ← removeFirst right
        let t ← balanced nextKey nextValue left right'
        pure (some v, t)

/-! ## Equality -/

end Order

inductive ComparisonPart (K V : Type) where
  | tree (node : SharedOrder K V)
  | row (key : K) (value : V)

section Equality

variable {K V : Type}

def ComparisonPart.len : ComparisonPart K V → Nat
  | tree node => node.len
  | row .. => 1

def treePart : SharedOrder K V → List (ComparisonPart K V)
  | nil => []
  | cell addr k v left right height len => [.tree (cell addr k v left right height len)]

/-- The top part is split into its left side, its row and its right side. -/
def expandComparison : List (ComparisonPart K V) → List (ComparisonPart K V)
  | .tree (cell _ k v left right _ _) :: parts =>
    treePart left ++ .row k v :: treePart right ++ parts
  | parts => parts

/-- `Rc::ptr_eq`. -/
def ptrEq : SharedOrder K V → SharedOrder K V → Bool
  | cell addr .., cell addr' .. => addr = addr'
  | _, _ => false

def sameRoot : SharedOrder K V → SharedOrder K V → Bool
  | nil, nil => true
  | a, b => ptrEq a b

variable [DecidableEq K] [DecidableEq V]

/-- The comparison of two stacks of parts, with a bound on its steps. -/
def compareParts : Nat → List (ComparisonPart K V) → List (ComparisonPart K V) → Option Bool
  | 0, _, _ => none
  | _ + 1, [], right => some right.isEmpty
  | _ + 1, _ :: _, [] => some false
  | n + 1, .row k v :: left, .row k' v' :: right =>
    if k ≠ k' ∨ v ≠ v' then some false else compareParts n left right
  | n + 1, a :: left, b :: right =>
    let expand :=
      compareParts n (if a.len ≥ b.len then expandComparison (a :: left) else a :: left)
        (if b.len ≥ a.len then expandComparison (b :: right) else b :: right)
    match a, b with
    | .tree s, .tree t => if ptrEq s t then compareParts n left right else expand
    | _, _ => expand

def equal (a b : SharedOrder K V) : Option Bool :=
  if sameRoot a b then some true
  else if a.len ≠ b.len then some false
  else compareParts (2 * (a.len + b.len) + 1) (treePart a) (treePart b)

end Equality

end SharedOrder

end Fz.Inventory
