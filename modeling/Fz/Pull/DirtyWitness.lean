import Fz.Base.Forest
import Mathlib.Data.Finmap
import Mathlib.Data.List.Chain

/-!
# The sparse dirty index

A rooted set keeps beside its parent pointers an index of the members that are dirty.  It holds the
marked members and their ancestors, each with its indexed children in a list whose order a removal
may change.  A cached path leads from the seed down first children to where the last search for a
marked member ended.  Each node on the path knows its position.  When the path is cut, the positions
below stay as they are, so a position counts only where the path still names the node there.

The index is given the parent pointers by its caller with every call.  A missing entry and an
expectation that fails are `none` here.
-/

namespace Fz.Pull

/-! ## Lists of children -/

section Children

variable {α : Type} [DecidableEq α]

def insertKey (xs : List α) (x : α) : List α := if x ∈ xs then xs else xs ++ [x]

/-- The last key takes the place of the one that is removed. -/
def swapRemove (xs : List α) (x : α) : List α :=
  match xs.idxOf? x, xs.getLast? with
  | some i, some last => (xs.set i last).dropLast
  | _, _ => xs

@[simp] theorem mem_insertKey {xs : List α} {x y : α} : y ∈ insertKey xs x ↔ y ∈ xs ∨ y = x := by
  rw [insertKey]
  split
  · rename_i hmem
    exact ⟨.inl, fun h => h.elim id fun heq => heq ▸ hmem⟩
  · rw [List.mem_append, List.mem_singleton]

theorem prefix_insertKey (xs : List α) (x : α) : xs <+: insertKey xs x := by
  rw [insertKey]
  split
  · exact List.prefix_rfl
  · exact List.prefix_append _ _

theorem nodup_insertKey {xs : List α} (h : xs.Nodup) (x : α) : (insertKey xs x).Nodup := by
  rw [insertKey]
  split
  · exact h
  · rename_i hmem
    rw [List.nodup_append_comm]
    exact List.nodup_cons.mpr ⟨hmem, h⟩

theorem swapRemove_of_notMem {xs : List α} {x : α} (h : x ∉ xs) : swapRemove xs x = xs := by
  rw [swapRemove, List.idxOf?_eq_none_iff.mpr h]

theorem idxOf?_append {front : List α} {x : α} (h : x ∉ front) (back : List α) :
    (front ++ x :: back).idxOf? x = some front.length := by
  rw [List.idxOf?_eq_some_iff]
  refine ⟨by simp, by simp, fun j hj => ?_⟩
  rw [List.getElem_append_left hj]
  intro heq
  exact h (heq ▸ List.getElem_mem hj)

theorem swapRemove_append {front back : List α} {x : α} (h : x ∉ front) :
    swapRemove (front ++ x :: back) x = front ++ (back.getLast?.toList ++ back.dropLast) := by
  have hidx := idxOf?_append h back
  rcases List.eq_nil_or_concat' back with rfl | ⟨mid, last, rfl⟩
  · have hlast : (front ++ [x]).getLast? = some x := by simp
    rw [swapRemove, hidx, hlast]
    simp
  · have hlast : (front ++ x :: (mid ++ [last])).getLast? = some last := by
      rw [← List.cons_append, ← List.append_assoc, List.getLast?_concat]
    rw [swapRemove, hidx, hlast]
    simp only [List.set_append_right _ _ (Nat.le_refl _), Nat.sub_self, List.set_cons_zero]
    rw [← List.cons_append, ← List.append_assoc, List.dropLast_concat]
    simp

theorem swapRemove_perm (xs : List α) (x : α) : (swapRemove xs x).Perm (xs.erase x) := by
  by_cases hmem : x ∈ xs
  · obtain ⟨front, back, rfl, hfront⟩ := List.eq_append_cons_of_mem hmem
    rw [swapRemove_append hfront, List.erase_append_right _ hfront, List.erase_cons_head]
    refine List.Perm.append_left front ?_
    rcases List.eq_nil_or_concat' back with rfl | ⟨mid, last, rfl⟩
    · exact .refl _
    · rw [List.getLast?_concat, List.dropLast_concat]
      exact List.perm_append_comm
  · rw [swapRemove_of_notMem hmem, List.erase_of_not_mem hmem]

theorem nodup_swapRemove {xs : List α} (h : xs.Nodup) (x : α) : (swapRemove xs x).Nodup :=
  (swapRemove_perm xs x).nodup_iff.mpr (h.erase x)

theorem mem_swapRemove {xs : List α} (h : xs.Nodup) {x y : α} :
    y ∈ swapRemove xs x ↔ y ≠ x ∧ y ∈ xs := by
  rw [(swapRemove_perm xs x).mem_iff, h.mem_erase_iff]

theorem swapRemove_cons {b x : α} (h : b ≠ x) (xs : List α) :
    ∃ ys, swapRemove (b :: xs) x = b :: ys := by
  by_cases hmem : x ∈ xs
  · obtain ⟨front, back, rfl, hfront⟩ := List.eq_append_cons_of_mem hmem
    have hcons := List.not_mem_cons_of_ne_of_not_mem h.symm hfront
    exact ⟨_, (List.cons_append ▸ swapRemove_append hcons).trans List.cons_append⟩
  · exact ⟨xs, swapRemove_of_notMem (List.not_mem_cons_of_ne_of_not_mem h.symm hmem)⟩

end Children

/-! ## The index -/

variable {Key : Type}

structure DirtyNode (Key : Type) where
  marked : Bool
  children : List Key
  activePosition : Option Nat

def DirtyNode.default : DirtyNode Key := ⟨false, [], none⟩

abbrev Parents (Key : Type) := Finmap fun _ : Key => Option Key

structure DirtyWitness (Key : Type) where
  nodes : Finmap fun _ : Key => DirtyNode Key
  marked : Nat
  active : List Key

namespace DirtyWitness

def default : DirtyWitness Key := ⟨∅, 0, []⟩

def isEmpty (w : DirtyWitness Key) : Bool := w.marked = 0

def clear (_w : DirtyWitness Key) : DirtyWitness Key := default

def truncateActive (w : DirtyWitness Key) (length : Nat) : DirtyWitness Key :=
  if length ≥ w.active.length then w else { w with active := w.active.take length }

theorem truncateActive_eq (w : DirtyWitness Key) (length : Nat) :
    w.truncateActive length = { w with active := w.active.take length } := by
  rw [truncateActive]
  split
  · rename_i hle
    rw [List.take_of_length_le hle]
  · rfl

variable [DecidableEq Key]

def setNode (w : DirtyWitness Key) (key : Key) (node : DirtyNode Key) : DirtyWitness Key :=
  { w with nodes := w.nodes.insert key node }

def contains (w : DirtyWitness Key) (key : Key) : Bool := (w.nodes.lookup key).any DirtyNode.marked

def insertChild (w : DirtyWitness Key) (parent child : Key) : DirtyWitness Key :=
  let node := (w.nodes.lookup parent).getD .default
  w.setNode parent { node with children := insertKey node.children child }

def removeChild (w : DirtyWitness Key) (parent child : Key) : Option (DirtyWitness Key) := do
  let node ← w.nodes.lookup parent
  some (w.setNode parent { node with children := swapRemove node.children child })

/-- The position of a node on the active path, where it is still there. -/
def positionOf (w : DirtyWitness Key) (key : Key) (node : DirtyNode Key) : Option Nat :=
  node.activePosition.filter fun position => w.active[position]? = some key

/-- The active path cut before a node that is on it. -/
def leaveActive (w : DirtyWitness Key) (key : Key) (node : DirtyNode Key) : DirtyWitness Key :=
  match w.positionOf key node with
  | some position => w.truncateActive position
  | none => w

/-- One more node on the active path. -/
def descend (w : DirtyWitness Key) (child : Key) : Option (DirtyWitness Key) := do
  let node ← w.nodes.lookup child
  let w' := w.setNode child { node with activePosition := some w.active.length }
  some { w' with active := w.active ++ [child] }

def ensureLoop (parents : Parents Key) : Nat → Key → DirtyWitness Key → Option (DirtyWitness Key)
  | 0, _, _ => none
  | fuel + 1, cursor, w =>
    match parents.lookup cursor with
    | none => none
    | some none => some w
    | some (some parent) =>
      let indexed := parent ∈ w.nodes
      let w := w.insertChild parent cursor
      if indexed then some w else ensureLoop parents fuel parent w

def ensurePath (w : DirtyWitness Key) (key : Key) (parents : Parents Key) :
    Option (DirtyWitness Key) :=
  if key ∈ w.nodes then some w
  else ensureLoop parents parents.keys.card key (w.setNode key .default)

protected def insert (w : DirtyWitness Key) (key : Key) (parents : Parents Key) :
    Option (DirtyWitness Key × Bool) := do
  let w ← w.ensurePath key parents
  let node ← w.nodes.lookup key
  let w := w.setNode key { node with marked := true }
  if node.marked then some (w, false)
  else
    let w := { w with marked := w.marked + 1 }
    match w.positionOf key node with
    | some position => some (w.truncateActive (position + 1), true)
    | none => some (w, true)

def pruneLoop (parents : Parents Key) :
    Nat → Option Key → DirtyWitness Key → Option (DirtyWitness Key)
  | _, none, w => some w
  | 0, some _, _ => none
  | fuel + 1, some key, w =>
    match w.nodes.lookup key with
    | none => some w
    | some node =>
      if node.marked then some w
      else
        match node.children.head? with
        | some child => if w.active.getLast? = some key then w.descend child else some w
        | none =>
          let w := w.leaveActive key node
          let w := { w with nodes := w.nodes.erase key }
          match parents.lookup key with
          | none => none
          | some none => pruneLoop parents fuel none w
          | some (some parent) => do
            let w ← w.removeChild parent key
            pruneLoop parents fuel (some parent) w

def prune (w : DirtyWitness Key) (key : Key) (parents : Parents Key) : Option (DirtyWitness Key) :=
  pruneLoop parents parents.keys.card (some key) w

def remove (w : DirtyWitness Key) (key : Key) (parents : Parents Key) :
    Option (DirtyWitness Key × Bool) :=
  match w.nodes.lookup key with
  | none => some (w, false)
  | some node =>
    let w := w.setNode key { node with marked := false }
    if node.marked then do
      let w ← { w with marked := w.marked - 1 }.prune key parents
      some (w, true)
    else some (w, false)

def reparent (w : DirtyWitness Key) (key previous parent : Key) (parents : Parents Key) :
    Option (DirtyWitness Key) :=
  match w.nodes.lookup key with
  | none => some w
  | some node => do
    let w := w.leaveActive key node
    let w ← w.removeChild previous key
    let w ← w.ensurePath parent parents
    let w := w.insertChild parent key
    w.prune previous parents

def firstLoop : Nat → Nat → DirtyWitness Key → Option (Option Key × Nat × DirtyWitness Key)
  | 0, _, _ => none
  | fuel + 1, visits, w => do
    let key ← w.active.getLast?
    let node ← w.nodes.lookup key
    if node.marked then some (some key, visits + 1, w)
    else
      let child ← node.children.head?
      let w ← w.descend child
      firstLoop fuel (visits + 1) w

/-- The first dirty member, the nodes that were visited for it, and the index with the path. -/
def first (w : DirtyWitness Key) (seed : Key) : Option (Option Key × Nat × DirtyWitness Key) :=
  if w.isEmpty then some (none, 0, w)
  else
    (if w.active.isEmpty then w.descend seed else some w).bind fun w =>
      firstLoop w.nodes.keys.card 0 w

def nextLoop (w : DirtyWitness Key) (parents : Parents Key) : Nat → Key → Option (Option Key)
  | 0, _ => none
  | fuel + 1, cursor =>
    match parents.lookup cursor with
    | none => none
    | some none => some none
    | some (some parent) => do
      let node ← w.nodes.lookup parent
      let index ← node.children.idxOf? cursor
      match node.children[index + 1]? with
      | some sibling => some (some sibling)
      | none => nextLoop w parents fuel parent

def next (w : DirtyWitness Key) (key : Key) (descend : Bool) (parents : Parents Key) :
    Option (Option Key) :=
  if descend then do
    let node ← w.nodes.lookup key
    match node.children.head? with
    | some child => some (some child)
    | none => w.nextLoop parents parents.keys.card key
  else w.nextLoop parents parents.keys.card key

end DirtyWitness

end Fz.Pull
