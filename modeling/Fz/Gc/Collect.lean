import Fz.Gc.Object
import Mathlib.Logic.Function.Basic

/-!
# The copying collector

A collection copies every object it reaches out of the old blocks into one new block, to-space, and
leaves a forwarding mark over the first words of the object it copied.  Objects in fragments are
not copied: they are marked, and traced in place.  `forwardHeapValue` is what happens to one value,
`trace` to one object, and `drain` goes on until nothing copied or marked is left untraced.

Memory is a cell for each address an object starts at.  A cell that has been copied keeps the object
that stood there, since only its first words are overwritten.  The addresses of blocks are handed
out by the allocator and are arguments here.  Statistics are left out.
-/

namespace Fz.Gc

open Fz.Terms (ValueKind AnyValue FieldSlot)

/-! ## Memory -/

inductive Cell where
  | object (o : Object)
  /-- Copied: the first word holds the new address under the forwarding tag. -/
  | forwarded (dst : Nat) (o : Object)

/-- Stubs of off-heap owners keep their second word, which the sweep of their chain reads. -/
def Object.keepsSecondWord : Object → Bool
  | .procbin .. | .resource .. => true
  | _ => false

def Cell.word0 : Cell → Nat
  | object o => o.word0
  | forwarded dst _ => dst / 16 * 16 + tagFwd

def Cell.word1 : Cell → Nat
  | object o => o.word1
  | forwarded _ o => if o.keepsSecondWord then o.word1 else tagFwd

/-! ## The forwarding test -/

def isForwardedList (word0 word1 : Nat) : Option Nat :=
  if word0 % 16 = tagFwd then if word1 % 16 = tagFwd then some (word0 / 16 * 16) else none
  else none

def isForwardedHeaderless (word0 word1 : Nat) : Option Nat :=
  if word0 % 16 = tagFwd then
    if word1 = tagFwd ∧ word0 / 16 * 16 ≠ 0 then some (word0 / 16 * 16) else none
  else none

def isForwardedProcbin (word0 : Nat) : Option Nat :=
  if word0 % 16 = tagFwd ∧ word0 / 16 * 16 ≠ 0 then some (word0 / 16 * 16) else none

/-- The test the collector makes before it copies an object of a kind. -/
def forwardedAs (kind : ValueKind) (cell : Cell) : Option Nat :=
  match kind with
  | .list => isForwardedList cell.word0 cell.word1
  | .procbin | .resource => isForwardedProcbin cell.word0
  | _ => isForwardedHeaderless cell.word0 cell.word1

/-! ## State -/

structure Fragment where
  ptr : Nat
  size : Nat
  mark : Bool
  deriving DecidableEq

structure CopiedObject where
  ptr : Nat
  kind : ValueKind
  deriving DecidableEq

structure GcState where
  memory : Nat → Option Cell
  fragments : List Fragment
  fragQueue : List CopiedObject
  /-- Where the next copy goes. -/
  free : Nat
  copiedObjects : List CopiedObject
  /-- Boxed scalars copied for roots.  They hold nothing to trace. -/
  copiedBoxes : List Nat

/-- What a collection does not change: the old blocks and the end of to-space. -/
structure GcEnv where
  fromRanges : List (Nat × Nat)
  toEnd : Nat

inductive GcStop where
  /-- The assertion of `copy_object_to_space`. -/
  | toSpaceExhausted
  /-- A pointer to no object of its kind. -/
  | broken
  deriving DecidableEq

abbrev GcM := StateT GcState (Except GcStop)

def Fragment.contains (f : Fragment) (p : Nat) : Bool := f.ptr ≤ p && p < f.ptr + f.size

def classifyFragment (p : Nat) (fragments : List Fragment) : Option Nat :=
  fragments.findIdx? fun f => f.contains p

def ptrInFromSpace (p : Nat) (ranges : List (Nat × Nat)) : Bool :=
  ranges.any fun range => range.1 ≤ p && p < range.2

variable (env : GcEnv)

def isActiveFromSpaceObject (p : Nat) (fragments : List Fragment) : Bool :=
  p ≠ 0 && (ptrInFromSpace p env.fromRanges || (classifyFragment p fragments).isSome)

/-! ## Forwarding -/

/-- Mark the fragment of an object.  The first to mark it queues the object for tracing. -/
def markFragmentForTracing (p : Nat) (kind : ValueKind) : GcM Bool := do
  let s ← get
  match classifyFragment p s.fragments with
  | none => return false
  | some index =>
    match s.fragments[index]? with
    | some f =>
      if !f.mark then
        modify fun s =>
          { s with
            fragments := s.fragments.set index { f with mark := true }
            fragQueue := s.fragQueue ++ [⟨p, kind⟩] }
      return true
    | none => return true

def copyObjectToSpace (size : Nat) : GcM Nat := do
  let s ← get
  if s.free + size ≤ env.toEnd then
    modify fun s => { s with free := s.free + size }
    return s.free
  else throw .toSpaceExhausted

/-- Copy an object, leaving a forwarding mark, and queue the copy for tracing. -/
def copyWithForwarding (p : Nat) (o : Object) (kind : ValueKind) : GcM Nat := do
  let dst ← copyObjectToSpace env o.size
  modify fun s =>
    { s with
      memory := Function.update (Function.update s.memory dst (some (.object o))) p
        (some (.forwarded dst o))
      copiedObjects := s.copiedObjects ++ [⟨dst, kind⟩] }
  return dst

def cheneyForwardObject (kind : ValueKind) (p : Nat) : GcM Nat := do
  if ← markFragmentForTracing p kind then return p
  match (← get).memory p with
  | none => throw .broken
  | some cell =>
    match forwardedAs kind cell with
    | some dst => return dst
    | none =>
      match cell with
      | .object o => if o.hasKind kind then copyWithForwarding env p o kind else throw .broken
      | .forwarded _ _ => throw .broken

def forwardHeapValue (v : AnyValue) : GcM AnyValue := do
  match v with
  | .heapRef kind p =>
    if isActiveFromSpaceObject env p (← get).fragments then
      return .heapRef kind (← cheneyForwardObject env kind p)
    else return v
  | _ => return v

/-! ## Tracing -/

def forwardAll : List AnyValue → GcM (List AnyValue)
  | [] => return []
  | v :: vs => do
    let v ← forwardHeapValue env v
    let vs ← forwardAll vs
    return v :: vs

def cheneyTraceList (head : AnyValue) (tail : Nat) (aliased : Bool) : GcM Object := do
  let head ← forwardHeapValue env head
  if tail = 0 then return .cons head 0 aliased
  else
    let tail ← forwardHeapValue env (.heapRef .list tail)
    return .cons head tail.addr aliased

def forwardEntries : List (AnyValue × AnyValue) → GcM (List (AnyValue × AnyValue))
  | [] => return []
  | (key, value) :: entries => do
    let key ← forwardHeapValue env key
    let value ← forwardHeapValue env value
    let entries ← forwardEntries entries
    return (key, value) :: entries

def forwardSlots : List FieldSlot → GcM (List FieldSlot)
  | [] => return []
  | .value v :: slots => do
    let v ← forwardHeapValue env v
    let slots ← forwardSlots slots
    return .value v :: slots
  | slot :: slots => do
    let slots ← forwardSlots slots
    return slot :: slots

/-- Forward everything an object holds. -/
def traced : Object → GcM Object
  | .cons head tail aliased => cheneyTraceList env head tail aliased
  | .map entries => do return .map (← forwardEntries env entries)
  | .struct id slots => do return .struct id (← forwardSlots env slots)
  | .closure denotationId arity haltKind code captures => do
    return .closure denotationId arity haltKind code (← forwardAll env captures)
  | .resource shared dtor msoNext => do
    return .resource shared (← forwardHeapValue env dtor) msoNext
  | .bitstring bitLen bytes => return .bitstring bitLen bytes
  | .procbin shared msoNext byteOffset => return .procbin shared msoNext byteOffset
  | .scalar _ => throw .broken

/-- Trace one copied or marked object in place. -/
def trace (c : CopiedObject) : GcM Unit := do
  match (← get).memory c.ptr with
  | some (.object o) =>
    if o.hasKind c.kind then do
      let o ← traced env o
      modify fun s => { s with memory := Function.update s.memory c.ptr (some (.object o)) }
    else throw .broken
  | _ => throw .broken

/-- Trace the copies in order, and when they are done a marked fragment, until nothing is left.
Every object is traced once, so `fuel` above the number of objects does not run out. -/
def drain : Nat → Nat → GcM Unit
  | 0, _ => throw .broken
  | fuel + 1, scanIdx => do
    let s ← get
    match s.copiedObjects[scanIdx]? with
    | some c =>
      trace env c
      drain fuel (scanIdx + 1)
    | none =>
      match s.fragQueue.getLast? with
      | some c =>
        modify fun s => { s with fragQueue := s.fragQueue.dropLast }
        trace env c
        drain fuel scanIdx
      | none => return ()

/-! ## Roots -/

/-- A value reference held by a root: a boxed scalar is the address of its word. -/
inductive AnyValueRef where
  | null
  | emptyList
  | scalar (kind : ValueKind) (slot : Nat)
  | heap (kind : ValueKind) (addr : Nat)
  deriving DecidableEq

/-- Copy the box of a scalar root.  A box has no forwarding mark: every root that holds it gets a
copy of its own. -/
def copyScalarBoxToSpace (p : Nat) : GcM Nat := do
  match (← get).memory p with
  | some (.object (.scalar word)) =>
    let dst ← copyObjectToSpace env 16
    modify fun s =>
      { s with
        memory := Function.update s.memory dst (some (.object (.scalar word)))
        copiedBoxes := s.copiedBoxes ++ [dst] }
    return dst
  | _ => throw .broken

def forwardAnyValueRefRoot : AnyValueRef → GcM AnyValueRef
  | .null => return .null
  | .emptyList => return .emptyList
  | .scalar kind slot => do
    if isActiveFromSpaceObject env slot (← get).fragments then
      return .scalar kind (← copyScalarBoxToSpace env slot)
    else return .scalar kind slot
  | .heap kind addr => do
    if isActiveFromSpaceObject env addr (← get).fragments then
      return .heap kind (← cheneyForwardObject env kind addr)
    else return .heap kind addr

/-- The closure a process resumes with, values held by the interpreter or a park record, and value
references such as the mailbox. -/
structure Roots where
  primary : AnyValue
  values : List AnyValue
  refs : List AnyValueRef
  deriving DecidableEq

def forwardRefs : List AnyValueRef → GcM (List AnyValueRef)
  | [] => return []
  | r :: rs => do
    let r ← forwardAnyValueRefRoot env r
    let rs ← forwardRefs rs
    return r :: rs

def forwardRoots (roots : Roots) : GcM Roots := do
  let primary ← forwardHeapValue env roots.primary
  let values ← forwardAll env roots.values
  let refs ← forwardRefs env roots.refs
  return ⟨primary, values, refs⟩

end Fz.Gc
