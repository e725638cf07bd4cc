import Fz.Bitstr.Field
import Fz.Terms.Map

/-!
# Deep copies

A message is copied object by object from the sender's heap to the receiver's.  Both heaps live in
one address space, so that the copy is a program on one memory with a test for the addresses of the
source heap; a word that points elsewhere is shared.  A table from source to copy keeps sharing: a
list cell, a struct and a closure are entered before their parts are copied, a map and a resource
after.  Parts are written into a copy at once, when all of them are there.
-/

namespace Fz.Terms

open Fz.Base Fz.Bitstr

structure CopyState where
  heap : Heap
  forwarding : Addr → Option Addr

abbrev CopyM := StateT CopyState (Except Panic)

namespace Copy

/-- Run an operation on the heap. -/
def onHeap {α : Type} (op : HeapM α) : CopyM α := fun s =>
  match op s.heap with
  | .ok (a, h) => .ok (a, { s with heap := h })
  | .error e => .error e

def forward (sp dp : Addr) : CopyM Unit :=
  modify fun s => { s with forwarding := Function.update s.forwarding sp (some dp) }

theorem zero_fraction_lt : 0 < 2 ^ 52 := by decide

theorem zero_exponent_lt : 0 < 2 ^ 11 := by decide

/-- What a fresh struct holds before its fields are copied. -/
def zeroSlot : FieldSlot → FieldSlot
  | .value _ => .value .null
  | .rawI64 _ => .rawI64 0
  | .rawF64 _ => .rawF64 ⟨false, 0, 0, zero_exponent_lt, zero_fraction_lt⟩
  | .rawBytes bytes => .rawBytes (List.replicate bytes.length 0)

/-- The object of a binary, and the kind of its words. -/
def binaryObject : Bitstring → ValueKind × Object
  | .inline p => (.bitstring, .bitstring p)
  | .procbin stub => (.procbin, .procbin stub)

section Objects

variable (self : AnyValue → CopyM AnyValue)

def copyChild (v : AnyValue) : CopyM AnyValue :=
  if v.kind.isHeap then self v else pure v

def copyMap (sp : Addr) (entries : List (AnyValue × AnyValue)) : CopyM AnyValue := do
  forward sp 0
  let copied ← entries.mapM fun e => do
    let key ← copyChild self e.1
    let value ← copyChild self e.2
    return (key, value)
  let w ← onHeap (Heap.allocOrderedMapEntries copied)
  forward sp w.addr
  return w

/-- The rest of a list, unless it ends here. -/
def copyTail (tail : Addr) : CopyM AnyValue :=
  if tail = 0 then pure .emptyList else self (.heapRef .list tail)

def copyList (sp : Addr) (head : AnyValue) (tail : Addr) : CopyM AnyValue := do
  let dp ← onHeap (Heap.alloc (.cons (.atom 0) 0))
  forward sp dp
  let newHead ← copyChild self head
  let newTail ← copyTail self tail
  onHeap (Heap.write dp (.cons newHead newTail.addr))
  return .heapRef .list dp

def copyClosure (sp : Addr) (id : Nat) (captures : List AnyValue) : CopyM AnyValue := do
  let dp ← onHeap (Heap.alloc (.closure id (captures.map fun _ => .null)))
  forward sp dp
  let copied ← captures.mapM (copyChild self)
  onHeap (Heap.write dp (.closure id copied))
  return .heapRef .closure dp

def copySlot : FieldSlot → CopyM FieldSlot
  | .value v => do
    let copied ← copyChild self v
    return .value copied
  | slot => pure slot

def copyStruct (sp : Addr) (id : Nat) (slots : List FieldSlot) : CopyM AnyValue := do
  let dp ← onHeap (Heap.alloc (.struct id (slots.map zeroSlot)))
  forward sp dp
  let copied ← slots.mapM (copySlot self)
  onHeap (Heap.write dp (.struct id copied))
  return .heapRef .struct dp

end Objects

def copyBitstring (sp : Addr) (p : BitPayload) : CopyM AnyValue := do
  let (kind, o) := binaryObject (allocBitstring p.bytes p.bitLen)
  let dp ← onHeap (Heap.alloc o)
  forward sp dp
  return .heapRef kind dp

def copyLeaf (kind : ValueKind) (sp : Addr) (o : Object) : CopyM AnyValue := do
  let dp ← onHeap (Heap.alloc o)
  forward sp dp
  return .heapRef kind dp

/-- Copy a word, following at most `n` words deep. -/
def deepCopyAnyValue (inSource : Addr → Bool) : Nat → AnyValue → CopyM AnyValue
  | 0, _ => throw .outOfFuel
  | n + 1, .heapRef kind sp => do
    if sp = 0 ∨ inSource sp = false then return .heapRef kind sp
    let s ← get
    match s.forwarding sp with
    | some dp => return .heapRef kind dp
    | none => match kind, s.heap.terms.memory sp with
      | .map, some (.map false entries) => copyMap (deepCopyAnyValue inSource n) sp entries
      | .list, some (.cons head tail) => copyList (deepCopyAnyValue inSource n) sp head tail
      | .closure, some (.closure id captures) =>
        copyClosure (deepCopyAnyValue inSource n) sp id captures
      | .struct, some (.struct id slots) => copyStruct (deepCopyAnyValue inSource n) sp id slots
      | .bitstring, some (.bitstring p) => copyBitstring sp p
      | .procbin, some (.procbin stub) => copyLeaf .procbin sp (.procbin stub)
      | .resource, some (.resource id) => copyLeaf .resource sp (.resource id)
      | _, _ => throw .malformedObject
  | _ + 1, src => pure src

end Copy

/-- Copy one message, with a table of its own. -/
def Heap.deepCopy (inSource : Addr → Bool) (n : Nat) (src : AnyValue) : HeapM AnyValue := fun h =>
  match Copy.deepCopyAnyValue inSource n src ⟨h, fun _ => none⟩ with
  | .ok (w, s) => .ok (w, s.heap)
  | .error e => .error e

end Fz.Terms
