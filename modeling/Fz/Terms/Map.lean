import Fz.Base.Entries
import Fz.Base.Wp
import Fz.Terms.Order

/-!
# Maps on the heap

A map object holds its entries in one flat sequence.  A literal is sorted and deduplicated when it
is published; a destination collects entries unsorted and is normalised when it is frozen; putting
and deleting one key copy the entries around its place, which a binary search finds.

The heap hands out addresses in increasing order; sizes and blocks are not modelled.  The bound `n`
of an operation is the bound of the comparisons it makes.
-/

namespace Fz.Terms

open Fz.Base

/-- The heap as map operations see it: the objects, the next free address, and for every map
destination the number of entries it has room for. -/
structure Heap where
  terms : TermComparator
  next : Addr
  capacity : Addr → Nat
  next_pos : 0 < next
  free : ∀ a, next ≤ a → terms.memory a = none

/-- An operation on the heap. -/
abbrev HeapM := StateT Heap (Except Panic)

namespace Heap

/-- A heap with nothing on it. -/
def empty (node : Node) (schemas : SchemaRegistry) : Heap where
  terms := ⟨node, schemas, fun _ => none⟩
  next := 1
  capacity := fun _ => 0
  next_pos := Nat.one_pos
  free := fun _ _ => rfl

/-- One more object. -/
def extend (h : Heap) (o : Object) : Heap where
  terms := { h.terms with memory := Function.update h.terms.memory h.next (some o) }
  next := h.next + 1
  capacity := h.capacity
  next_pos := Nat.succ_pos _
  free := by
    intro a ha
    show Function.update h.terms.memory h.next (some o) a = none
    rw [Function.update_of_ne (Nat.ne_of_gt ha), h.free a (Nat.le_of_succ_le ha)]

/-- Another object at an address that is in use. -/
def replace (h : Heap) (a : Addr) (o : Object) (ha : a < h.next) : Heap where
  terms := { h.terms with memory := Function.update h.terms.memory a (some o) }
  next := h.next
  capacity := h.capacity
  next_pos := h.next_pos
  free := by
    intro b hb
    show Function.update h.terms.memory a (some o) b = none
    rw [Function.update_of_ne (Nat.ne_of_gt (Nat.lt_of_lt_of_le ha hb)), h.free b hb]

def alloc (o : Object) : HeapM Addr := do
  let h ← get
  set (h.extend o)
  return h.next

def write (a : Addr) (o : Object) : HeapM Unit := do
  let h ← get
  if ha : a < h.next then set (h.replace a o ha)
  else throw .malformedObject

/-! ## Construction -/

/-- The entries of a published map. -/
def mapEntries (a : Addr) : HeapM (List (AnyValue × AnyValue)) := do
  let h ← get
  match h.terms.memory a with
  | some (.map false entries) => return entries
  | some (.map true _) => throw .unpublishedMap
  | _ => throw .malformedObject

/-- Sort by key and keep the last value of each. -/
def normalizeMapEntries (n : Nat) (entries : List (AnyValue × AnyValue)) :
    HeapM (List (AnyValue × AnyValue)) := do
  let h ← get
  let comparator : AnyValue → AnyValue → Except Panic Ordering :=
    fun a b => h.terms.compare n a b .strict
  let sorted ← (Entries.sortBy comparator entries : Except Panic _)
  (Entries.dedupBy comparator sorted : Except Panic _)

/-- Every key that is written is asserted to be a value. -/
def checkKeys (entries : List (AnyValue × AnyValue)) : HeapM Unit :=
  if entries.any fun e => e.1.kind == .null then throw .absentCarrier else pure ()

def allocOrderedMapEntries (entries : List (AnyValue × AnyValue)) : HeapM AnyValue := do
  checkKeys entries
  let p ← alloc (.map false entries)
  return .heapRef .map p

def allocMapSlots (n : Nat) (entries : List (AnyValue × AnyValue)) : HeapM AnyValue := do
  let entries ← normalizeMapEntries n entries
  allocOrderedMapEntries entries

/-! ## Destinations -/

/-- A destination with room for some more entries than its base has; a base that is no map counts
as none. -/
def allocMapDestination (base : Option AnyValue) (extra : Nat) : HeapM AnyValue := do
  let entries ← match base with
    | some (.heapRef .map a) => mapEntries a
    | _ => pure []
  let capacity := entries.length + extra
  if capacity < 2 ^ 31 then
    let p ← alloc (.map true entries)
    modify fun h => { h with capacity := Function.update h.capacity p capacity }
    return .heapRef .map p
  else throw .malformedObject

/-- The address and the entries of a destination. -/
def destinationState (dest : AnyValue) : HeapM (Addr × List (AnyValue × AnyValue)) := do
  let h ← get
  match dest with
  | .heapRef .map a => match h.terms.memory a with
    | some (.map true entries) => return (a, entries)
    | _ => throw .malformedObject
  | _ => throw .malformedObject

def mapDestinationPut (dest key value : AnyValue) : HeapM Unit := do
  let (a, entries) ← destinationState dest
  let h ← get
  if entries.length < h.capacity a then
    checkKeys [(key, value)]
    write a (.map true (entries ++ [(key, value)]))
  else throw .malformedObject

def mapDestinationFreeze (n : Nat) (dest : AnyValue) : HeapM AnyValue := do
  let (a, entries) ← destinationState dest
  let entries ← normalizeMapEntries n entries
  checkKeys entries
  write a (.map false entries)
  return dest

/-! ## One key -/

/-- Where a key stands in a map, or where it would. -/
def mapKeyPosition (n : Nat) (a : Addr) (key : AnyValue) : HeapM (Except Nat Nat) := do
  let entries ← mapEntries a
  let h ← get
  (Entries.search (fun a b => h.terms.compare n a b .strict) .malformedObject entries key :
    Except Panic _)

def mapEntry (entries : List (AnyValue × AnyValue)) (i : Nat) : HeapM (AnyValue × AnyValue) :=
  match entries[i]? with
  | some e => pure e
  | none => throw .malformedObject

def mapPutEntry (n : Nat) (a : Addr) (key value : AnyValue) : HeapM AnyValue := do
  let old ← mapEntries a
  let position ← mapKeyPosition n a key
  let (index, inserted) := match position with
    | .ok index => (index, 0)
    | .error index => (index, 1)
  let entries ← (List.range (old.length + inserted)).mapM fun i =>
    if i = index then pure (key, value)
    else mapEntry old (if i < index then i else i - inserted)
  allocOrderedMapEntries entries

def mapPutSlotBits (n : Nat) (map key value : AnyValue) : HeapM AnyValue :=
  match map with
  | .heapRef .map a => mapPutEntry n a key value
  | _ => allocOrderedMapEntries [(key, value)]

/-- The address of a map word. -/
def mapAddr : AnyValue → HeapM Addr
  | .heapRef .map a => pure a
  | _ => throw .malformedObject

/-- Deleting an absent key gives the map back. -/
def mapDeleteRef (n : Nat) (map key : AnyValue) : HeapM AnyValue := do
  let a ← mapAddr map
  match ← mapKeyPosition n a key with
  | .error _ => return map
  | .ok index =>
    let old ← mapEntries a
    let entries ← (List.range (old.length - 1)).mapM fun i =>
      mapEntry old (if i < index then i else i + 1)
    allocOrderedMapEntries entries

def readMapValue (n : Nat) (map key : AnyValue) : HeapM (Option AnyValue) := do
  let a ← mapAddr map
  match ← mapKeyPosition n a key with
  | .error _ => return none
  | .ok index =>
    let old ← mapEntries a
    let entry ← mapEntry old index
    return some entry.2

end Heap

end Fz.Terms
