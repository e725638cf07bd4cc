import Fz.Gc.Collect

/-!
# The heap of a process

A heap is one bump-allocated block, the blocks abandoned since the last collection, and fragments:
objects too large for any block, each in an allocation of its own.  `Heap.gc` picks the size of
to-space, copies what the roots reach, sweeps the chain of off-heap owners and the fragments, and
installs to-space as the block.

`memory` holds the object at each address where one starts, and `objects` lists these addresses.
The addresses of new blocks and fragments come from the allocator and are arguments.
-/

namespace Fz.Gc

open Fz.Terms (ValueKind AnyValue)

/-! ## Size classes -/

/-- About a fifth more, in steps of 16. -/
def growSizes : Nat → Nat → List Nat
  | 0, _ => []
  | n + 1, previous =>
    let next := Object.roundUp 16 ((previous * 6 + 4) / 5)
    next :: growSizes n next

def sizeTable : List Nat :=
  [1024, 1536, 2560, 4096, 6656, 10752, 17408, 28160, 45568, 73728, 119296, 192768] ++
    growSizes 20 192768

def lastClass : Nat := sizeTable.length - 1

def classSize (sizeClass : Nat) : Nat := sizeTable.getD sizeClass 0

/-- The smallest class that holds this many bytes, or else the last class. -/
def pickSizeClass (bytes : Nat) : Nat :=
  (sizeTable.findIdx? fun size => bytes ≤ size).getD lastClass

/-- Objects larger than the largest class are fragments. -/
def fragmentThreshold : Nat := classSize lastClass

/-! ## The heap -/

structure Heap where
  blockStart : Nat
  bumpTop : Nat
  sizeClass : Nat
  lastGcLiveBytes : Nat
  abandonedBlocks : List (Nat × Nat)
  gcThresholdBytes : Nat
  pressure : Bool
  msoHead : Nat
  fragments : List Fragment
  memory : Nat → Option Object
  objects : List Nat

namespace Heap

def new (capacity : Nat) (block : Nat) : Heap :=
  let sizeClass := pickSizeClass capacity
  { blockStart := block
    bumpTop := block
    sizeClass
    lastGcLiveBytes := 0
    abandonedBlocks := []
    gcThresholdBytes := classSize sizeClass / 2
    pressure := false
    msoHead := 0
    fragments := []
    memory := fun _ => none
    objects := [] }

variable (h : Heap)

def blockSize : Nat := classSize h.sizeClass

def blockEnd : Nat := h.blockStart + h.blockSize

def fragmentBytes : Nat := (h.fragments.map Fragment.size).sum

/-- Bytes in the current block and the abandoned ones. -/
def occupiedBytes : Nat :=
  (h.bumpTop - h.blockStart) + (h.abandonedBlocks.map fun block => classSize block.2).sum

def bytesUsed : Nat := h.occupiedBytes + h.fragmentBytes

def noteAllocPressure : Heap :=
  if h.gcThresholdBytes ≤ h.bytesUsed then { h with pressure := true } else h

end Heap

/-! ## Stubs -/

namespace Object

def msoNext? : Object → Option Nat
  | procbin _ msoNext _ => some msoNext
  | resource _ _ msoNext => some msoNext
  | _ => none

def setMsoNext (next : Nat) : Object → Object
  | procbin shared _ byteOffset => .procbin shared next byteOffset
  | resource shared dtor _ => .resource shared dtor next
  | o => o

def stubKind? : Object → Option ValueKind
  | procbin .. => some .procbin
  | resource .. => some .resource
  | _ => none

end Object

/-! ## Allocation -/

namespace Heap

/-- A new stub becomes the head of the chain. -/
def linkStub (h : Heap) (p : Nat) (o : Object) : Heap :=
  match o.stubKind? with
  | none => h
  | some kind => { h with msoHead := p + tag kind }

def place (h : Heap) (p : Nat) (o : Object) : Heap :=
  let h := { h with
    memory := Function.update h.memory p (some (o.setMsoNext h.msoHead))
    objects := h.objects ++ [p] }
  (h.linkStub p o).noteAllocPressure

/-- The class of the block that takes over when an object does not fit. -/
def grownClass (h : Heap) (size : Nat) : Nat :=
  max (pickSizeClass size) (min (h.sizeClass + 1) lastClass)

/-- Allocate an object.  `block` is where the allocator would put a new block or fragment. -/
def alloc (h : Heap) (block : Nat) (o : Object) : Nat × Heap :=
  if fragmentThreshold < o.size then
    (block, place { h with fragments := h.fragments ++ [⟨block, o.size, false⟩] } block o)
  else if h.blockEnd < h.bumpTop + o.size then
    (block,
      place
        { h with
          abandonedBlocks := h.abandonedBlocks ++ [(h.blockStart, h.sizeClass)]
          blockStart := block
          bumpTop := block + o.size
          sizeClass := h.grownClass o.size }
        block o)
  else (h.bumpTop, place { h with bumpTop := h.bumpTop + o.size } h.bumpTop o)

/-! ## The size of to-space -/

/-- Allocation has outgrown the block since the last collection. -/
def wasPressured (h : Heap) : Bool :=
  !h.abandonedBlocks.isEmpty || h.gcThresholdBytes ≤ h.occupiedBytes

def fitToLive (h : Heap) : Nat :=
  if 0 < h.lastGcLiveBytes then h.lastGcLiveBytes * 2 else h.occupiedBytes

def targetBytes (h : Heap) : Nat :=
  if h.wasPressured then max h.fitToLive (h.occupiedBytes * 2)
  else if h.lastGcLiveBytes = 0 ∨ h.lastGcLiveBytes * 4 ≤ h.blockSize then h.fitToLive
  else h.blockSize

def toSpaceClass (h : Heap) : Nat :=
  let sizeClass := pickSizeClass (max h.targetBytes (classSize 0))
  if h.wasPressured then max sizeClass (min (h.sizeClass + 1) lastClass) else sizeClass

def fromRanges (h : Heap) : List (Nat × Nat) :=
  (h.blockStart, h.blockEnd) ::
    h.abandonedBlocks.map fun block => (block.1, block.1 + classSize block.2)

end Heap

/-! ## Sweeping the chain of stubs -/

/-- What the sweep has done: the new chain, and the off-heap objects let go. -/
structure MsoSweep where
  head : Nat
  memory : Nat → Option Cell
  released : List Nat

def Cell.content : Cell → Object
  | object o | forwarded _ o => o

/-- Rewrite the link of the stub at an address. -/
def setMsoNextAt (memory : Nat → Option Cell) (p : Nat) (next : Nat) : Nat → Option Cell :=
  match memory p with
  | some (.object o) => Function.update memory p (some (.object (o.setMsoNext next)))
  | _ => memory

def sharedOf : Object → Option Nat
  | .procbin shared _ _ => some shared
  | .resource shared _ _ => some shared
  | _ => none

/-- Walk the old chain.  A stub with a mark was copied: its copy joins the new chain.  The others
let their off-heap object go. -/
def msoSweep : Nat → Nat → MsoSweep → Except GcStop MsoSweep
  | 0, _, _ => .error .broken
  | fuel + 1, current, sweep =>
    if current = 0 then .ok sweep
    else
      match sweep.memory (current / 16 * 16) with
      | none => .error .broken
      | some cell =>
        match cell.content.msoNext?, sharedOf cell.content with
        | some next, some shared =>
          if cell.word0 % 16 = tagFwd then
            let dst := cell.word0 / 16 * 16
            msoSweep fuel next
              { sweep with
                memory := setMsoNextAt sweep.memory dst sweep.head
                head := dst + current % 16 }
          else msoSweep fuel next { sweep with released := sweep.released ++ [shared] }
        | _, _ => .error .broken

/-! ## Collection -/

namespace Heap

def startState (h : Heap) (toStart : Nat) : GcState where
  memory := fun a => (h.memory a).map .object
  fragments := h.fragments.map fun f => { f with mark := false }
  fragQueue := []
  free := toStart
  copiedObjects := []
  copiedBoxes := []

def toEnv (h : Heap) (toStart : Nat) : GcEnv :=
  ⟨h.fromRanges, toStart + classSize h.toSpaceClass⟩

/-- Copy what the roots reach. -/
def copyLive (h : Heap) (toStart : Nat) (roots : Roots) : GcM Roots := do
  let roots ← forwardRoots (h.toEnv toStart) roots
  drain (h.toEnv toStart) (h.objects.length + 1) 0
  return roots

/-- The object in a cell that was not copied away. -/
def cellObject? : Cell → Option Object
  | .object o => some o
  | .forwarded _ _ => none

/-- The heap after a collection: to-space is the block, and only marked fragments are kept. -/
def install (h : Heap) (toStart : Nat) (s : GcState) (sweep : MsoSweep) : Heap :=
  let kept := s.fragments.filter Fragment.mark
  { h with
    blockStart := toStart
    bumpTop := s.free
    sizeClass := h.toSpaceClass
    lastGcLiveBytes := s.free - toStart
    abandonedBlocks := []
    gcThresholdBytes := classSize h.toSpaceClass / 2
    msoHead := sweep.head
    fragments := kept.map fun f => { f with mark := false }
    memory := fun a =>
      if (toStart ≤ a ∧ a < s.free) ∨ kept.any (·.contains a) then
        (sweep.memory a).bind cellObject?
      else none
    objects := s.copiedObjects.map CopiedObject.ptr ++ s.copiedBoxes ++ kept.map Fragment.ptr }

def gc (h : Heap) (toStart : Nat) (roots : Roots) : Except GcStop (Heap × Roots) := do
  let (roots, s) ← h.copyLive toStart roots (h.startState toStart)
  let sweep ← msoSweep (h.objects.length + 1) h.msoHead ⟨0, s.memory, []⟩
  return (h.install toStart s sweep, roots)

end Heap

end Fz.Gc
