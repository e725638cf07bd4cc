import Fz.Terms.Heap

/-!
# The term comparator

`TermComparator::compare` and its parts, as the runtime runs them on words and objects.  The parts
take the comparison of sub-values as an argument, and `compare` ties the knot with a bound on the
depth of the walk; an assertion that fails, and a bound that is too small, end the run.

Identity shortcuts are where the code has them: structs and closures compare their source
identity before the addresses, every other heap kind returns early on equal words.
-/

namespace Fz.Terms

open Std Fz.Base

/-- The comparison of two words in a mode. -/
abbrev ValueCmp := AnyValue → AnyValue → NumericMode → Except Panic Ordering

/-- The order of kinds.  Numbers share a place, and so do the two representations of a binary. -/
def rank : ValueKind → Except Panic Nat
  | .int | .float => .ok 0
  | .atom => .ok 1
  | .resource => .ok 2
  | .closure => .ok 3
  | .struct => .ok 4
  | .map => .ok 5
  | .list => .ok 6
  | .bitstring | .procbin => .ok 7
  | .null => .error .absentCarrier

/-- Compare the elements of two sequences in order, up to the first difference. -/
def cmpEach {α : Type} (f : α → α → Except Panic Ordering) : List α → List α → Except Panic Ordering
  | x :: xs, y :: ys => do
    let order ← f x y
    if order ≠ .eq then return order
    cmpEach f xs ys
  | [], [] => .ok .eq
  | _, _ => .error .malformedObject

def Node.cmpAtomNames (node : Node) (left right : Nat) : Except Panic Ordering :=
  match node.atoms[left]?, node.atoms[right]? with
  | some l, some r => .ok (compare l r)
  | _, _ => .error .unregisteredAtom

/-- Closure denotations compare by their source; the internal continuation has none. -/
def Node.compareClosureDenotations (node : Node) (left right : Nat) : Except Panic Ordering :=
  if left = 2 ^ 32 - 1 ∨ right = 2 ^ 32 - 1 then .error .internalClosure
  else match node.closureDenotations left, node.closureDenotations right with
    | some l, some r => .ok (l.semanticCmp r)
    | _, _ => .error .unregisteredClosure

namespace TermComparator

variable (c : TermComparator)

/-- What `compare` asserts of an argument before looking at it. -/
def checkValue : AnyValue → Except Panic Unit
  | .null => .error .absentCarrier
  | .heapRef .map a => match c.memory a with
    | some (.map false _) => .ok ()
    | some (.map true _) => .error .unpublishedMap
    | _ => .error .malformedObject
  | .float x => if x.isFinite then .ok () else .error .nonfiniteFloat
  | _ => .ok ()

def slotCmp (self : ValueCmp) (mode : NumericMode) : FieldKind → FieldSlot → FieldSlot →
    Except Panic Ordering
  | .anyValue, .value a, .value b => self a b mode
  | .rawI64, .rawI64 a, .rawI64 b => .ok (compare a.toInt b.toInt)
  | .rawF64, .rawF64 a, .rawF64 b => floatCmp a b mode
  | .rawBytes n, .rawBytes a, .rawBytes b =>
    .ok (List.compareLex compareByte (a.take n) (b.take n))
  | _, _, _ => .error .malformedObject

/-- The fields of two structs of one schema, in schema order. -/
def slotsCmp (self : ValueCmp) (mode : NumericMode) : List FieldKind → List FieldSlot →
    List FieldSlot → Except Panic Ordering
  | k :: ks, a :: as, b :: bs => do
    let order ← slotCmp self mode k a b
    if order ≠ .eq then return order
    slotsCmp self mode ks as bs
  | [], _, _ => .ok .eq
  | _, _, _ => .error .malformedObject

def structCmp (self : ValueCmp) (a b : Addr) (mode : NumericMode) : Except Panic Ordering :=
  match c.memory a, c.memory b with
  | some (.struct aId aSlots), some (.struct bId bSlots) =>
    match c.schemas.get? aId, c.schemas.get? bId with
    | some schema, some schema' => do
      let identity ← schema.identity.semanticCmp schema'.identity
      if identity ≠ .eq ∨ a = b then return identity
      slotsCmp self mode schema.fields aSlots bSlots
    | _, _ => .error .malformedObject
  | _, _ => .error .malformedObject

/-- Maps: size, then all keys in strict order, then all values in the caller's mode. -/
def mapCmp (self : ValueCmp) (a b : Addr) (mode : NumericMode) : Except Panic Ordering :=
  match c.memory a, c.memory b with
  | some (.map _ as), some (.map _ bs) => do
    let size := compare as.length bs.length
    if size ≠ .eq then return size
    let keys ← cmpEach (fun x y : AnyValue × AnyValue => self x.1 y.1 .strict) as bs
    if keys ≠ .eq then return keys
    cmpEach (fun x y : AnyValue × AnyValue => self x.2 y.2 mode) as bs
  | _, _ => .error .malformedObject

/-- Lists: heads from the front, then the list that ends first comes first. -/
def listCmp (self : ValueCmp) (mode : NumericMode) : Nat → Addr → Addr → Except Panic Ordering
  | n, a, b =>
    if a ≠ 0 ∧ b ≠ 0 then
      match n with
      | 0 => .error .outOfFuel
      | n + 1 => match c.memory a, c.memory b with
        | some (.cons ah at'), some (.cons bh bt) => do
          let order ← self ah bh mode
          if order ≠ .eq then return order
          listCmp self mode n at' bt
        | _, _ => .error .malformedObject
    else .ok (compare (decide (b = 0)) (decide (a = 0)))

/-- Closures: denotation, then the number of captures, then the captures in strict order. -/
def closureCmp (self : ValueCmp) (a b : Addr) : Except Panic Ordering :=
  match c.memory a, c.memory b with
  | some (.closure aId as), some (.closure bId bs) => do
    let identity ← c.node.compareClosureDenotations aId bId
    if identity ≠ .eq ∨ a = b then return identity
    let shape := compare as.length bs.length
    if shape ≠ .eq then return shape
    cmpEach (fun x y => self x y .strict) as bs
  | _, _ => .error .malformedObject

def resourceCmp (a b : Addr) : Except Panic Ordering :=
  match c.memory a, c.memory b with
  | some (.resource a), some (.resource b) => .ok (compare a b)
  | _, _ => .error .malformedObject

def binaryCmp (a b : AnyValue) : Except Panic Ordering :=
  match c.payload? a.kind a.addr, c.payload? b.kind b.addr with
  | some p, some q => .ok (bitstringCmp p q)
  | _, _ => .error .malformedObject

/-- Two words of one rank. -/
def sameRankCmp (n : Nat) (self : ValueCmp) (a b : AnyValue) (mode : NumericMode) :
    Except Panic Ordering :=
  match a, b with
  | .int a, .int b => .ok (compare a.toInt b.toInt)
  | .float a, .float b => floatCmp a b mode
  | .int a, .float b => do
    let order ← compareIntFloat a b
    return match mode with
      | .strict => order.then .lt
      | .widening => order
  | .float a, .int b => do
    let order ← compareIntFloat b a
    return match mode with
      | .strict => order.swap.then .gt
      | .widening => order.swap
  | .atom a, .atom b => c.node.cmpAtomNames a b
  | a, b =>
    if a.kind = .struct then c.structCmp self a.addr b.addr mode
    else if a.kind = .closure then c.closureCmp self a.addr b.addr
    else if a = b then .ok .eq
    else if a.kind.isBinaryRepr then c.binaryCmp a b
    else if a.kind = .map then c.mapCmp self a.addr b.addr mode
    else if a.kind = .list then c.listCmp self mode n a.addr b.addr
    else if a.kind = .resource then c.resourceCmp a.addr b.addr
    else .error .malformedObject

/-- Compare two words, walking at most `n` levels and list cells deep. -/
def compare : Nat → ValueCmp
  | 0, _, _, _ => .error .outOfFuel
  | n + 1, a, b, mode => do
    c.checkValue a
    c.checkValue b
    let ra ← rank a.kind
    let rb ← rank b.kind
    let category := Ord.compare ra rb
    if category ≠ .eq then return category
    c.sameRankCmp n (compare n) a b mode

/-- The comparator's answer: what every run with a large enough bound returns. -/
def Answers (a b : AnyValue) (mode : NumericMode) (o : Ordering) : Prop :=
  ∃ n, ∀ m ≥ n, c.compare m a b mode = .ok o

end TermComparator

end Fz.Terms
