import Fz.Terms.Bits
import Fz.Terms.Identity
import Mathlib.Data.List.Nodup

/-!
# Runtime words, objects and the terms they denote

A runtime value is a word: a scalar, the empty list, or a tagged address.  What stands at an
address is kept as an object, one constructor for each heap kind, with the data the runtime's
accessors return (`map_entry`, `closure_capture_value`, `ListCons::head_value` and so on); byte
offsets inside an object are not modelled.  Struct objects hold one slot for each field of their
schema, in schema order.

`TermComparator.term?` reads the term a word denotes: a finite tree whose labels carry what a
value says at its own level and whose children are its parts in storage order.  Addresses, the
choice between inline and shared binaries and the numbers of atoms, schemas and closures are not
in it.  A word denotes a term only if it is published: its maps are finished, its floats finite,
its atoms and closures registered, and the objects below it form no cycle.
-/

namespace Fz.Terms

open Std Fz.Base

/-! ## Words -/

inductive ValueKind where
  | null | list | map | struct | closure | bitstring | procbin | resource | int | float | atom
  deriving DecidableEq, Repr

def ValueKind.isHeap : ValueKind → Bool
  | .list | .map | .struct | .closure | .bitstring | .procbin | .resource => true
  | _ => false

def ValueKind.isBinaryRepr : ValueKind → Bool
  | .bitstring | .procbin => true
  | _ => false

/-- Addresses; `0` is the null pointer. -/
abbrev Addr := Nat

/-- A runtime value as it is passed around. -/
inductive AnyValue where
  | null
  | emptyList
  | int (n : Int64)
  | float (x : F64)
  | atom (id : Nat)
  | heapRef (kind : ValueKind) (addr : Addr)
  deriving DecidableEq

namespace AnyValue

def kind : AnyValue → ValueKind
  | null => .null
  | emptyList => .list
  | int _ => .int
  | float _ => .float
  | atom _ => .atom
  | heapRef kind _ => kind

/-- The address of a heap word; the empty list has the null address. -/
def addr : AnyValue → Addr
  | heapRef _ a => a
  | _ => 0

end AnyValue

/-! ## Schemas -/

/-- Which source type a struct object belongs to. -/
inductive SchemaIdentity where
  | tuple (arity : Nat)
  | named (name : ModuleName)
  | internal (name : String)
  deriving DecidableEq

def SchemaIdentity.semanticCmp : SchemaIdentity → SchemaIdentity → Except Panic Ordering
  | .tuple a, .tuple b => .ok (compare a b)
  | .named a, .named b => .ok (compare a b)
  | .tuple _, .named _ => .ok .lt
  | .named _, .tuple _ => .ok .gt
  | _, _ => .error .internalSchema

inductive FieldKind where
  | anyValue
  | rawF64
  | rawI64
  | rawBytes (n : Nat)
  deriving DecidableEq

structure Schema where
  identity : SchemaIdentity
  fields : List FieldKind
  deriving DecidableEq

/-- The registered schemas; an identity is registered once. -/
structure SchemaRegistry where
  schemas : List Schema
  nodup : (schemas.map Schema.identity).Nodup

namespace SchemaRegistry

def get? (r : SchemaRegistry) (id : Nat) : Option Schema := r.schemas[id]?

/-- Register a schema: an identity already present keeps its number, and must have the same
layout. -/
def register (r : SchemaRegistry) (s : Schema) : Option (SchemaRegistry × Nat) :=
  match h : r.schemas.findIdx? (fun t => t.identity = s.identity) with
  | some id => if r.schemas[id]? = some s then some (r, id) else none
  | none => some (⟨r.schemas ++ [s], by
      have hn := r.nodup
      rw [List.findIdx?_eq_none_iff] at h
      simp only [decide_eq_false_iff_not] at h
      rw [List.map_append, List.nodup_append]
      refine ⟨hn, by simp, ?_⟩
      rintro _ ha _ hb rfl
      rw [List.mem_map] at ha
      obtain ⟨t, ht, hid⟩ := ha
      obtain ⟨u, hu, hid'⟩ := List.mem_map.mp hb
      obtain rfl : u = s := by simpa using hu
      exact h t ht (hid.trans hid'.symm)⟩, r.schemas.length)

theorem eq_of_identity_eq (r : SchemaRegistry) {i j : Nat} {s t : Schema} (hs : r.get? i = some s)
    (ht : r.get? j = some t) (h : s.identity = t.identity) : s = t :=
  List.inj_on_of_nodup_map r.nodup (List.mem_of_getElem? hs) (List.mem_of_getElem? ht) h

end SchemaRegistry

/-! ## Objects -/

/-- One field of a struct object, as its schema says it is stored. -/
inductive FieldSlot where
  | value (v : AnyValue)
  | rawI64 (n : Int64)
  | rawF64 (x : F64)
  | rawBytes (bytes : List UInt8)
  deriving DecidableEq

inductive Object where
  | cons (head : AnyValue) (tail : Addr)
  | map (destination : Bool) (entries : List (AnyValue × AnyValue))
  | struct (schemaId : Nat) (slots : List FieldSlot)
  | closure (denotationId : Nat) (captures : List AnyValue)
  | bitstring (payload : BitPayload)
  | procbin (stub : ProcBin)
  | resource (id : Nat)
  deriving DecidableEq

/-- The tables of a node that terms are compared by: atom names by id, and closure denotations.
The id `2 ^ 32 - 1` stands for internal continuations and is never registered. -/
structure Node where
  atoms : List String
  closureDenotations : Nat → Option FunctionDenotation
  internal_none : closureDenotations (2 ^ 32 - 1) = none

/-- A comparator with the memory it reads. -/
structure TermComparator where
  node : Node
  schemas : SchemaRegistry
  memory : Addr → Option Object

/-! ## Terms -/

/-- What a term says at its own level. -/
inductive Label where
  | int (n : Int64)
  | float (x : F64)
  | atom (name : String)
  | resource (id : Nat)
  | closure (origin : FunctionDenotation) (captured : Nat)
  | struct (identity : SchemaIdentity)
  | map (count : Nat)
  | list
  | bits (bits : List Bool)
  deriving DecidableEq

/-- A term: a tree of labels.  The children of a map are its keys followed by its values. -/
abbrev Term := Rose Label

namespace TermComparator

variable (c : TermComparator)

/-- The cells of a list, followed for at most `n` steps. -/
def spine? : Nat → Addr → Option (List AnyValue)
  | 0, a => if a = 0 then some [] else none
  | n + 1, a =>
    if a = 0 then some []
    else match c.memory a with
      | some (.cons head tail) => (spine? n tail).map (head :: ·)
      | _ => none

/-- The bits a binary object holds. -/
def payload? (kind : ValueKind) (a : Addr) : Option BitPayload :=
  match kind, c.memory a with
  | .bitstring, some (.bitstring p) => some p
  | .procbin, some (.procbin stub) => some stub.view
  | _, _ => none

/-- The term in a struct slot; a raw field stands for the number or the bytes it stores. -/
def slotTerm? (read : AnyValue → Option Term) : FieldKind → FieldSlot → Option Term
  | .anyValue, .value v => read v
  | .rawI64, .rawI64 n => some (.node (.int n) [])
  | .rawF64, .rawF64 x => if x.isFinite then some (.node (.float x) []) else none
  | .rawBytes n, .rawBytes bytes =>
    if bytes.length = n then some (.node (.bits (bytes.flatMap byteBits)) []) else none
  | _, _ => none

def slotTerms? (read : AnyValue → Option Term) :
    List FieldKind → List FieldSlot → Option (List Term)
  | [], [] => some []
  | k :: ks, s :: ss => do
    let t ← slotTerm? read k s
    let ts ← slotTerms? read ks ss
    return t :: ts
  | _, _ => none

/-- The term a word denotes, read down to depth `n`. -/
def term? : Nat → AnyValue → Option Term
  | 0, _ => none
  | _ + 1, .null => none
  | _ + 1, .int n => some (.node (.int n) [])
  | _ + 1, .float x => if x.isFinite then some (.node (.float x) []) else none
  | _ + 1, .atom id => (c.node.atoms[id]?).map fun name => .node (.atom name) []
  | _ + 1, .emptyList => some (.node .list [])
  | n + 1, .heapRef kind a => match kind with
    | .list => do
      let heads ← c.spine? n a
      let ts ← heads.mapM (term? n)
      return .node .list ts
    | .map => match c.memory a with
      | some (.map false entries) => do
        let keys ← (entries.map Prod.fst).mapM (term? n)
        let values ← (entries.map Prod.snd).mapM (term? n)
        return .node (.map entries.length) (keys ++ values)
      | _ => none
    | .struct => match c.memory a with
      | some (.struct id slots) => do
        let schema ← c.schemas.get? id
        if let .internal _ := schema.identity then none
        else
          let ts ← slotTerms? (term? n) schema.fields slots
          return .node (.struct schema.identity) ts
      | _ => none
    | .closure => match c.memory a with
      | some (.closure id captures) => do
        let origin ← c.node.closureDenotations id
        let ts ← captures.mapM (term? n)
        return .node (.closure origin captures.length) ts
      | _ => none
    | .resource => match c.memory a with
      | some (.resource id) => some (.node (.resource id) [])
      | _ => none
    | .bitstring | .procbin => (c.payload? kind a).map fun p => .node (.bits p.bits) []
    | _ => none

/-- A word that stands for a finite term. -/
def Published (a : AnyValue) (t : Term) : Prop := ∃ n, c.term? n a = some t

end TermComparator

end Fz.Terms
