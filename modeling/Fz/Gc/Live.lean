import Fz.Gc.Heap
import Mathlib.Algebra.BigOperators.Group.Finset.Basic
import Mathlib.Data.Finset.Image

/-!
# What is live, and what a collection has to keep

A collection follows the pointers that lead into the heap, that is into a block or a fragment;
others are off-heap singletons and stay as they are (`Heap.isActive`).  `Live` are the objects
these pointers reach from the roots.  `Heap.liveBytes` is what a collection copies for them: one
copy for each live object outside the fragments, and a box for each root that refers to a scalar.

`Object.Like` compares an object with its copy: the same object, with its values related by a
relation that is left open.  Links of the chain of stubs are no part of the comparison.
-/

namespace Fz.Gc

open Fz.Terms (ValueKind AnyValue FieldSlot)

/-! ## Pointers into the heap -/

/-- The part of a fragment that a collection does not change. -/
def Fragment.region (f : Fragment) : Nat × Nat := (f.ptr, f.size)

namespace Heap

def inFragment (h : Heap) (p : Nat) : Bool := h.fragments.any (·.contains p)

def isActive (h : Heap) (p : Nat) : Bool :=
  p ≠ 0 && (ptrInFromSpace p h.fromRanges || h.inFragment p)

/-- The size of the object at an address. -/
def sizeAt (h : Heap) (p : Nat) : Nat := (h.memory p).elim 0 Object.size

end Heap

theorem contains_congr {f g : Fragment} (h : f.region = g.region) (p : Nat) :
    f.contains p = g.contains p := by
  obtain ⟨hp, hs⟩ := Prod.mk.inj h
  rw [Fragment.contains, Fragment.contains, hp, hs]

theorem classifyFragment_congr {fs gs : List Fragment}
    (h : fs.map Fragment.region = gs.map Fragment.region) (p : Nat) :
    classifyFragment p fs = classifyFragment p gs := by
  have key (fs : List Fragment) : classifyFragment p fs =
      (fs.map Fragment.region).findIdx? fun r => r.1 ≤ p && p < r.1 + r.2 := by
    rw [List.findIdx?_map]
    rfl
  rw [key, key, h]

theorem classifyFragment_isSome (p : Nat) (fs : List Fragment) :
    (classifyFragment p fs).isSome = fs.any (·.contains p) := List.findIdx?_isSome

theorem any_contains_congr {fs gs : List Fragment}
    (h : fs.map Fragment.region = gs.map Fragment.region) (p : Nat) :
    fs.any (·.contains p) = gs.any (·.contains p) := by
  rw [← classifyFragment_isSome, ← classifyFragment_isSome, classifyFragment_congr h]

theorem isActive_eq {h : Heap} {env : GcEnv} {fs : List Fragment}
    (henv : env.fromRanges = h.fromRanges)
    (hfs : fs.map Fragment.region = h.fragments.map Fragment.region) (p : Nat) :
    isActiveFromSpaceObject env p fs = h.isActive p := by
  rw [isActiveFromSpaceObject, Heap.isActive, Heap.inFragment, henv, classifyFragment_isSome,
    any_contains_congr hfs]

/-! ## Reachability -/

/-- The pointers into the heap that the roots reach. -/
inductive Live (h : Heap) (roots : Roots) : ValueKind → Nat → Prop where
  | primary {kind p} : roots.primary = .heapRef kind p → h.isActive p → Live h roots kind p
  | value {kind p} : .heapRef kind p ∈ roots.values → h.isActive p → Live h roots kind p
  | ref {kind p} : .heap kind p ∈ roots.refs → h.isActive p → Live h roots kind p
  | step {kind p o kind' p'} :
      Live h roots kind p → h.memory p = some o → .heapRef kind' p' ∈ o.values → h.isActive p' →
        Live h roots kind' p'

theorem Live.active {h : Heap} {roots : Roots} {kind : ValueKind} {p : Nat}
    (hl : Live h roots kind p) : h.isActive p := by
  cases hl <;> assumption

/-- The box a root refers to. -/
def AnyValueRef.slot? : AnyValueRef → Option Nat
  | .scalar _ slot => some slot
  | _ => none

/-- A boxed scalar in the heap. -/
def Heap.isBox (h : Heap) (p : Nat) : Bool :=
  h.isActive p && (h.memory p matches some (.scalar _))

/-- The boxes of the heap that roots refer to, once for each root. -/
def Heap.boxRoots (h : Heap) (roots : Roots) : List Nat :=
  (roots.refs.filterMap AnyValueRef.slot?).filter h.isBox

/-- An object the roots reach, outside the fragments. -/
def Heap.Copied (h : Heap) (roots : Roots) (p : Nat) : Prop :=
  h.inFragment p = false ∧ ∃ kind o, Live h roots kind p ∧ h.memory p = some o ∧ o.hasKind kind

open Classical in
/-- The objects a collection copies. -/
noncomputable def Heap.liveSet (h : Heap) (roots : Roots) : Finset Nat :=
  h.objects.toFinset.filter (h.Copied roots)

/-- The bytes a collection copies. -/
noncomputable def Heap.liveBytes (h : Heap) (roots : Roots) : Nat :=
  ∑ p ∈ h.liveSet roots, h.sizeAt p + 16 * (h.boxRoots roots).length

/-! ## Comparing objects -/

/-- A value and what it becomes when addresses of the heap move along `move`. -/
def ValueAlong (h : Heap) (move : Nat → Nat → Prop) : AnyValue → AnyValue → Prop
  | .heapRef kind p, v =>
    if h.isActive p then ∃ d, move p d ∧ v = .heapRef kind d else v = .heapRef kind p
  | v, v' => v' = v

def SlotLike (V : AnyValue → AnyValue → Prop) : FieldSlot → FieldSlot → Prop
  | .value v, .value v' => V v v'
  | .value _, _ => False
  | slot, slot' => slot' = slot

/-- The same object, with its values related by `V`. -/
def Object.Like (V : AnyValue → AnyValue → Prop) : Object → Object → Prop
  | .cons head tail aliased, .cons head' tail' aliased' =>
    V head head' ∧ V (.heapRef .list tail) (.heapRef .list tail') ∧ aliased' = aliased
  | .map entries, .map entries' =>
    List.Forall₂ (fun e e' => V e.1 e'.1 ∧ V e.2 e'.2) entries entries'
  | .struct id slots, .struct id' slots' => id' = id ∧ List.Forall₂ (SlotLike V) slots slots'
  | .closure denotationId arity haltKind code captures,
    .closure denotationId' arity' haltKind' code' captures' =>
    (denotationId' = denotationId ∧ arity' = arity ∧ haltKind' = haltKind ∧ code' = code) ∧
      List.Forall₂ V captures captures'
  | .bitstring bitLen bytes, .bitstring bitLen' bytes' => bitLen' = bitLen ∧ bytes' = bytes
  | .procbin shared _ byteOffset, .procbin shared' _ byteOffset' =>
    shared' = shared ∧ byteOffset' = byteOffset
  | .resource shared dtor _, .resource shared' dtor' _ => shared' = shared ∧ V dtor dtor'
  | .scalar word, .scalar word' => word' = word
  | _, _ => False

theorem ValueAlong.mono {h : Heap} {move move' : Nat → Nat → Prop}
    (hm : ∀ p d, move p d → move' p d) {v v' : AnyValue} (hv : ValueAlong h move v v') :
    ValueAlong h move' v v' := by
  cases v with
  | heapRef kind p =>
    rw [ValueAlong] at hv ⊢
    split at hv
    · next ha =>
      obtain ⟨d, hd, rfl⟩ := hv
      rw [if_pos ha]
      exact ⟨d, hm p d hd, rfl⟩
    · next ha =>
      rw [if_neg ha]
      exact hv
  | null | emptyList | int | float | atom => exact hv

theorem ValueAlong.of_active {h : Heap} {move : Nat → Nat → Prop} {kind : ValueKind}
    {p d : Nat} (ha : h.isActive p) (hd : move p d) :
    ValueAlong h move (.heapRef kind p) (.heapRef kind d) := by
  rw [ValueAlong, if_pos ha]
  exact ⟨d, hd, rfl⟩

theorem ValueAlong.of_not_active {h : Heap} {move : Nat → Nat → Prop} {kind : ValueKind}
    {p : Nat} (ha : h.isActive p = false) :
    ValueAlong h move (.heapRef kind p) (.heapRef kind p) := by
  rw [ValueAlong, if_neg (by simp [ha])]

theorem SlotLike.mono {V V' : AnyValue → AnyValue → Prop} (hV : ∀ v v', V v v' → V' v v')
    {slot slot' : FieldSlot} (hs : SlotLike V slot slot') : SlotLike V' slot slot' := by
  cases slot with
  | value v =>
    cases slot' with
    | value v' => exact hV v v' hs
    | rawI64 | rawF64 | rawBytes => exact hs
  | rawI64 | rawF64 | rawBytes => exact hs

theorem Object.Like.mono {V V' : AnyValue → AnyValue → Prop} (hV : ∀ v v', V v v' → V' v v')
    {o o' : Object} (ho : o.Like V o') : o.Like V' o' := by
  cases o with
  | cons head tail aliased =>
    cases o' with
    | cons => exact ⟨hV _ _ ho.1, hV _ _ ho.2.1, ho.2.2⟩
    | _ => exact ho
  | map entries =>
    cases o' with
    | map =>
      refine List.Forall₂.imp (fun e e' he => ?_) ho
      exact ⟨hV _ _ he.1, hV _ _ he.2⟩
    | _ => exact ho
  | struct id slots =>
    cases o' with
    | struct => exact ⟨ho.1, List.Forall₂.imp (fun _ _ => SlotLike.mono hV) ho.2⟩
    | _ => exact ho
  | closure =>
    cases o' with
    | closure => exact ⟨ho.1, List.Forall₂.imp hV ho.2⟩
    | _ => exact ho
  | resource =>
    cases o' with
    | resource => exact ⟨ho.1, hV _ _ ho.2⟩
    | _ => exact ho
  | bitstring | procbin | scalar => cases o' <;> exact ho

theorem Object.Like.of_scalar {V : AnyValue → AnyValue → Prop} {o : Object} {word : Nat}
    (ho : o.Like V (.scalar word)) : o = .scalar word := by
  cases o with
  | scalar word' => rw [show word = word' from ho]
  | _ => exact absurd ho id

end Fz.Gc
