import Fz.Gc.Capacity

/-!
# Reading the forwarding mark

A mark is a bit pattern in the first words of an object.  The first word of a list cell may be
anything, but its second never carries the forwarding tag; off-heap owners are aligned, so the
first word of a stub never does; and no map begins with the tag bytes of a mark.  Structs, closures
and inline binaries have no such protection: `Object.LooksForwarded` are the ones whose own contents
spell a mark.

`During` are the states of a collection.  In all of them an object outside the fragments is as it
was or carries a mark (`During.cells`), so the test is exact as long as no live object looks
forwarded, and only then.
-/

namespace Fz.Gc

open Fz.Base
open Fz.Terms (ValueKind AnyValue)

/-! ## Objects that spell a mark -/

/-- Objects as they are stored: addresses in them are aligned. -/
def Object.Encoded : Object → Prop
  | cons _ tail _ => 16 ∣ tail
  | procbin shared _ _ => 16 ∣ shared
  | resource shared _ _ => 16 ∣ shared
  | _ => True

/-- The first word has the forwarding tag and an address, and the second is the bare tag. -/
def Object.LooksForwarded (o : Object) : Prop :=
  match o with
  | struct schemaId slots => schemaId % 16 = 8 ∧ 16 ≤ schemaId ∧ leWord (payloadBytes slots) = 8
  | closure denotationId _ _ code _ => denotationId % 16 = 8 ∧ 16 ≤ o.word0 ∧ code = 8
  | bitstring bitLen bytes => bitLen % 16 = 8 ∧ 16 ≤ bitLen ∧ leWord bytes = 8
  | _ => False

theorem leWord_cons (b : UInt8) (bytes : List UInt8) : leWord (b :: bytes) % 256 = b.toNat := by
  have hb : b.toNat < 256 := b.toNat_lt
  rw [leWord, List.take_succ_cons, List.foldr_cons]
  omega

theorem tag_ne_tagFwd (kind : ValueKind) : tag kind < 16 ∧ tag kind ≠ tagFwd := by
  cases kind <;> decide

theorem mapPackTag_ne (entry : AnyValue × AnyValue) : (mapPackTag entry).toNat ≠ tagFwd := by
  obtain ⟨h₁, -⟩ := tag_ne_tagFwd entry.1.kind
  obtain ⟨h₂, hne⟩ := tag_ne_tagFwd entry.2.kind
  rw [mapPackTag, UInt8.toNat_ofNat']
  unfold tagFwd at hne ⊢
  omega

theorem leWord_mapPackTag_ne (entries : List (AnyValue × AnyValue)) :
    leWord (entries.map mapPackTag) ≠ tagFwd := by
  cases entries with
  | nil => decide
  | cons entry entries =>
    intro h
    have hmod := leWord_cons (mapPackTag entry) (entries.map mapPackTag)
    rw [← List.map_cons, h] at hmod
    exact mapPackTag_ne entry hmod.symm

theorem isForwardedHeaderless_isSome (word0 word1 : Nat) :
    (isForwardedHeaderless word0 word1).isSome ↔ word0 % 16 = 8 ∧ 16 ≤ word0 ∧ word1 = 8 := by
  unfold isForwardedHeaderless tagFwd
  split
  · next h =>
    split
    · next h' => simp only [Option.isSome_some, true_iff]; omega
    · next h' => simp only [Option.isSome_none, Bool.false_eq_true, false_iff]; omega
  · next h => simp only [Option.isSome_none, Bool.false_eq_true, false_iff]; omega

theorem isForwardedProcbin_eq_none {word0 : Nat} (h : 16 ∣ word0) :
    isForwardedProcbin word0 = none := by
  unfold isForwardedProcbin tagFwd
  rw [if_neg (by omega)]

/-- The test says yes to an object that has not been copied exactly when it looks forwarded. -/
theorem forwardedAs_object {kind : ValueKind} {o : Object} (hk : o.hasKind kind) (ho : o.Encoded) :
    (forwardedAs kind (.object o)).isSome ↔ o.LooksForwarded := by
  cases o with
  | cons head tail aliased =>
    cases kind with
    | list =>
      have hlink : listLink head tail aliased % 16 = 0 := by
        have ht : 16 ∣ tail := ho
        unfold listLink
        omega
      show (isForwardedList (raw head) (listLink head tail aliased)).isSome ↔ False
      unfold isForwardedList tagFwd
      rw [hlink]
      split <;> simp
    | _ => exact absurd hk Bool.false_ne_true
  | map entries =>
    cases kind with
    | map =>
      show (isForwardedHeaderless _ _).isSome ↔ False
      rw [isForwardedHeaderless_isSome]
      exact ⟨fun h => leWord_mapPackTag_ne entries h.2.2, False.elim⟩
    | _ => exact absurd hk Bool.false_ne_true
  | struct schemaId slots =>
    cases kind with
    | struct => exact isForwardedHeaderless_isSome _ _
    | _ => exact absurd hk Bool.false_ne_true
  | closure denotationId arity haltKind code captures =>
    cases kind with
    | closure =>
      have hmod : (Object.closure denotationId arity haltKind code captures).word0 % 16 =
          denotationId % 16 := by
        show (denotationId + closureHeaderWord captures.length haltKind arity * 2 ^ 32) % 16 = _
        omega
      show (isForwardedHeaderless _ _).isSome ↔ _
      rw [isForwardedHeaderless_isSome, show (Cell.object _).word0 = Object.word0 _ from rfl, hmod]
      exact Iff.rfl
    | _ => exact absurd hk Bool.false_ne_true
  | bitstring bitLen bytes =>
    cases kind with
    | bitstring => exact isForwardedHeaderless_isSome _ _
    | _ => exact absurd hk Bool.false_ne_true
  | procbin shared msoNext byteOffset =>
    cases kind with
    | procbin =>
      show (isForwardedProcbin shared).isSome ↔ False
      rw [isForwardedProcbin_eq_none ho]
      simp
    | _ => exact absurd hk Bool.false_ne_true
  | resource shared dtor msoNext =>
    cases kind with
    | resource =>
      show (isForwardedProcbin shared).isSome ↔ False
      rw [isForwardedProcbin_eq_none ho]
      simp
    | _ => exact absurd hk Bool.false_ne_true
  | scalar => cases kind <;> exact absurd hk Bool.false_ne_true

theorem forwardedAs_forwarded {kind : ValueKind} {d : Nat} {o : Object} (hk : o.hasKind kind)
    (hd : d ≠ 0) (ha : 16 ∣ d) : forwardedAs kind (.forwarded d o) = some d := by
  have hdiv : d / 16 * 16 = d := Nat.div_mul_cancel ha
  have hword : (d / 16 * 16 + tagFwd) % 16 = tagFwd := by unfold tagFwd; omega
  have haddr : (d / 16 * 16 + tagFwd) / 16 * 16 = d := by unfold tagFwd; omega
  have hheaderless : isForwardedHeaderless (d / 16 * 16 + tagFwd) tagFwd = some d := by
    rw [isForwardedHeaderless, if_pos hword, if_pos ⟨rfl, by rw [haddr]; exact hd⟩, haddr]
  have hprocbin : isForwardedProcbin (d / 16 * 16 + tagFwd) = some d := by
    rw [isForwardedProcbin, if_pos ⟨hword, by rw [haddr]; exact hd⟩, haddr]
  have hlist : isForwardedList (d / 16 * 16 + tagFwd) tagFwd = some d := by
    rw [isForwardedList, if_pos hword, if_pos (by decide), haddr]
  cases o with
  | cons =>
    cases kind with
    | list => exact hlist
    | _ => exact absurd hk Bool.false_ne_true
  | map | struct | closure | bitstring =>
    cases kind <;> first | exact absurd hk Bool.false_ne_true | exact hheaderless
  | procbin | resource =>
    cases kind <;> first | exact absurd hk Bool.false_ne_true | exact hprocbin
  | scalar => cases kind <;> exact absurd hk Bool.false_ne_true

/-! ## The states of a collection -/

/-- The states a collection of `h` can be in: pointers into the heap have been forwarded, boxes of
roots copied, and objects already copied or in fragments rewritten. -/
inductive During (h : Heap) (toStart : Nat) : GcState → Prop where
  | start : During h toStart (h.startState toStart)
  | forward {s s' kind p d} : During h toStart s → h.isActive p →
      cheneyForwardObject (h.toEnv toStart) kind p s = .ok (d, s') → During h toStart s'
  | box {s s' p d} : During h toStart s → h.isActive p →
      copyScalarBoxToSpace (h.toEnv toStart) p s = .ok (d, s') → During h toStart s'
  | pop {s} : During h toStart s → During h toStart s.popFragment
  | put {s p o o'} : During h toStart s → s.memory p = some (.object o) →
      (toStart ≤ p ∧ p < s.free) ∨ h.inFragment p → During h toStart (s.put p o')

/-- What holds of the cells of the heap in every state of a collection. -/
structure Cells (h : Heap) (toStart : Nat) (s : GcState) : Prop where
  fragments : s.fragments.map Fragment.region = h.fragments.map Fragment.region
  start_le : toStart ≤ s.free
  aligned : 16 ∣ s.free
  free_le : s.free ≤ toStart + classSize h.toSpaceClass
  cells : ∀ p o, h.memory p = some o → h.inFragment p = false →
    s.memory p = some (.object o) ∨ ∃ d, s.memory p = some (.forwarded d o) ∧ d ≠ 0 ∧ 16 ∣ d

section During

variable {h : Heap} {toStart : Nat} {roots : Roots} {s : GcState}

theorem Cells.not_toSpace (hl : h.Layout) (hf : h.Fresh toStart (classSize h.toSpaceClass))
    {p : Nat} {o : Object} (hp : h.memory p = some o) :
    ¬ (toStart ≤ p ∧ p < toStart + classSize h.toSpaceClass) := hf.not_mem (hl.active p o hp)

theorem Cells.copy (hl : h.Layout) (hf : h.Fresh toStart (classSize h.toSpaceClass))
    (hs : Cells h toStart s) {p : Nat} {o : Object} {kind : ValueKind}
    (hp : s.memory p = some (.object o))
    (hfit : s.free + o.size ≤ toStart + classSize h.toSpaceClass) :
    Cells h toStart (s.copied p o kind) := by
  have hsize := o.size_pos
  have hstart := hs.start_le
  refine
    { fragments := hs.fragments
      start_le := Nat.le_add_right_of_le hstart
      aligned := Nat.dvd_add hs.aligned o.dvd_size
      free_le := hfit
      cells := fun q o' hq hfrag => ?_ }
  have hto := Cells.not_toSpace hl hf hq
  by_cases hqp : q = p
  · subst hqp
    rcases hs.cells q o' hq hfrag with hcell | ⟨d, hcell, -⟩
    · rw [hp] at hcell
      cases hcell
      have hpos := hf.pos
      exact .inr ⟨s.free, copied_memory_self, by omega, hs.aligned⟩
    · rw [hp] at hcell
      cases hcell
  · rw [copied_memory_ne hqp (by omega)]
    exact hs.cells q o' hq hfrag

theorem During.cells (hl : h.Layout) (hf : h.Fresh toStart (classSize h.toSpaceClass))
    (hd : During h toStart s) : Cells h toStart s := by
  induction hd with
  | start =>
    refine
      { fragments := ?_
        start_le := Nat.le_refl toStart
        aligned := hf.aligned
        free_le := Nat.le_add_right _ _
        cells := fun p o hp _ => .inl (by simp [Heap.startState, hp]) }
    show (h.fragments.map _).map _ = _
    rw [List.map_map]
    rfl
  | @forward s s' kind p d _ ha hrun ih =>
    have hout := forwardOutcome (h.toEnv toStart) kind p s
    rw [hrun] at hout
    cases hout with
    | known | seen => exact ih
    | mark hc hget hm =>
      exact ⟨(regions_marked hget).trans ih.fragments, ih.start_le, ih.aligned, ih.free_le,
        ih.cells⟩
    | copy hc hp hfwd hk hfit => exact ih.copy hl hf hp hfit
  | @box s s' p d _ ha hrun ih =>
    have hout := boxOutcome (h.toEnv toStart) p s
    rw [hrun] at hout
    cases hout with
    | copy hw hfit =>
      have hfit' : s.free + 16 ≤ toStart + classSize h.toSpaceClass := hfit
      have hstart := ih.start_le
      refine ⟨ih.fragments, Nat.le_add_right_of_le hstart,
        Nat.dvd_add ih.aligned (Nat.dvd_refl 16), hfit, fun q o hq hfrag => ?_⟩
      have hto := Cells.not_toSpace hl hf hq
      rw [boxed_memory_ne (by omega)]
      exact ih.cells q o hq hfrag
  | pop _ ih => exact ⟨ih.fragments, ih.start_le, ih.aligned, ih.free_le, ih.cells⟩
  | @put s p o o' _ hp hplace ih =>
    refine ⟨ih.fragments, ih.start_le, ih.aligned, ih.free_le, fun q o₁ hq hfrag => ?_⟩
    have hto := Cells.not_toSpace hl hf hq
    have hle := ih.free_le
    have hqp : q ≠ p := by
      rintro rfl
      rcases hplace with hin | hin
      · omega
      · rw [hfrag] at hin
        exact Bool.false_ne_true hin
    rw [put_memory_ne hqp]
    exact ih.cells q o₁ hq hfrag

end During

/-! ## The test is exact when no live object looks forwarded -/

/-- The objects that live pointers lead to, outside the fragments, are of the kind of the pointer
and stored as objects are. -/
def Heap.Typed (h : Heap) (roots : Roots) : Prop :=
  ∀ kind p, Live h roots kind p → ∃ o, h.memory p = some o ∧ o.hasKind kind ∧ o.Encoded

/-- For every live object that collection may copy, the test answers yes exactly when the object
has been copied. -/
def Recognised (h : Heap) (roots : Roots) (s : GcState) : Prop :=
  ∀ kind p, Live h roots kind p → h.inFragment p = false →
    ((∃ cell ∈ s.memory p, (forwardedAs kind cell).isSome) ↔ s.isForwarded p)

def Heap.NoneLooksForwarded (h : Heap) (roots : Roots) : Prop :=
  ∀ kind p o, Live h roots kind p → h.inFragment p = false → h.memory p = some o →
    ¬ o.LooksForwarded

theorem recognised_iff {h : Heap} {toStart : Nat} {roots : Roots} (hl : h.Layout)
    (hf : h.Fresh toStart (classSize h.toSpaceClass)) (ht : h.Typed roots) :
    (∀ s, During h toStart s → Recognised h roots s) ↔ h.NoneLooksForwarded roots := by
  constructor
  · intro hall kind p o hlive hfrag hp hlooks
    -- At the start nothing has been copied.
    obtain ⟨o', hp', hk, henc⟩ := ht kind p hlive
    rw [hp] at hp'
    cases hp'
    have hcell : (h.startState toStart).memory p = some (.object o) := by
      simp [Heap.startState, hp]
    have hyes := (hall _ .start kind p hlive hfrag).mp
      ⟨_, hcell, (forwardedAs_object hk henc).mpr hlooks⟩
    obtain ⟨d, o', hfwd⟩ := isForwarded_iff.mp hyes
    rw [hcell] at hfwd
    cases hfwd
  · intro hnone s hd kind p hlive hfrag
    obtain ⟨o, hp, hk, henc⟩ := ht kind p hlive
    rw [isForwarded_iff]
    rcases (hd.cells hl hf).cells p o hp hfrag with hcell | ⟨d, hcell, hd0, hda⟩
    · constructor
      · rintro ⟨cell, hc, hyes⟩
        rw [Option.mem_def, hcell] at hc
        cases hc
        exact absurd ((forwardedAs_object hk henc).mp hyes) (hnone kind p o hlive hfrag hp)
      · rintro ⟨d, o', hfwd⟩
        rw [hcell] at hfwd
        cases hfwd
    · refine ⟨fun _ => ⟨d, o, hcell⟩, fun _ => ⟨_, hcell, ?_⟩⟩
      rw [forwardedAs_forwarded hk hd0 hda]
      rfl

theorem live_leaf {h : Heap} {kind₀ kind : ValueKind} {p₀ p : Nat} {o : Object}
    (hp : h.memory p₀ = some o) (hleaf : ∀ k q, .heapRef k q ∈ o.values → h.isActive q = false)
    (hlive : Live h (valueRoots [.heapRef kind₀ p₀]) kind p) : kind = kind₀ ∧ p = p₀ := by
  induction hlive with
  | primary hr => cases hr
  | value hr => cases List.mem_singleton.mp hr; exact ⟨rfl, rfl⟩
  | ref hr => cases hr
  | step _ hmem hv ha ih =>
    obtain ⟨-, rfl⟩ := ih
    rw [hp] at hmem
    cases hmem
    rw [hleaf _ _ hv] at ha
    exact absurd ha Bool.false_ne_true

/-- A heap that holds one object, at its start. -/
def oneObject (o : Object) : Heap := ((Heap.new 1024 65536).alloc 0 o).2

theorem oneObject_layout {o : Object} (ho : o.size ≤ 1024) : (oneObject o).Layout := by
  refine alloc_layout (new_layout 1024 (by decide)) ⟨fun hbig => ?_, fun _ hfull => ?_⟩
  · have hlt : 1024 < fragmentThreshold := by decide
    omega
  · have hend : (Heap.new 1024 65536).blockEnd = 65536 + 1024 := by decide
    have htop : (Heap.new 1024 65536).bumpTop = 65536 := rfl
    omega

/-- A heap that holds one list cell. -/
def oneCell : Heap := oneObject (.cons (.int 1) 0 false)

theorem oneCell_memory : oneCell.memory 65536 = some (.cons (.int 1) 0 false) := by decide

theorem oneCell_live {kind : ValueKind} {p : Nat}
    (hl : Live oneCell (valueRoots [.heapRef .list 65536]) kind p) : kind = .list ∧ p = 65536 := by
  refine live_leaf oneCell_memory (fun k q hq => ?_) hl
  simp only [Object.values, List.mem_cons, reduceCtorEq, AnyValue.heapRef.injEq, false_or,
    List.not_mem_nil, or_false] at hq
  rw [hq.2]
  decide

theorem oneCell_typed : oneCell.Typed (valueRoots [.heapRef .list 65536]) := by
  intro kind p hl
  obtain ⟨rfl, rfl⟩ := oneCell_live hl
  exact ⟨_, oneCell_memory, rfl, ⟨0, rfl⟩⟩

theorem oneCell_noneLooksForwarded :
    oneCell.NoneLooksForwarded (valueRoots [.heapRef .list 65536]) := by
  intro kind p o hl _ ho
  obtain ⟨-, rfl⟩ := oneCell_live hl
  rw [oneCell_memory] at ho
  cases ho
  exact id

/-- A list cell is recognised throughout a collection. -/
theorem cell_recognised :
    (oneObject (.cons (.int 1) 0 false)).NoneLooksForwarded (valueRoots [.heapRef .list 65536]) ∧
      ∀ s, During (oneObject (.cons (.int 1) 0 false)) 131072 s →
        Recognised (oneObject (.cons (.int 1) 0 false)) (valueRoots [.heapRef .list 65536]) s :=
  ⟨oneCell_noneLooksForwarded,
    (recognised_iff (oneObject_layout (by decide)) (by decide) oneCell_typed).mpr
      oneCell_noneLooksForwarded⟩

/-- The binary of nine bytes `8, 0, 0, ...`. -/
def eightBinary : Object := .bitstring 72 [8, 0, 0, 0, 0, 0, 0, 0, 0]

/-- It reads as forwarded before anything has been copied. -/
theorem binary_taken_for_forwarded :
    ¬ ∀ h toStart roots, Heap.Layout h → h.Fresh toStart (classSize h.toSpaceClass) →
      h.Typed roots → ∀ s, During h toStart s → Recognised h roots s := by
  intro hall
  have hp : (oneObject eightBinary).memory 65536 = some eightBinary := by decide
  have hcell : ((oneObject eightBinary).startState 131072).memory 65536 =
      some (.object eightBinary) := by simp [Heap.startState, hp]
  have hlive : Live (oneObject eightBinary) (valueRoots [.heapRef .bitstring 65536])
      .bitstring 65536 := .value List.mem_cons_self (by decide)
  have htyped : (oneObject eightBinary).Typed (valueRoots [.heapRef .bitstring 65536]) := by
    intro kind p hl
    obtain ⟨rfl, rfl⟩ := live_leaf hp (by rintro _ _ ⟨⟩) hl
    exact ⟨_, hp, rfl, trivial⟩
  have hyes := (hall (oneObject eightBinary) 131072 (valueRoots [.heapRef .bitstring 65536])
    (oneObject_layout (by decide)) (by decide) htyped _ .start .bitstring 65536 hlive
    (by decide)).mp ⟨_, hcell, by decide⟩
  obtain ⟨d, o, hfwd⟩ := isForwarded_iff.mp hyes
  rw [hcell] at hfwd
  cases hfwd

end Fz.Gc
