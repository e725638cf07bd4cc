import Fz.Gc.Rules
import Mathlib.Algebra.Order.BigOperators.Group.Finset

/-!
# The invariant of a collection

`Heap.Layout` says how the objects of a heap stand in its blocks and fragments.  `Inv` is what
holds between any two steps of a collection, whatever the objects hold: which cells have been
overwritten by a mark, where the queued copies are, and that to-space holds exactly one copy of each
object marked so far.  From it follows that a collection that runs out of space had more live bytes
than to-space has (`Inv.full`, `Inv.box_full`).
-/

namespace Fz.Gc

open Fz.Base
open Fz.Terms (ValueKind AnyValue FieldSlot)

/-! ## Layout -/

/-- Two ranges of addresses that share none. -/
def Apart (r q : Nat × Nat) : Prop := r.2 ≤ q.1 ∨ q.2 ≤ r.1

namespace Heap

/-- The blocks and fragments of a heap. -/
def ranges (h : Heap) : List (Nat × Nat) :=
  h.fromRanges ++ h.fragments.map fun f => (f.ptr, f.ptr + f.size)

/-- The objects in blocks. -/
def blockObjects (h : Heap) : Finset Nat := h.objects.toFinset.filter fun p => !h.inFragment p

structure Layout (h : Heap) : Prop where
  start_pos : 0 < h.blockStart
  start_le : h.blockStart ≤ h.bumpTop
  bump_le : h.bumpTop ≤ h.blockEnd
  sizeClass_le : h.sizeClass ≤ lastClass
  apart : h.ranges.Pairwise Apart
  mem_objects : ∀ p o, h.memory p = some o → p ∈ h.objects
  active : ∀ p o, h.memory p = some o → h.isActive p
  unused : ∀ p o, h.memory p = some o → p < h.bumpTop ∨ h.blockEnd ≤ p
  fragment_start : ∀ f ∈ h.fragments, ∀ p o, h.memory p = some o → f.contains p → p = f.ptr
  box_block : ∀ p word, h.memory p = some (.scalar word) → h.inFragment p = false
  /-- The objects in blocks fit what the blocks have handed out. -/
  bytes : ∑ p ∈ h.blockObjects, h.sizeAt p ≤ h.occupiedBytes

/-- Memory the allocator hands out: it is aligned and overlaps nothing of the heap. -/
structure Fresh (h : Heap) (start size : Nat) : Prop where
  pos : 0 < start
  aligned : 16 ∣ start
  apart : ∀ r ∈ h.ranges, Apart r (start, start + size)

end Heap

section Layout

variable {h : Heap}

theorem mem_ranges_of_active {p : Nat} (ha : h.isActive p) :
    p ≠ 0 ∧ ∃ r ∈ h.ranges, r.1 ≤ p ∧ p < r.2 := by
  simp only [Heap.isActive, Bool.and_eq_true, decide_eq_true_eq, Bool.or_eq_true] at ha
  refine ⟨ha.1, ?_⟩
  rcases ha.2 with hb | hf
  · obtain ⟨r, hr, hin⟩ := List.any_eq_true.mp hb
    simp only [Bool.and_eq_true, decide_eq_true_eq] at hin
    exact ⟨r, List.mem_append_left _ hr, hin⟩
  · obtain ⟨f, hfm, hin⟩ := List.any_eq_true.mp hf
    simp only [Fragment.contains, Bool.and_eq_true, decide_eq_true_eq] at hin
    exact ⟨_, List.mem_append_right _ (List.mem_map_of_mem hfm), hin⟩

theorem Heap.Fresh.not_mem {start size : Nat} (hf : h.Fresh start size) {p : Nat}
    (ha : h.isActive p) : ¬ (start ≤ p ∧ p < start + size) := by
  obtain ⟨-, r, hr, hin⟩ := mem_ranges_of_active ha
  rcases hf.apart r hr with h₁ | h₁ <;> simp only at h₁ <;> omega

end Layout

/-! ## The state of a collection -/

namespace GcState

/-- The fragment at an address has been marked. -/
def isMarked (s : GcState) (p : Nat) : Bool :=
  match classifyFragment p s.fragments with
  | some index => s.fragments[index]?.any Fragment.mark
  | none => false

def isForwarded (s : GcState) (p : Nat) : Bool := s.memory p matches some (.forwarded _ _)

/-- What has been copied or marked and not yet traced, with the object in hand. -/
def queue (scanIdx : Nat) (hand : Option (CopiedObject × Object)) (s : GcState) :
    List CopiedObject :=
  s.copiedObjects.drop scanIdx ++ s.fragQueue ++ (hand.map Prod.fst).toList

end GcState

/-- The objects copied so far. -/
def copiedSet (h : Heap) (s : GcState) : Finset Nat := h.objects.toFinset.filter (s.isForwarded ·)

/-- What holds between two steps of a collection: `boxes` boxes are still to be copied for roots,
`scanIdx` copies have been taken for tracing, and `hand` is being traced. -/
structure Inv (h : Heap) (toStart : Nat) (roots : Roots) (boxes scanIdx : Nat)
    (hand : Option (CopiedObject × Object)) (s : GcState) : Prop where
  fragments : s.fragments.map Fragment.region = h.fragments.map Fragment.region
  aligned : 16 ∣ s.free
  free_eq : s.free = toStart + ∑ p ∈ copiedSet h s, h.sizeAt p + 16 * s.copiedBoxes.length
  free_le : s.free ≤ toStart + classSize h.toSpaceClass
  boxes_le : s.copiedBoxes.length + boxes ≤ (h.boxRoots roots).length
  scan_le : scanIdx ≤ s.copiedObjects.length
  forwarded : ∀ p d o, s.memory p = some (.forwarded d o) →
    h.Copied roots p ∧ h.memory p = some o ∧ toStart ≤ d ∧ d < s.free ∧ 16 ∣ d
  old : ∀ p o, s.memory p = some (.object o) → ¬ (toStart ≤ p ∧ p < s.free) →
    s.isMarked p = false → h.memory p = some o
  domain : ∀ p, s.memory p ≠ none → ¬ (toStart ≤ p ∧ p < s.free) → h.memory p ≠ none
  scalars : ∀ p word, s.memory p = some (.object (.scalar word)) →
    ¬ (toStart ≤ p ∧ p < s.free) → h.memory p = some (.scalar word)
  queued : ∀ c ∈ s.queue scanIdx hand, (toStart ≤ c.ptr ∧ c.ptr < s.free) ∨ s.isMarked c.ptr
  nodup : ((s.queue scanIdx hand).map CopiedObject.ptr).Nodup
  live : ∀ c ∈ s.queue scanIdx hand, ∀ o, s.memory c.ptr = some (.object o) →
    PointersIn h (Live h roots) o.values
  hand_eq : ∀ c o, hand = some (c, o) → s.memory c.ptr = some (.object o)

section Marks

variable {s : GcState} {p : Nat} {index : Nat} {f : Fragment} {c : CopiedObject}

theorem isMarked_of_classify (hc : classifyFragment p s.fragments = some index)
    (hf : s.fragments[index]? = some f) : s.isMarked p = f.mark := by
  rw [GcState.isMarked, hc]
  simp [hf]

theorem isMarked_of_none (hc : classifyFragment p s.fragments = none) : s.isMarked p = false := by
  rw [GcState.isMarked, hc]

theorem regions_marked (hf : s.fragments[index]? = some f) :
    (s.marked index f c).fragments.map Fragment.region = s.fragments.map Fragment.region := by
  show (s.fragments.set index { f with mark := true }).map Fragment.region = _
  rw [List.map_set]
  refine List.ext_getElem? fun i => ?_
  by_cases hi : index = i
  · subst hi
    obtain ⟨hlt, hget⟩ := List.getElem?_eq_some_iff.mp hf
    rw [List.getElem?_set_self (by simpa using hlt), List.getElem?_map, hf]
    rfl
  · rw [List.getElem?_set_ne hi]

theorem isMarked_marked (hf : s.fragments[index]? = some f) (q : Nat) :
    (s.marked index f c).isMarked q =
      (s.isMarked q || classifyFragment q s.fragments == some index) := by
  have hclass : classifyFragment q (s.marked index f c).fragments =
      classifyFragment q s.fragments := classifyFragment_congr (regions_marked hf) q
  unfold GcState.isMarked
  rw [hclass]
  cases hq : classifyFragment q s.fragments with
  | none => rfl
  | some i =>
    show (s.fragments.set index { f with mark := true })[i]?.any Fragment.mark = _
    by_cases hi : index = i
    · subst hi
      obtain ⟨hlt, -⟩ := List.getElem?_eq_some_iff.mp hf
      rw [List.getElem?_set_self hlt]
      simp
    · rw [List.getElem?_set_ne hi]
      have : (some i == some index) = false := by simpa using fun h => hi h.symm
      rw [this, Bool.or_false]

end Marks

/-! ## Queues -/

section Queues

variable {s : GcState} {i : Nat} {hand : Option (CopiedObject × Object)}

theorem queue_marked (s : GcState) (i : Nat) (hand : Option (CopiedObject × Object)) (index : Nat)
    (f : Fragment) (c : CopiedObject) :
    ((s.marked index f c).queue i hand).Perm (c :: s.queue i hand) := by
  show (s.copiedObjects.drop i ++ (s.fragQueue ++ [c]) ++ (hand.map Prod.fst).toList).Perm _
  rw [← List.append_assoc, List.append_assoc _ [c]]
  exact List.perm_middle

theorem queue_copied (hand : Option (CopiedObject × Object)) (p : Nat) (o : Object)
    (kind : ValueKind) (hi : i ≤ s.copiedObjects.length) :
    ((s.copied p o kind).queue i hand).Perm (⟨s.free, kind⟩ :: s.queue i hand) := by
  show ((s.copiedObjects ++ [(⟨s.free, kind⟩ : CopiedObject)]).drop i ++ s.fragQueue ++
    (hand.map Prod.fst).toList).Perm _
  rw [List.drop_append_of_le_length hi, List.append_assoc, List.append_assoc]
  refine List.perm_middle.trans ?_
  rw [GcState.queue, List.append_assoc]
  exact List.Perm.refl _

theorem queue_scan {c : CopiedObject} (o : Object) (hc : s.copiedObjects[i]? = some c) :
    (s.queue (i + 1) (some (c, o))).Perm (s.queue i none) := by
  obtain ⟨hlt, hget⟩ := List.getElem?_eq_some_iff.mp hc
  have hdrop : s.copiedObjects.drop i = c :: s.copiedObjects.drop (i + 1) := by
    rw [List.drop_eq_getElem_cons hlt, hget]
  rw [GcState.queue, GcState.queue, hdrop]
  simp only [Option.map_some, Option.map_none, Option.toList_some, Option.toList_none,
    List.append_nil, List.cons_append]
  exact List.perm_append_singleton _ _

theorem queue_pop {c : CopiedObject} (o : Object) (hc : s.fragQueue.getLast? = some c) :
    s.popFragment.queue i (some (c, o)) = s.queue i none := by
  show s.copiedObjects.drop i ++ s.fragQueue.dropLast ++ [c] =
    s.copiedObjects.drop i ++ s.fragQueue ++ []
  rw [List.append_nil, List.append_assoc, List.dropLast_append_getLast? c hc]

end Queues

/-! ## One step -/

section Steps

variable {h : Heap} {toStart : Nat} {roots : Roots} {boxes i : Nat}
  {hand : Option (CopiedObject × Object)} {s : GcState}

variable {p : Nat}

theorem isForwarded_iff : s.isForwarded p = true ↔ ∃ d o, s.memory p = some (.forwarded d o) := by
  unfold GcState.isForwarded
  cases s.memory p with
  | none => simp
  | some cell => cases cell <;> simp

theorem mem_copiedSet :
    p ∈ copiedSet h s ↔ p ∈ h.objects ∧ ∃ d o, s.memory p = some (.forwarded d o) := by
  rw [copiedSet, Finset.mem_filter, List.mem_toFinset, isForwarded_iff]

theorem Inv.copiedSet_subset (hi : Inv h toStart roots boxes i hand s) :
    copiedSet h s ⊆ h.liveSet roots := by
  intro p hp
  obtain ⟨hmem, d, o, hcell⟩ := mem_copiedSet.mp hp
  classical
  exact Finset.mem_filter.mpr ⟨List.mem_toFinset.mpr hmem, (hi.forwarded p d o hcell).1⟩

variable {o : Object}

theorem Inv.old_of_active (hf : h.Fresh toStart (classSize h.toSpaceClass))
    (hi : Inv h toStart roots boxes i hand s) (ha : h.isActive p)
    (hc : classifyFragment p s.fragments = none) (hp : s.memory p = some (.object o)) :
    h.memory p = some o := by
  refine hi.old p o hp (fun hin => ?_) (isMarked_of_none hc)
  have := hi.free_le
  exact hf.not_mem ha (by omega)

theorem Inv.inFragment_of_none (hi : Inv h toStart roots boxes i hand s)
    (hc : classifyFragment p s.fragments = none) : h.inFragment p = false := by
  rw [Heap.inFragment, ← any_contains_congr hi.fragments, ← classifyFragment_isSome, hc]
  rfl

theorem Inv.mark (hf : h.Fresh toStart (classSize h.toSpaceClass))
    (hi : Inv h toStart roots boxes i hand s) {kind : ValueKind} {p index : Nat} {f : Fragment}
    (hlive : Live h roots kind p) (hc : classifyFragment p s.fragments = some index)
    (hget : s.fragments[index]? = some f) (hm : f.mark = false) :
    Inv h toStart roots boxes i hand (s.marked index f ⟨p, kind⟩) := by
  have hunmarked : s.isMarked p = false := by rw [isMarked_of_classify hc hget, hm]
  have hnot : ¬ (toStart ≤ p ∧ p < s.free) := fun hin => by
    have := hi.free_le
    exact hf.not_mem hlive.active (by omega)
  have hmono (q : Nat) (hq : s.isMarked q = true) :
      (s.marked index f ⟨p, kind⟩).isMarked q = true := by
    rw [isMarked_marked hget, hq, Bool.true_or]
  have hnew : (s.marked index f ⟨p, kind⟩).isMarked p = true := by
    rw [isMarked_marked hget, hc]
    simp
  have hperm := queue_marked s i hand index f ⟨p, kind⟩
  refine
    { fragments := (regions_marked hget).trans hi.fragments
      aligned := hi.aligned
      free_eq := hi.free_eq
      free_le := hi.free_le
      boxes_le := hi.boxes_le
      scan_le := hi.scan_le
      forwarded := hi.forwarded
      old := fun q o hq hto hmq => ?_
      domain := hi.domain
      scalars := hi.scalars
      queued := fun c hc => ?_
      nodup := ?_
      live := fun c hcq o ho => ?_
      hand_eq := hi.hand_eq }
  · refine hi.old q o hq hto ?_
    rw [isMarked_marked hget] at hmq
    exact (Bool.or_eq_false_iff.mp hmq).1
  · rcases List.mem_cons.mp (hperm.mem_iff.mp hc) with rfl | hc
    · exact .inr hnew
    · exact (hi.queued c hc).imp_right (hmono c.ptr)
  · refine ((hperm.map CopiedObject.ptr).nodup_iff).mpr (List.nodup_cons.mpr ⟨?_, hi.nodup⟩)
    intro hmem
    obtain ⟨c, hcq, hptr⟩ := List.mem_map.mp hmem
    rcases hi.queued c hcq with hin | hin
    · rw [hptr] at hin
      exact hnot hin
    · rw [hptr, hunmarked] at hin
      exact Bool.false_ne_true hin
  · rcases List.mem_cons.mp (hperm.mem_iff.mp hcq) with rfl | hcq
    · have hmem : h.memory p = some o := hi.old p o ho hnot hunmarked
      exact fun k q hq ha => hlive.step hmem hq ha
    · exact hi.live c hcq o ho

theorem copiedSet_copied (kind : ValueKind) (hp : p ∈ h.objects)
    (hfree : ∀ d o, s.memory s.free ≠ some (.forwarded d o)) (hne : s.free ≠ p) :
    copiedSet h (s.copied p o kind) = insert p (copiedSet h s) := by
  ext q
  rw [Finset.mem_insert, mem_copiedSet, mem_copiedSet]
  by_cases hq : q = p
  · subst hq
    simp [hp, GcState.copied]
  · by_cases hqf : q = s.free
    · subst hqf
      simp [GcState.copied, hfree, hne]
    · simp [GcState.copied, Function.update_of_ne hqf, hq]

theorem sizeAt_of_memory (hp : h.memory p = some o) :
    h.sizeAt p = o.size := by rw [Heap.sizeAt, hp, Option.elim_some]

variable {c : CopiedObject}

theorem mem_hand (hh : hand = some (c, o)) : c ∈ s.queue i hand := by
  subst hh
  exact List.mem_append_right _ List.mem_cons_self

theorem Inv.queued_ne (hi : Inv h toStart roots boxes i hand s)
    (hc : c ∈ s.queue i hand) {q : Nat} (hto : ¬ (toStart ≤ q ∧ q < s.free))
    (hm : s.isMarked q = false) : c.ptr ≠ q := by
  rintro rfl
  rcases hi.queued c hc with hin | hin
  · exact hto hin
  · rw [hm] at hin
    exact Bool.false_ne_true hin

theorem Inv.start_le_free (hi : Inv h toStart roots boxes i hand s) : toStart ≤ s.free := by
  have := hi.free_eq
  omega

theorem inFragment_of_isMarked (hfr : s.fragments.map Fragment.region =
    h.fragments.map Fragment.region) {q : Nat} (hm : s.isMarked q = true) :
    h.inFragment q = true := by
  rw [Heap.inFragment, ← any_contains_congr hfr, ← classifyFragment_isSome]
  unfold GcState.isMarked at hm
  split at hm
  · next hc => rw [hc, Option.isSome_some]
  · exact absurd hm Bool.false_ne_true

theorem Inv.free_fresh (hf : h.Fresh toStart (classSize h.toSpaceClass))
    (hi : Inv h toStart roots boxes i hand s) {size : Nat} (hsize : 0 < size)
    (hfit : s.free + size ≤ toStart + classSize h.toSpaceClass) : h.isActive s.free = false := by
  have hstart := hi.start_le_free
  exact Bool.eq_false_iff.mpr fun ha => hf.not_mem ha (by omega)

theorem Inv.free_not_forwarded (hl : h.Layout)
    (hf : h.Fresh toStart (classSize h.toSpaceClass)) (hi : Inv h toStart roots boxes i hand s)
    {size : Nat} (hsize : 0 < size) (hfit : s.free + size ≤ toStart + classSize h.toSpaceClass)
    (d : Nat) (o : Object) : s.memory s.free ≠ some (.forwarded d o) := by
  intro hcell
  have hmem := (hi.forwarded s.free d o hcell).2.1
  exact Bool.false_ne_true ((hi.free_fresh hf hsize hfit).symm.trans (hl.active _ _ hmem))

theorem Inv.free_unmarked (hf : h.Fresh toStart (classSize h.toSpaceClass))
    (hi : Inv h toStart roots boxes i hand s) {size : Nat} (hsize : 0 < size)
    (hfit : s.free + size ≤ toStart + classSize h.toSpaceClass) : s.isMarked s.free = false := by
  have ha := hi.free_fresh hf hsize hfit
  have hpos := hf.pos
  have hstart := hi.start_le_free
  refine Bool.eq_false_iff.mpr fun hm => ?_
  have hfrag := inFragment_of_isMarked hi.fragments hm
  have hne : s.free ≠ 0 := by omega
  rw [Heap.isActive, hfrag, Bool.or_true, Bool.and_true] at ha
  exact absurd hne (by simpa using ha)

section Copied

variable {p : Nat} {o : Object} {kind : ValueKind}

theorem copied_memory_self : (s.copied p o kind).memory p = some (.forwarded s.free o) :=
  Function.update_self p _ _

theorem copied_memory_free (hp : s.free ≠ p) :
    (s.copied p o kind).memory s.free = some (.object o) := by
  show Function.update _ p _ s.free = _
  rw [Function.update_of_ne hp, Function.update_self]

theorem copied_memory_ne {q : Nat} (hp : q ≠ p) (hfree : q ≠ s.free) :
    (s.copied p o kind).memory q = s.memory q := by
  show Function.update _ p _ q = _
  rw [Function.update_of_ne hp, Function.update_of_ne hfree]

end Copied

theorem Inv.copy (hl : h.Layout) (hf : h.Fresh toStart (classSize h.toSpaceClass))
    (hi : Inv h toStart roots boxes i hand s) {kind : ValueKind}
    (hlive : Live h roots kind p) (hc : classifyFragment p s.fragments = none)
    (hp : s.memory p = some (.object o)) (hk : o.hasKind kind)
    (hfit : s.free + o.size ≤ toStart + classSize h.toSpaceClass) :
    Inv h toStart roots boxes i hand (s.copied p o kind) := by
  have hsize := o.size_pos
  have hstart := hi.start_le_free
  have hmem : h.memory p = some o := hi.old_of_active hf hlive.active hc hp
  have hpto : ¬ (toStart ≤ p ∧ p < s.free) := fun hin => hf.not_mem hlive.active (by omega)
  have hinactive := hi.free_fresh hf hsize hfit
  have hne : s.free ≠ p := fun hin =>
    Bool.false_ne_true (hinactive.symm.trans (hin ▸ hlive.active))
  have hperm := queue_copied hand p o kind hi.scan_le
  have hold {c : CopiedObject} (hcq : c ∈ s.queue i hand) :
      (s.copied p o kind).memory c.ptr = s.memory c.ptr :=
    copied_memory_ne (hi.queued_ne hcq hpto (isMarked_of_none hc))
      (hi.queued_ne hcq (by omega) (hi.free_unmarked hf hsize hfit))
  have hset := copiedSet_copied (s := s) (o := o) kind (hl.mem_objects p o hmem)
    (hi.free_not_forwarded hl hf hsize hfit) hne
  have hnew : p ∉ copiedSet h s := fun hin => by
    obtain ⟨-, d, o', hcell⟩ := mem_copiedSet.mp hin
    rw [hp] at hcell
    cases hcell
  refine
    { fragments := hi.fragments
      aligned := Nat.dvd_add hi.aligned o.dvd_size
      free_eq := ?_
      free_le := hfit
      boxes_le := hi.boxes_le
      scan_le := ?_
      forwarded := fun q d o' hq => ?_
      old := fun q o' hq hto hm => ?_
      domain := fun q hq hto => ?_
      scalars := fun q word hq hto => ?_
      queued := fun c hcq => ?_
      nodup := ?_
      live := fun c hcq o' ho' => ?_
      hand_eq := fun c o' hh => ?_ }
  · rw [hset, Finset.sum_insert hnew, sizeAt_of_memory hmem]
    show s.free + o.size = _ + 16 * s.copiedBoxes.length
    have := hi.free_eq
    omega
  · show i ≤ (s.copiedObjects ++ [_]).length
    rw [List.length_append]
    exact Nat.le_add_right_of_le hi.scan_le
  · show _ ∧ _ ∧ _ ∧ d < s.free + o.size ∧ _
    by_cases hqp : q = p
    · subst hqp
      rw [copied_memory_self] at hq
      cases hq
      exact ⟨⟨hi.inFragment_of_none hc, kind, o, hlive, hmem, hk⟩, hmem, hstart,
        Nat.lt_add_of_pos_right hsize, hi.aligned⟩
    · by_cases hqf : q = s.free
      · subst hqf
        rw [copied_memory_free hne] at hq
        cases hq
      · rw [copied_memory_ne hqp hqf] at hq
        obtain ⟨h₁, h₂, h₃, h₄, h₅⟩ := hi.forwarded q d o' hq
        exact ⟨h₁, h₂, h₃, Nat.lt_add_right _ h₄, h₅⟩
  · have hto' : ¬ (toStart ≤ q ∧ q < s.free + o.size) := hto
    have hqf : q ≠ s.free := by omega
    by_cases hqp : q = p
    · subst hqp
      rw [copied_memory_self] at hq
      cases hq
    · rw [copied_memory_ne hqp hqf] at hq
      exact hi.old q o' hq (by omega) hm
  · have hto' : ¬ (toStart ≤ q ∧ q < s.free + o.size) := hto
    by_cases hqp : q = p
    · rw [hqp, hmem]
      exact nofun
    · rw [copied_memory_ne hqp (by omega)] at hq
      exact hi.domain q hq (by omega)
  · have hto' : ¬ (toStart ≤ q ∧ q < s.free + o.size) := hto
    by_cases hqp : q = p
    · rw [hqp, copied_memory_self] at hq
      cases hq
    · rw [copied_memory_ne hqp (by omega)] at hq
      exact hi.scalars q word hq (by omega)
  · rcases List.mem_cons.mp (hperm.mem_iff.mp hcq) with rfl | hcq
    · exact .inl ⟨hstart, Nat.lt_add_of_pos_right hsize⟩
    · exact (hi.queued c hcq).imp_left fun hin => ⟨hin.1, Nat.lt_add_right _ hin.2⟩
  · refine ((hperm.map CopiedObject.ptr).nodup_iff).mpr (List.nodup_cons.mpr ⟨?_, hi.nodup⟩)
    intro hin
    obtain ⟨c, hcq, hptr⟩ := List.mem_map.mp hin
    exact hi.queued_ne hcq (by omega) (hi.free_unmarked hf hsize hfit) hptr
  · rcases List.mem_cons.mp (hperm.mem_iff.mp hcq) with rfl | hcq
    · rw [copied_memory_free hne] at ho'
      cases ho'
      exact fun k q hq ha => hlive.step hmem hq ha
    · rw [hold hcq] at ho'
      exact hi.live c hcq o' ho'
  · rw [hold (mem_hand hh)]
    exact hi.hand_eq c o' hh

theorem Inv.full (hl : h.Layout) (hf : h.Fresh toStart (classSize h.toSpaceClass))
    (hi : Inv h toStart roots boxes i hand s) {kind : ValueKind}
    (hlive : Live h roots kind p) (hc : classifyFragment p s.fragments = none)
    (hp : s.memory p = some (.object o)) (hk : o.hasKind kind)
    (hfull : toStart + classSize h.toSpaceClass < s.free + o.size) :
    classSize h.toSpaceClass < h.liveBytes roots := by
  have hmem : h.memory p = some o := hi.old_of_active hf hlive.active hc hp
  have hnew : p ∉ copiedSet h s := fun hin => by
    obtain ⟨-, d, o', hcell⟩ := mem_copiedSet.mp hin
    rw [hp] at hcell
    cases hcell
  classical
  have hsub : insert p (copiedSet h s) ⊆ h.liveSet roots := by
    refine Finset.insert_subset (Finset.mem_filter.mpr ⟨?_, ?_⟩) hi.copiedSet_subset
    · exact List.mem_toFinset.mpr (hl.mem_objects p o hmem)
    · exact ⟨hi.inFragment_of_none hc, kind, o, hlive, hmem, hk⟩
  have hsum := Finset.sum_le_sum_of_subset (f := h.sizeAt) hsub
  rw [Finset.sum_insert hnew, sizeAt_of_memory hmem] at hsum
  have hfree := hi.free_eq
  have hboxes := hi.boxes_le
  unfold Heap.liveBytes
  omega

/-! ## Boxes -/

/-- The state after a box is copied. -/
def GcState.boxed (s : GcState) (word : Nat) : GcState :=
  { s with
    free := s.free + 16
    memory := Function.update s.memory s.free (some (.object (.scalar word)))
    copiedBoxes := s.copiedBoxes ++ [s.free] }

inductive BoxOutcome (env : GcEnv) (p : Nat) (s : GcState) :
    Except GcStop (Nat × GcState) → Prop where
  | copy {word} : s.memory p = some (.object (.scalar word)) → s.free + 16 ≤ env.toEnd →
      BoxOutcome env p s (.ok (s.free, s.boxed word))
  | full {word} : s.memory p = some (.object (.scalar word)) → env.toEnd < s.free + 16 →
      BoxOutcome env p s (.error .toSpaceExhausted)
  | missing : (∀ word, s.memory p ≠ some (.object (.scalar word))) →
      BoxOutcome env p s (.error .broken)

theorem boxOutcome (env : GcEnv) (p : Nat) (s : GcState) :
    BoxOutcome env p s (copyScalarBoxToSpace env p s) := by
  rw [copyScalarBoxToSpace, StateT.get_bind_run]
  cases hcell : s.memory p with
  | none => exact .missing (by simp [hcell])
  | some cell =>
    cases cell with
    | forwarded => exact .missing (by simp [hcell])
    | object o =>
      cases o with
      | scalar word =>
        show BoxOutcome env p s (copyObjectToSpace env 16 s >>= _)
        by_cases hfit : s.free + 16 ≤ env.toEnd
        · rw [copyObjectToSpace_ok hfit]
          exact .copy hcell hfit
        · rw [copyObjectToSpace_full (Nat.lt_of_not_le hfit)]
          exact .full hcell (Nat.lt_of_not_le hfit)
      | _ => exact .missing (by simp [hcell])

theorem boxed_memory_free {word : Nat} :
    (s.boxed word).memory s.free = some (.object (.scalar word)) := Function.update_self _ _ _

theorem boxed_memory_ne {word q : Nat} (hq : q ≠ s.free) :
    (s.boxed word).memory q = s.memory q := Function.update_of_ne hq _ _

theorem Inv.box (hl : h.Layout) (hf : h.Fresh toStart (classSize h.toSpaceClass))
    (hi : Inv h toStart roots (boxes + 1) i hand s) (word : Nat)
    (hfit : s.free + 16 ≤ toStart + classSize h.toSpaceClass) :
    Inv h toStart roots boxes i hand (s.boxed word) := by
  have hstart := hi.start_le_free
  have hunmarked := hi.free_unmarked hf (by omega) hfit
  have hfree := hi.free_not_forwarded hl hf (by omega) hfit
  have hold {c : CopiedObject} (hcq : c ∈ s.queue i hand) :
      (s.boxed word).memory c.ptr = s.memory c.ptr :=
    boxed_memory_ne (hi.queued_ne hcq (by omega) hunmarked)
  have hset : copiedSet h (s.boxed word) = copiedSet h s := by
    ext q
    rw [mem_copiedSet, mem_copiedSet]
    by_cases hq : q = s.free
    · subst hq
      simp [boxed_memory_free, hfree]
    · rw [boxed_memory_ne hq]
  refine
    { fragments := hi.fragments
      aligned := Nat.dvd_add hi.aligned (Nat.dvd_refl 16)
      free_eq := ?_
      free_le := hfit
      boxes_le := ?_
      scan_le := hi.scan_le
      forwarded := fun q d o hq => ?_
      old := fun q o hq hto hm => ?_
      domain := fun q hq hto => ?_
      scalars := fun q word' hq hto => ?_
      queued := fun c hcq => ?_
      nodup := hi.nodup
      live := fun c hcq o ho => ?_
      hand_eq := fun c o hh => ?_ }
  · rw [hset]
    show s.free + 16 = _ + 16 * (s.copiedBoxes ++ [s.free]).length
    have := hi.free_eq
    rw [List.length_append, List.length_singleton]
    omega
  · show (s.copiedBoxes ++ [s.free]).length + boxes ≤ _
    have := hi.boxes_le
    rw [List.length_append, List.length_singleton]
    omega
  · show _ ∧ _ ∧ _ ∧ d < s.free + 16 ∧ _
    by_cases hqf : q = s.free
    · subst hqf
      rw [boxed_memory_free] at hq
      cases hq
    · rw [boxed_memory_ne hqf] at hq
      obtain ⟨h₁, h₂, h₃, h₄, h₅⟩ := hi.forwarded q d o hq
      exact ⟨h₁, h₂, h₃, Nat.lt_add_right _ h₄, h₅⟩
  · have hto' : ¬ (toStart ≤ q ∧ q < s.free + 16) := hto
    rw [boxed_memory_ne (by omega)] at hq
    exact hi.old q o hq (by omega) hm
  · have hto' : ¬ (toStart ≤ q ∧ q < s.free + 16) := hto
    rw [boxed_memory_ne (by omega)] at hq
    exact hi.domain q hq (by omega)
  · have hto' : ¬ (toStart ≤ q ∧ q < s.free + 16) := hto
    rw [boxed_memory_ne (by omega)] at hq
    exact hi.scalars q word' hq (by omega)
  · exact (hi.queued c hcq).imp_left fun hin => ⟨hin.1, Nat.lt_add_right _ hin.2⟩
  · rw [hold hcq] at ho
    exact hi.live c hcq o ho
  · rw [hold (mem_hand hh)]
    exact hi.hand_eq c o hh

theorem Inv.box_full (hi : Inv h toStart roots (boxes + 1) i hand s)
    (hfull : toStart + classSize h.toSpaceClass < s.free + 16) :
    classSize h.toSpaceClass < h.liveBytes roots := by
  have hsum := Finset.sum_le_sum_of_subset (f := h.sizeAt) hi.copiedSet_subset
  have hfree := hi.free_eq
  have hboxes := hi.boxes_le
  unfold Heap.liveBytes
  omega

/-! ## Taking from a queue and putting back -/

theorem Inv.of_perm {hand' : Option (CopiedObject × Object)} {j : Nat}
    {fragQueue : List CopiedObject} (hi : Inv h toStart roots boxes i hand s)
    (hperm : (GcState.queue j hand' { s with fragQueue := fragQueue }).Perm (s.queue i hand))
    (hj : j ≤ s.copiedObjects.length)
    (hhand : ∀ c o, hand' = some (c, o) → s.memory c.ptr = some (.object o)) :
    Inv h toStart roots boxes j hand' { s with fragQueue := fragQueue } :=
  { hi with
    scan_le := hj
    queued := fun c hc => hi.queued c (hperm.mem_iff.mp hc)
    nodup := ((hperm.map CopiedObject.ptr).nodup_iff).mpr hi.nodup
    live := fun c hc => hi.live c (hperm.mem_iff.mp hc)
    hand_eq := hhand }

theorem Inv.scan (hi : Inv h toStart roots boxes i none s)
    (hc : s.copiedObjects[i]? = some c) (ho : s.memory c.ptr = some (.object o)) :
    Inv h toStart roots boxes (i + 1) (some (c, o)) s := by
  refine hi.of_perm (queue_scan o hc) (List.getElem?_eq_some_iff.mp hc).1 fun c' o' hh => ?_
  cases hh
  exact ho

theorem Inv.pop (hi : Inv h toStart roots boxes i none s)
    (hc : s.fragQueue.getLast? = some c) (ho : s.memory c.ptr = some (.object o)) :
    Inv h toStart roots boxes i (some (c, o)) s.popFragment := by
  refine hi.of_perm (List.Perm.of_eq (queue_pop o hc)) hi.scan_le fun c' o' hh => ?_
  cases hh
  exact ho

theorem put_memory_self : (s.put p o).memory p = some (.object o) :=
  Function.update_self _ _ _

theorem put_memory_ne {p q : Nat} (hq : q ≠ p) :
    (s.put p o).memory q = s.memory q := Function.update_of_ne hq _ _

theorem Inv.queued_hand_ne (hi : Inv h toStart roots boxes i (some (c, o)) s) {c' : CopiedObject}
    (hc' : c' ∈ s.queue i none) : c'.ptr ≠ c.ptr := by
  intro heq
  have hnodup := hi.nodup
  rw [GcState.queue, List.map_append] at hnodup
  rw [GcState.queue, Option.map_none, Option.toList_none, List.append_nil] at hc'
  exact (List.nodup_append.mp hnodup).2.2 c'.ptr (List.mem_map_of_mem hc') c.ptr
    (List.mem_map_of_mem List.mem_cons_self) heq

theorem queue_none_subset {c' : CopiedObject} (hc' : c' ∈ s.queue i none) :
    c' ∈ s.queue i hand := by
  rw [GcState.queue, Option.map_none, Option.toList_none, List.append_nil] at hc'
  exact List.mem_append_left _ hc'

theorem Inv.put {o o' : Object}
    (hi : Inv h toStart roots boxes i (some (c, o)) s) {V : AnyValue → AnyValue → Prop}
    (hlike : o.Like V o') : Inv h toStart roots boxes i none (s.put c.ptr o') := by
  have hcell := hi.hand_eq c o rfl
  have hset : copiedSet h (s.put c.ptr o') = copiedSet h s := by
    ext q
    rw [mem_copiedSet, mem_copiedSet]
    by_cases hq : q = c.ptr
    · subst hq
      simp [put_memory_self, hcell]
    · rw [put_memory_ne hq]
  refine
    { fragments := hi.fragments
      aligned := hi.aligned
      free_eq := ?_
      free_le := hi.free_le
      boxes_le := hi.boxes_le
      scan_le := hi.scan_le
      forwarded := fun q d o₁ hq => ?_
      old := fun q o₁ hq hto hm => ?_
      domain := fun q hq hto => ?_
      scalars := fun q word hq hto => ?_
      queued := fun c' hc' => hi.queued c' (queue_none_subset hc')
      nodup := ?_
      live := fun c' hc' o₁ ho₁ => ?_
      hand_eq := nofun }
  · rw [hset]
    exact hi.free_eq
  · by_cases hqc : q = c.ptr
    · subst hqc
      rw [put_memory_self] at hq
      cases hq
    · rw [put_memory_ne hqc] at hq
      exact hi.forwarded q d o₁ hq
  · by_cases hqc : q = c.ptr
    · exact absurd hqc.symm (hi.queued_ne (mem_hand rfl) hto hm)
    · rw [put_memory_ne hqc] at hq
      exact hi.old q o₁ hq hto hm
  · refine hi.domain q (fun hnone => ?_) hto
    by_cases hqc : q = c.ptr
    · rw [hqc, hcell] at hnone
      cases hnone
    · rw [put_memory_ne hqc] at hq
      exact hq hnone
  · by_cases hqc : q = c.ptr
    · rw [hqc, put_memory_self] at hq
      cases hq
      rw [hlike.of_scalar] at hcell
      exact hi.scalars q word (hqc ▸ hcell) hto
    · rw [put_memory_ne hqc] at hq
      exact hi.scalars q word hq hto
  · have hnodup := hi.nodup
    rw [GcState.queue, List.map_append] at hnodup
    show ((s.queue i none).map _).Nodup
    rw [GcState.queue, Option.map_none, Option.toList_none, List.append_nil]
    exact (List.nodup_append.mp hnodup).1
  · rw [put_memory_ne (hi.queued_hand_ne hc')] at ho₁
    exact hi.live c' (queue_none_subset hc') o₁ ho₁

end Steps

/-! ## The whole collection -/

section Run

variable {h : Heap} {toStart : Nat} {roots : Roots} {s : GcState}

/-- Running out of space is the only complaint: then there was too much to copy. -/
def Capacity (h : Heap) (roots : Roots) (stop : GcStop) : Prop :=
  stop = .toSpaceExhausted → classSize h.toSpaceClass < h.liveBytes roots

theorem Inv.forward (hl : h.Layout) (hf : h.Fresh toStart (classSize h.toSpaceClass))
    {boxes i : Nat} {hand : Option (CopiedObject × Object)}
    (hi : Inv h toStart roots boxes i hand s) {kind : ValueKind} {p : Nat}
    (hlive : Live h roots kind p) : wp (cheneyForwardObject (h.toEnv toStart) kind p)
      (fun _ s' => Inv h toStart roots boxes i hand s') (Capacity h roots) s := by
  have hout := forwardOutcome (h.toEnv toStart) kind p s
  unfold wp
  generalize cheneyForwardObject (h.toEnv toStart) kind p s = result at hout
  cases hout with
  | known => exact hi
  | mark hc hget hm => exact hi.mark hf hlive hc hget hm
  | seen => exact hi
  | copy hc hp _ hk hfit => exact hi.copy hl hf hlive hc hp hk hfit
  | full hc hp _ hk hfull => exact fun _ => hi.full hl hf hlive hc hp hk hfull
  | missing | mistyped | unread => exact nofun

theorem isBox_of_memory {slot word : Nat} (ha : h.isActive slot)
    (hw : h.memory slot = some (.scalar word)) : h.isBox slot = true := by
  rw [Heap.isBox, ha, hw, Bool.true_and]

theorem Inv.boxRoot (hl : h.Layout) (hf : h.Fresh toStart (classSize h.toSpaceClass))
    {boxes i : Nat} {hand : Option (CopiedObject × Object)} {slot : Nat}
    (hi : Inv h toStart roots (boxes + (h.isBox slot).toNat) i hand s) (ha : h.isActive slot) :
    wp (copyScalarBoxToSpace (h.toEnv toStart) slot)
      (fun _ s' => Inv h toStart roots boxes i hand s') (Capacity h roots) s := by
  have hbox {word : Nat} (hw : s.memory slot = some (.object (.scalar word))) :
      h.isBox slot = true := by
    have hle := hi.free_le
    refine isBox_of_memory ha (hi.scalars slot word hw fun hin => hf.not_mem ha ?_)
    omega
  have hout := boxOutcome (h.toEnv toStart) slot s
  unfold wp
  generalize copyScalarBoxToSpace (h.toEnv toStart) slot s = result at hout
  cases hout with
  | @copy word hw hfit =>
    rw [hbox hw] at hi
    exact hi.box hl hf word hfit
  | full hw hfull =>
    rw [hbox hw] at hi
    exact fun _ => hi.box_full hfull
  | missing => exact nofun

theorem inv_start (hf : h.Fresh toStart (classSize h.toSpaceClass)) :
    Inv h toStart roots (h.boxRoots roots).length 0 none (h.startState toStart) := by
  have hobject (p : Nat) (cell : Cell) (hp : (h.startState toStart).memory p = some cell) :
      ∃ o, cell = .object o ∧ h.memory p = some o := by
    obtain ⟨o, ho, rfl⟩ := Option.map_eq_some_iff.mp hp
    exact ⟨o, rfl, ho⟩
  have hempty : copiedSet h (h.startState toStart) = ∅ := by
    refine Finset.eq_empty_of_forall_notMem fun p hp => ?_
    obtain ⟨-, d, o, hcell⟩ := mem_copiedSet.mp hp
    obtain ⟨o', hcell', -⟩ := hobject p _ hcell
    cases hcell'
  refine
    { fragments := ?_
      aligned := hf.aligned
      free_eq := ?_
      free_le := Nat.le_add_right _ _
      boxes_le := Nat.le_of_eq (Nat.zero_add _)
      scan_le := Nat.zero_le _
      forwarded := fun p d o hp => ?_
      old := fun p o hp _ _ => ?_
      domain := fun p hp _ hnone => hp (by simp [Heap.startState, hnone])
      scalars := fun p word hp _ => ?_
      queued := nofun
      nodup := List.nodup_nil
      live := nofun
      hand_eq := nofun }
  · show (h.fragments.map _).map _ = _
    rw [List.map_map]
    rfl
  · rw [hempty]
    rfl
  · obtain ⟨o', hcell', -⟩ := hobject p _ hp
    cases hcell'
  · obtain ⟨o', hcell', ho'⟩ := hobject p _ hp
    cases hcell'
    exact ho'
  · obtain ⟨o', hcell', ho'⟩ := hobject p _ hp
    cases hcell'
    exact ho'

theorem live_of_roots (h : Heap) (roots : Roots) :
    PointersIn h (Live h roots) [roots.primary] ∧ PointersIn h (Live h roots) roots.values ∧
      ∀ kind p, .heap kind p ∈ roots.refs → h.isActive p → Live h roots kind p :=
  ⟨fun _ _ hp => .primary (List.mem_singleton.mp hp).symm, fun _ _ => .value, fun _ _ => .ref⟩

/-- A property that the steps of a collection keep, next to `Inv`. -/
structure Keeps (h : Heap) (toStart : Nat) (roots : Roots) (D : GcState → Prop) : Prop where
  forward : ∀ n i hand s kind p, Inv h toStart roots n i hand s → D s → Live h roots kind p →
    wp (cheneyForwardObject (h.toEnv toStart) kind p) (fun _ s' => D s') (fun _ => True) s
  box : ∀ n s slot, Inv h toStart roots n 0 none s → D s → h.isActive slot →
    wp (copyScalarBoxToSpace (h.toEnv toStart) slot) (fun _ s' => D s') (fun _ => True) s
  pop : ∀ s, D s → D s.popFragment
  put : ∀ i c o o' s (V : AnyValue → AnyValue → Prop), Inv h toStart roots 0 i (some (c, o)) s →
    D s → o.Like V o' → D (s.put c.ptr o')

namespace Keeps

variable {D : GcState → Prop} (K : Keeps h toStart roots D)

include K

theorem forwarding (hl : h.Layout) (hf : h.Fresh toStart (classSize h.toSpaceClass)) (n i : Nat)
    (hand : Option (CopiedObject × Object)) :
    Forwarding (h.toEnv toStart) h (fun s => Inv h toStart roots n i hand s ∧ D s)
      (fun _ _ => True) (fun _ _ _ => True) (Live h roots) (Capacity h roots) where
  ranges := rfl
  fragments := fun _ hs => hs.1.fragments
  refl := fun _ => trivial
  trans := fun _ _ _ _ _ => trivial
  mono := fun _ _ _ _ _ _ => trivial
  forward := fun s kind p hs hlive _ =>
    ((hs.1.forward hl hf hlive).and (K.forward n i hand s kind p hs.1 hs.2 hlive)).imp
      fun _ _ h' => ⟨h', trivial, trivial⟩

theorem rooting (hl : h.Layout) (hf : h.Fresh toStart (classSize h.toSpaceClass)) :
    Rooting (h.toEnv toStart) h (fun n s => Inv h toStart roots n 0 none s ∧ D s)
      (fun _ _ => True) (fun _ _ _ => True) (fun _ _ _ => True) (Live h roots) (fun _ => True)
      (Capacity h roots) where
  forwarding := fun n => K.forwarding hl hf n 0 none
  boxed_mono := fun _ _ _ _ _ _ => trivial
  box := fun _ s slot hs _ ha =>
    ((hs.1.boxRoot hl hf ha).and (K.box _ s slot hs.1 hs.2 ha)).imp
      fun _ _ h' => ⟨h', trivial, trivial⟩

theorem collecting (hl : h.Layout) (hf : h.Fresh toStart (classSize h.toSpaceClass)) :
    Collecting (h.toEnv toStart) h (fun _ i hand s => Inv h toStart roots 0 i hand s ∧ D s)
      (fun _ _ => True) (fun _ _ _ => True) (Live h roots) (Capacity h roots) where
  forwarding := fun _ i hand => K.forwarding hl hf 0 i hand
  values := fun _ _ c o _ hs => hs.1.live c (mem_hand rfl) o (hs.1.hand_eq c o rfl)
  busy := fun _ _ _ _ _ _ => .inr nofun
  scan := fun _ _ _ _ _ hs hc ho => ⟨hs.1.scan hc ho, hs.2⟩
  pop := fun _ _ s _ _ hs hc ho => ⟨⟨hs.1.pop hc ho, K.pop s hs.2⟩, trivial⟩
  put := fun _ i c o o' s hs hlike =>
    ⟨⟨hs.1.put hlike, K.put i c o o' s _ hs.1 hs.2 hlike⟩, trivial⟩

theorem copyLive (hl : h.Layout) (hf : h.Fresh toStart (classSize h.toSpaceClass))
    (hstart : D (h.startState toStart)) :
    wp (h.copyLive toStart roots) (fun _ s' => ∃ i, Inv h toStart roots 0 i none s' ∧ D s')
      (Capacity h roots) (h.startState toStart) := by
  obtain ⟨hprimary, hvalues, hrefs⟩ := live_of_roots h roots
  simp only [Heap.copyLive, wp_bind, wp_pure]
  refine ((K.rooting hl hf).roots ⟨inv_start hf, hstart⟩ hprimary hvalues hrefs
    fun _ _ _ _ => trivial).imp ?_
  rintro _ s₁ ⟨hs₁, -⟩
  refine ((K.collecting hl hf).drain (n := 0) hs₁ (.inr (by rintro ⟨⟩))).imp ?_
  rintro _ s₂ ⟨⟨n, i, hs₂, -⟩, -⟩
  exact ⟨i, hs₂⟩

end Keeps

end Run

end Fz.Gc
