import Fz.Base.Run
import Fz.Gc.ToSpace

/-!
# The size of to-space

The class of to-space is chosen before anything is copied, from what the last collection kept and
from how full the blocks are.  `Heap.LiveFits` says when that is enough: the live bytes fit the
largest class, and if the heap is being shrunk they fit what is picked for twice the bytes that
survived last time.  Nothing makes this so, as allocation between two collections may have doubled
the live data without putting the heap under pressure, and blocks may hold more than the largest
class.

Heaps are those of runs: any allocations, changes of the roots and of objects in place, and
collections that came to an end, from a new heap.
-/

namespace Fz.Gc

open Fz.Base
open Fz.Terms (ValueKind AnyValue)

/-! ## Size classes -/

theorem sizeTable_sorted : sizeTable.Pairwise (· ≤ ·) := by decide

theorem lastClass_lt : lastClass < sizeTable.length := by decide

theorem classSize_of_lt {c : Nat} (hc : c < sizeTable.length) : classSize c = sizeTable[c] := by
  rw [classSize, List.getD_eq_getElem _ _ hc]

theorem classSize_mono {c d : Nat} (h : c ≤ d) (hd : d ≤ lastClass) :
    classSize c ≤ classSize d := by
  have hlt := Nat.lt_of_le_of_lt hd lastClass_lt
  rw [classSize_of_lt (Nat.lt_of_le_of_lt h hlt), classSize_of_lt hlt]
  rcases Nat.eq_or_lt_of_le h with rfl | hlt'
  · exact Nat.le_refl _
  · exact List.pairwise_iff_getElem.mp sizeTable_sorted c d _ hlt hlt'

theorem pickSizeClass_of_le {bytes : Nat} (h : bytes ≤ classSize lastClass) :
    pickSizeClass bytes ≤ lastClass ∧ bytes ≤ classSize (pickSizeClass bytes) := by
  cases hfind : sizeTable.findIdx? fun size => bytes ≤ size with
  | none =>
    have hnone := List.findIdx?_eq_none_iff.mp hfind sizeTable[lastClass]
      (List.getElem_mem lastClass_lt)
    rw [classSize_of_lt lastClass_lt] at h
    exact absurd h (by simpa using hnone)
  | some c =>
    obtain ⟨hlt, hle, -⟩ := List.findIdx?_eq_some_iff_getElem.mp hfind
    rw [pickSizeClass, hfind, Option.getD_some, classSize_of_lt hlt]
    exact ⟨Nat.le_sub_one_of_lt hlt, by simpa using hle⟩

theorem pickSizeClass_of_lt {bytes : Nat} (h : classSize lastClass < bytes) :
    pickSizeClass bytes = lastClass := by
  have hnone : (sizeTable.findIdx? fun size => bytes ≤ size) = none := by
    refine List.findIdx?_eq_none_iff.mpr fun size hsize => ?_
    obtain ⟨c, hc, rfl⟩ := List.mem_iff_getElem.mp hsize
    have hle := classSize_mono (Nat.le_sub_one_of_lt hc) (Nat.le_refl lastClass)
    rw [classSize_of_lt hc] at hle
    simpa using Nat.lt_of_le_of_lt hle h
  rw [pickSizeClass, hnone, Option.getD_none]

theorem pickSizeClass_le (bytes : Nat) : pickSizeClass bytes ≤ lastClass := by
  rcases Nat.lt_or_ge (classSize lastClass) bytes with h | h
  · rw [pickSizeClass_of_lt h]
  · exact (pickSizeClass_of_le h).1

theorem le_pickSizeClass {live bytes : Nat} (hlive : live ≤ bytes)
    (hlast : live ≤ classSize lastClass) : live ≤ classSize (pickSizeClass bytes) := by
  rcases Nat.lt_or_ge (classSize lastClass) bytes with h | h
  · rw [pickSizeClass_of_lt h]
    exact hlast
  · exact Nat.le_trans hlive (pickSizeClass_of_le h).2

theorem toSpaceClass_le (h : Heap) : h.toSpaceClass ≤ lastClass := by
  unfold Heap.toSpaceClass
  dsimp only
  split
  · exact Nat.max_le.mpr ⟨pickSizeClass_le _, Nat.min_le_right _ _⟩
  · exact pickSizeClass_le _

/-! ## When to-space suffices -/

/-- Each root that refers to a scalar has a box of its own: messages are copied to the receiver one
by one. -/
def Roots.OwnBoxes (roots : Roots) : Prop := (roots.refs.filterMap AnyValueRef.slot?).Nodup

/-- The live data fits the largest class, and when the heap is shrunk, what is picked for twice the
bytes that survived the last collection. -/
def Heap.LiveFits (h : Heap) (roots : Roots) : Prop :=
  h.liveBytes roots ≤ classSize lastClass ∧
    (h.wasPressured = true ∨ h.lastGcLiveBytes = 0 ∨ h.blockSize < h.lastGcLiveBytes * 4 ∨
      h.liveBytes roots ≤ classSize (pickSizeClass (max (h.lastGcLiveBytes * 2) (classSize 0))))

section Fits

variable {h : Heap} {roots : Roots}

/-- Live objects are objects of the blocks, so they are no more than the blocks hold. -/
theorem liveBytes_le_occupied (hl : h.Layout) (hown : roots.OwnBoxes) :
    h.liveBytes roots ≤ h.occupiedBytes := by
  classical
  have hboxes (p : Nat) (hp : p ∈ h.boxRoots roots) :
      ∃ word, h.memory p = some (.scalar word) := by
    have hbox := (List.mem_filter.mp hp).2
    rw [Heap.isBox, Bool.and_eq_true] at hbox
    cases hm : h.memory p with
    | none => simp [hm] at hbox
    | some o =>
      cases o with
      | scalar word => exact ⟨word, rfl⟩
      | _ => simp [hm] at hbox
  have hnodup : (h.boxRoots roots).Nodup := hown.filter _
  have hdisj : Disjoint (h.liveSet roots) (h.boxRoots roots).toFinset := by
    refine Finset.disjoint_left.mpr fun p hp hbox => ?_
    obtain ⟨-, kind, o, -, hmem, hk⟩ := (Finset.mem_filter.mp hp).2
    obtain ⟨word, hword⟩ := hboxes p (List.mem_toFinset.mp hbox)
    rw [hmem] at hword
    cases hword
    cases kind <;> exact Bool.false_ne_true hk
  have hsum : ∑ p ∈ (h.boxRoots roots).toFinset, h.sizeAt p = 16 * (h.boxRoots roots).length := by
    rw [Finset.sum_const_nat (m := 16) fun p hp => ?_, List.toFinset_card_of_nodup hnodup,
      Nat.mul_comm]
    obtain ⟨word, hword⟩ := hboxes p (List.mem_toFinset.mp hp)
    rw [sizeAt_of_memory hword]
    rfl
  have hsub : h.liveSet roots ∪ (h.boxRoots roots).toFinset ⊆ h.blockObjects := by
    refine Finset.union_subset (fun p hp => ?_) fun p hp => ?_
    · obtain ⟨hmem, hfrag, -⟩ := Finset.mem_filter.mp hp
      exact Finset.mem_filter.mpr ⟨hmem, by rw [hfrag]; rfl⟩
    · obtain ⟨word, hword⟩ := hboxes p (List.mem_toFinset.mp hp)
      refine Finset.mem_filter.mpr ⟨List.mem_toFinset.mpr (hl.mem_objects p _ hword), ?_⟩
      rw [hl.box_block p word hword]
      rfl
  calc h.liveBytes roots
      = ∑ p ∈ h.liveSet roots, h.sizeAt p + ∑ p ∈ (h.boxRoots roots).toFinset, h.sizeAt p := by
        rw [hsum]
        rfl
    _ = ∑ p ∈ h.liveSet roots ∪ (h.boxRoots roots).toFinset, h.sizeAt p :=
        (Finset.sum_union hdisj).symm
    _ ≤ ∑ p ∈ h.blockObjects, h.sizeAt p := Finset.sum_le_sum_of_subset hsub
    _ ≤ h.occupiedBytes := hl.bytes

theorem toSpace_pressured (hpr : h.wasPressured = true) {live : Nat}
    (hlive : live ≤ h.occupiedBytes)
    (hlast : live ≤ classSize lastClass) : live ≤ classSize h.toSpaceClass := by
  have htarget : live ≤ max h.targetBytes (classSize 0) := by
    unfold Heap.targetBytes
    rw [if_pos hpr]
    omega
  refine Nat.le_trans (le_pickSizeClass htarget hlast) (classSize_mono ?_ (toSpaceClass_le h))
  unfold Heap.toSpaceClass
  rw [if_pos hpr]
  exact Nat.le_max_left _ _

theorem toSpaceClass_of_not_pressured (hpr : ¬ h.wasPressured = true) :
    h.toSpaceClass = pickSizeClass (max h.targetBytes (classSize 0)) := by
  unfold Heap.toSpaceClass
  rw [if_neg hpr]

/-- To-space holds the live bytes exactly when they fit. -/
theorem liveBytes_le_iff (hl : h.Layout) (hown : roots.OwnBoxes) :
    h.liveBytes roots ≤ classSize h.toSpaceClass ↔ h.LiveFits roots := by
  have hocc := liveBytes_le_occupied hl hown
  have hlast (hle : h.liveBytes roots ≤ classSize h.toSpaceClass) :
      h.liveBytes roots ≤ classSize lastClass :=
    Nat.le_trans hle (classSize_mono (toSpaceClass_le h) (Nat.le_refl _))
  by_cases hpr : h.wasPressured = true
  · exact ⟨fun hle => ⟨hlast hle, .inl hpr⟩, fun hfit => toSpace_pressured hpr hocc hfit.1⟩
  · have hclass := toSpaceClass_of_not_pressured hpr
    by_cases hz : h.lastGcLiveBytes = 0
    · refine ⟨fun hle => ⟨hlast hle, .inr (.inl hz)⟩, fun hfit => ?_⟩
      have htarget : h.targetBytes = h.occupiedBytes := by
        rw [Heap.targetBytes, if_neg hpr, if_pos (.inl hz), Heap.fitToLive,
          if_neg (Nat.not_lt.mpr (Nat.le_of_eq hz))]
      rw [hclass, htarget]
      exact le_pickSizeClass (Nat.le_trans hocc (Nat.le_max_left _ _)) hfit.1
    · by_cases hshrink : h.lastGcLiveBytes * 4 ≤ h.blockSize
      · have htarget : h.targetBytes = h.lastGcLiveBytes * 2 := by
          rw [Heap.targetBytes, if_neg hpr, if_pos (.inr hshrink), Heap.fitToLive,
            if_pos (Nat.pos_of_ne_zero hz)]
        constructor
        · intro hle
          refine ⟨hlast hle, .inr (.inr (.inr ?_))⟩
          rw [hclass, htarget] at hle
          exact hle
        · rintro ⟨-, hfit⟩
          rw [hclass, htarget]
          rcases hfit with hp | hp | hp | hp
          · exact absurd hp hpr
          · exact absurd hp hz
          · omega
          · exact hp
      · refine ⟨fun hle => ⟨hlast hle, .inr (.inr (.inl (Nat.lt_of_not_le hshrink)))⟩,
          fun hfit => ?_⟩
        have htarget : h.targetBytes = h.blockSize := by
          rw [Heap.targetBytes, if_neg hpr, if_neg (by omega)]
        have habandoned : h.abandonedBlocks = [] := by
          simp only [Heap.wasPressured, Bool.or_eq_true, not_or, Bool.not_eq_true,
            Bool.not_eq_false'] at hpr
          exact List.isEmpty_iff.mp hpr.1
        have hblock : h.occupiedBytes ≤ h.blockSize := by
          have h₁ := hl.start_le
          have h₂ := hl.bump_le
          rw [Heap.occupiedBytes, habandoned]
          unfold Heap.blockEnd at h₂
          simp only [List.map_nil, List.sum_nil]
          omega
        rw [hclass, htarget]
        exact le_pickSizeClass (Nat.le_trans hocc (Nat.le_trans hblock (Nat.le_max_left _ _)))
          hfit.1

end Fits

/-! ## Layout is kept -/

section Keep

variable {h : Heap}

theorem Apart.symm {r q : Nat × Nat} (hr : Apart r q) : Apart q r := Or.symm hr

theorem not_contains_of_fresh {start size : Nat} (hf : h.Fresh start size) {p : Nat}
    (ha : h.isActive p) (mark : Bool) : (⟨start, size, mark⟩ : Fragment).contains p = false := by
  have := hf.not_mem ha
  exact Bool.eq_false_iff.mpr fun hc => this (contains_iff.mp hc)

theorem new_layout (capacity : Nat) {block : Nat} (hpos : 0 < block) :
    (Heap.new capacity block).Layout where
  start_pos := hpos
  start_le := Nat.le_refl _
  bump_le := Nat.le_add_right _ _
  sizeClass_le := pickSizeClass_le _
  apart := List.pairwise_singleton _ _
  mem_objects := nofun
  active := nofun
  unused := nofun
  fragment_start := nofun
  box_block := nofun
  bytes := Nat.zero_le _

theorem place_eq (p : Nat) (o : Object) : ∃ pressure msoHead, h.place p o =
    { h with
      memory := Function.update h.memory p (some (o.setMsoNext h.msoHead))
      objects := h.objects ++ [p]
      pressure := pressure
      msoHead := msoHead } := by
  have hnote (g : Heap) : ∃ pressure, g.noteAllocPressure = { g with pressure := pressure } := by
    unfold Heap.noteAllocPressure
    split
    · exact ⟨true, rfl⟩
    · exact ⟨g.pressure, rfl⟩
  have hlink (g : Heap) : ∃ msoHead, g.linkStub p o = { g with msoHead := msoHead } := by
    unfold Heap.linkStub
    split
    · exact ⟨g.msoHead, rfl⟩
    · exact ⟨_, rfl⟩
  obtain ⟨msoHead, hl⟩ := hlink
    { h with
      memory := Function.update h.memory p (some (o.setMsoNext h.msoHead))
      objects := h.objects ++ [p] }
  obtain ⟨pressure, hn⟩ := hnote (Heap.linkStub
    { h with
      memory := Function.update h.memory p (some (o.setMsoNext h.msoHead))
      objects := h.objects ++ [p] } p o)
  refine ⟨pressure, msoHead, ?_⟩
  rw [Heap.place, hn, hl]

/-- Room has been made for an object at `p`, which the bytes do not count yet. -/
theorem place_layout (hl : h.Layout) {p : Nat} {o : Object} (ha : h.isActive p)
    (hunused : p < h.bumpTop ∨ h.blockEnd ≤ p)
    (hstart : ∀ f ∈ h.fragments, f.contains p → p = f.ptr)
    (hbox : ∀ word, o = .scalar word → h.inFragment p = false)
    (hbytes : ∑ q ∈ h.blockObjects, h.sizeAt q + (if h.inFragment p then 0 else o.size) ≤
      h.occupiedBytes) : (h.place p o).Layout := by
  obtain ⟨pressure, msoHead, hplace⟩ := place_eq (h := h) p o
  rw [hplace]
  have hmem {q : Nat} {o' : Object}
      (hq : Function.update h.memory p (some (o.setMsoNext h.msoHead)) q = some o') :
      (q = p ∧ o' = o.setMsoNext h.msoHead) ∨ h.memory q = some o' := by
    by_cases hqp : q = p
    · subst hqp
      rw [Function.update_self] at hq
      exact .inl ⟨rfl, (Option.some.inj hq).symm⟩
    · rw [Function.update_of_ne hqp] at hq
      exact .inr hq
  refine
    { start_pos := hl.start_pos
      start_le := hl.start_le
      bump_le := hl.bump_le
      sizeClass_le := hl.sizeClass_le
      apart := hl.apart
      mem_objects := fun q o' hq => ?_
      active := fun q o' hq => ?_
      unused := fun q o' hq => ?_
      fragment_start := fun f hf q o' hq hc => ?_
      box_block := fun q word hq => ?_
      bytes := ?_ }
  · rcases hmem hq with ⟨rfl, -⟩ | hq
    · exact List.mem_append_right _ List.mem_cons_self
    · exact List.mem_append_left _ (hl.mem_objects q o' hq)
  · rcases hmem hq with ⟨rfl, -⟩ | hq
    · exact ha
    · exact hl.active q o' hq
  · rcases hmem hq with ⟨rfl, -⟩ | hq
    · exact hunused
    · exact hl.unused q o' hq
  · rcases hmem hq with ⟨rfl, -⟩ | hq
    · exact hstart f hf hc
    · exact hl.fragment_start f hf q o' hq hc
  · rcases hmem hq with ⟨rfl, ho⟩ | hq
    · refine hbox word ?_
      cases o with
      | scalar => exact ho.symm
      | _ => cases ho
    · exact hl.box_block q word hq
  · generalize hh' : ({ h with
      memory := Function.update h.memory p (some (o.setMsoNext h.msoHead))
      objects := h.objects ++ [p]
      pressure := pressure
      msoHead := msoHead } : Heap) = h'
    have hself : h'.sizeAt p = o.size := by
      subst hh'
      show (Function.update h.memory p _ p).elim 0 Object.size = _
      rw [Function.update_self, Option.elim_some, size_setMsoNext]
    have hother (q : Nat) (hq : q ≠ p) : h'.sizeAt q = h.sizeAt q := by
      subst hh'
      show (Function.update h.memory p _ q).elim 0 Object.size = _
      rw [Function.update_of_ne hq]
      rfl
    have hblock (q : Nat) (hq : q ∈ h'.blockObjects) :
        h.inFragment q = false ∧ (q = p ∨ q ∈ h.blockObjects) := by
      subst hh'
      obtain ⟨hmem, hfrag⟩ := Finset.mem_filter.mp hq
      have hfrag' : h.inFragment q = false := by
        cases hq : h.inFragment q with
        | false => rfl
        | true => exact absurd hfrag (by change ¬ (!h.inFragment q) = true; simp [hq])
      refine ⟨hfrag', ?_⟩
      rcases List.mem_append.mp (List.mem_toFinset.mp hmem) with hmem | hmem
      · exact .inr (Finset.mem_filter.mpr ⟨List.mem_toFinset.mpr hmem, hfrag⟩)
      · exact .inl (List.mem_singleton.mp hmem)
    have hocc : h'.occupiedBytes = h.occupiedBytes := by
      subst hh'
      rfl
    rw [hocc]
    refine Nat.le_trans ?_ hbytes
    split
    · next hfrag =>
      have hne (q : Nat) (hq : q ∈ h'.blockObjects) : q ≠ p := by
        rintro rfl
        exact Bool.false_ne_true ((hblock q hq).1.symm.trans hfrag)
      rw [Finset.sum_congr rfl fun q hq => hother q (hne q hq), Nat.add_zero]
      exact Finset.sum_le_sum_of_subset fun q hq => (hblock q hq).2.resolve_left (hne q hq)
    · have hsub : h'.blockObjects ⊆ insert p (h.blockObjects.erase p) := fun q hq => by
        by_cases hqp : q = p
        · exact Finset.mem_insert.mpr (.inl hqp)
        · refine Finset.mem_insert_of_mem (Finset.mem_erase.mpr ⟨hqp, ?_⟩)
          exact (hblock q hq).2.resolve_left hqp
      calc ∑ q ∈ h'.blockObjects, h'.sizeAt q
          ≤ ∑ q ∈ insert p (h.blockObjects.erase p), h'.sizeAt q := Finset.sum_le_sum_of_subset hsub
        _ = o.size + ∑ q ∈ h.blockObjects.erase p, h.sizeAt q := by
            rw [Finset.sum_insert (Finset.notMem_erase p _), hself]
            congr 1
            exact Finset.sum_congr rfl fun q hq => hother q (Finset.ne_of_mem_erase hq)
        _ ≤ ∑ q ∈ h.blockObjects, h.sizeAt q + o.size := by
            have := Finset.sum_le_sum_of_subset (f := h.sizeAt)
              (Finset.erase_subset p h.blockObjects)
            omega

/-- The memory an allocation may ask for: a fragment, or a block when the current one is full. -/
def Heap.FreshFor (h : Heap) (block : Nat) (o : Object) : Prop :=
  (fragmentThreshold < o.size → h.Fresh block o.size) ∧
    (o.size ≤ fragmentThreshold → h.blockEnd < h.bumpTop + o.size →
      h.Fresh block (classSize (h.grownClass o.size)))

theorem size_le_grown {size : Nat} (hsize : size ≤ fragmentThreshold) :
    h.grownClass size ≤ lastClass ∧ size ≤ classSize (h.grownClass size) := by
  have hpick := pickSizeClass_of_le hsize
  have hle : h.grownClass size ≤ lastClass := Nat.max_le.mpr ⟨hpick.1, Nat.min_le_right _ _⟩
  exact ⟨hle, Nat.le_trans hpick.2 (classSize_mono (Nat.le_max_left _ _) hle)⟩

/-- The layout with a fragment added. -/
theorem fragment_layout (hl : h.Layout) {block size : Nat} (hf : h.Fresh block size) :
    Heap.Layout { h with fragments := h.fragments ++ [⟨block, size, false⟩] } := by
  have hfrag (p : Nat) : Heap.inFragment { h with
      fragments := h.fragments ++ [⟨block, size, false⟩] } p =
      (h.inFragment p || (⟨block, size, false⟩ : Fragment).contains p) := by
    simp [Heap.inFragment]
  refine
    { start_pos := hl.start_pos
      start_le := hl.start_le
      bump_le := hl.bump_le
      sizeClass_le := hl.sizeClass_le
      apart := ?_
      mem_objects := hl.mem_objects
      active := fun p o hp => ?_
      unused := hl.unused
      fragment_start := fun f hfm p o hp hc => ?_
      box_block := fun p word hp => ?_
      bytes := ?_ }
  · have hranges : Heap.ranges { h with fragments := h.fragments ++ [⟨block, size, false⟩] } =
        h.ranges ++ [(block, block + size)] := by
      simp [Heap.ranges, Heap.fromRanges, Heap.blockEnd, Heap.blockSize]
    rw [hranges]
    refine List.pairwise_append.mpr ⟨hl.apart, List.pairwise_singleton _ _, fun r hr q hq => ?_⟩
    rw [List.mem_singleton.mp hq]
    exact hf.apart r hr
  · have ha := hl.active p o hp
    rw [Heap.isActive, hfrag, ← Bool.or_assoc, Bool.and_or_distrib_left]
    rw [Heap.isActive] at ha
    exact Bool.or_eq_true_iff.mpr (.inl ha)
  · rcases List.mem_append.mp hfm with hfm | hfm
    · exact hl.fragment_start f hfm p o hp hc
    · rw [List.mem_singleton.mp hfm, not_contains_of_fresh hf (hl.active p o hp)] at hc
      exact absurd hc Bool.false_ne_true
  · rw [hfrag, hl.box_block p word hp, not_contains_of_fresh hf (hl.active p _ hp)]
    rfl
  · refine Nat.le_trans (Finset.sum_le_sum_of_subset fun p hp => ?_) hl.bytes
    obtain ⟨hmem, hnot⟩ := Finset.mem_filter.mp hp
    rw [hfrag] at hnot
    exact Finset.mem_filter.mpr ⟨hmem, by simp_all⟩

theorem occupiedBytes_grow (hl : h.Layout) (block size sizeClass : Nat) :
    h.occupiedBytes + size ≤ Heap.occupiedBytes { h with
      abandonedBlocks := h.abandonedBlocks ++ [(h.blockStart, h.sizeClass)]
      blockStart := block
      bumpTop := block + size
      sizeClass := sizeClass } := by
  have h₁ := hl.start_le
  have h₂ := hl.bump_le
  simp only [Heap.occupiedBytes, List.map_append, List.sum_append, List.map_cons, List.map_nil,
    List.sum_cons, List.sum_nil]
  unfold Heap.blockEnd Heap.blockSize at h₂
  omega

/-- The layout with a new block in place of the current one. -/
theorem grow_layout (hl : h.Layout) {block size sizeClass : Nat}
    (hf : h.Fresh block (classSize sizeClass)) (hclass : sizeClass ≤ lastClass)
    (hsize : size ≤ classSize sizeClass) :
    Heap.Layout { h with
      abandonedBlocks := h.abandonedBlocks ++ [(h.blockStart, h.sizeClass)]
      blockStart := block
      bumpTop := block + size
      sizeClass := sizeClass } := by
  generalize hh' : ({ h with
      abandonedBlocks := h.abandonedBlocks ++ [(h.blockStart, h.sizeClass)]
      blockStart := block
      bumpTop := block + size
      sizeClass := sizeClass } : Heap) = h'
  have hranges : h'.ranges.Perm ((block, block + classSize sizeClass) :: h.ranges) := by
    subst hh'
    simp only [Heap.ranges, Heap.fromRanges, Heap.blockEnd, Heap.blockSize, List.map_append,
      List.map_cons, List.map_nil, List.cons_append, List.append_assoc]
    exact List.Perm.cons _ List.perm_middle
  have hfrag (p : Nat) : h'.inFragment p = h.inFragment p := by
    subst hh'
    rfl
  have hfrom (p : Nat) (hp : ptrInFromSpace p h.fromRanges = true) :
      ptrInFromSpace p h'.fromRanges = true := by
    subst hh'
    simp only [ptrInFromSpace, Heap.fromRanges, Heap.blockEnd, Heap.blockSize, List.any_cons,
      List.map_append, List.any_append, List.map_cons, List.map_nil, List.any_nil,
      Bool.or_false, Bool.or_eq_true] at hp ⊢
    rcases hp with hp | hp
    · exact .inr (.inr hp)
    · exact .inr (.inl hp)
  have hnot {p : Nat} {o : Object} (hp : h.memory p = some o) := hf.not_mem (hl.active p o hp)
  refine
    { start_pos := ?_
      start_le := ?_
      bump_le := ?_
      sizeClass_le := ?_
      apart := ?_
      mem_objects := ?_
      active := fun p o hp => ?_
      unused := fun p o hp => ?_
      fragment_start := ?_
      box_block := fun p word hp => ?_
      bytes := ?_ }
  · subst hh'
    exact hf.pos
  · subst hh'
    exact Nat.le_add_right _ _
  · subst hh'
    exact Nat.add_le_add_left hsize _
  · subst hh'
    exact hclass
  · refine (hranges.pairwise_iff Apart.symm).mpr (List.pairwise_cons.mpr ⟨fun r hr => ?_, hl.apart⟩)
    exact (hf.apart r hr).symm
  · subst hh'
    exact hl.mem_objects
  · have hp' : h.memory p = some o := by subst hh'; exact hp
    have ha := hl.active p o hp'
    rw [Heap.isActive, Bool.and_eq_true, Bool.or_eq_true] at ha ⊢
    rw [hfrag]
    exact ⟨ha.1, ha.2.imp_left (hfrom p)⟩
  · have hp' : h.memory p = some o := by subst hh'; exact hp
    have := hnot hp'
    subst hh'
    show p < block + size ∨ block + classSize sizeClass ≤ p
    omega
  · subst hh'
    exact hl.fragment_start
  · rw [hfrag]
    subst hh'
    exact hl.box_block p word hp
  · have hocc := occupiedBytes_grow hl block size sizeClass
    rw [hh'] at hocc
    refine Nat.le_trans (Nat.le_of_eq ?_) (Nat.le_trans hl.bytes (Nat.le_of_add_right_le hocc))
    subst hh'
    rfl

theorem bump_layout (hl : h.Layout) {size : Nat} (hfit : h.bumpTop + size ≤ h.blockEnd) :
    Heap.Layout { h with bumpTop := h.bumpTop + size } := by
  have h₁ := hl.start_le
  refine
    { start_pos := hl.start_pos
      start_le := Nat.le_add_right_of_le h₁
      bump_le := hfit
      sizeClass_le := hl.sizeClass_le
      apart := hl.apart
      mem_objects := hl.mem_objects
      active := hl.active
      unused := fun p o hp => (hl.unused p o hp).imp_left (Nat.lt_add_right size)
      fragment_start := hl.fragment_start
      box_block := hl.box_block
      bytes := Nat.le_trans hl.bytes ?_ }
  simp only [Heap.occupiedBytes]
  omega

theorem block_not_inFragment (hl : h.Layout) {p : Nat} (h₁ : h.blockStart ≤ p)
    (h₂ : p < h.blockEnd) : h.inFragment p = false := by
  refine Bool.eq_false_iff.mpr fun hin => ?_
  obtain ⟨f, hf, hc⟩ := List.any_eq_true.mp hin
  have hin := contains_iff.mp hc
  have happ := (List.pairwise_append.mp hl.apart).2.2 (h.blockStart, h.blockEnd)
    List.mem_cons_self (f.ptr, f.ptr + f.size)
    (List.mem_map_of_mem (f := fun f => (f.ptr, f.ptr + f.size)) hf)
  rcases happ with h' | h' <;> simp only at h' <;> omega

theorem isActive_of_block {p : Nat} (hp : p ≠ 0) (h₁ : h.blockStart ≤ p) (h₂ : p < h.blockEnd) :
    h.isActive p = true := by
  rw [Heap.isActive, Bool.and_eq_true, Bool.or_eq_true]
  refine ⟨by simpa using hp, .inl (List.any_eq_true.mpr ⟨_, List.mem_cons_self, ?_⟩)⟩
  simp only [Bool.and_eq_true, decide_eq_true_eq]
  exact ⟨h₁, h₂⟩

theorem place_block_layout (hl : h.Layout) {p : Nat} {o : Object} (hp : p ≠ 0)
    (h₁ : h.blockStart ≤ p) (h₂ : p + o.size ≤ h.bumpTop)
    (hbytes : ∑ q ∈ h.blockObjects, h.sizeAt q + o.size ≤ h.occupiedBytes) :
    (h.place p o).Layout := by
  have hsize := o.size_pos
  have hend := hl.bump_le
  have hfrag := block_not_inFragment hl h₁ (by omega)
  refine place_layout hl (isActive_of_block hp h₁ (by omega)) (.inl (by omega)) (fun f hf hc => ?_)
    (fun _ _ => hfrag) ?_
  · have hin : h.inFragment p = true := List.any_eq_true.mpr ⟨f, hf, hc⟩
    exact absurd (hfrag.symm.trans hin) Bool.false_ne_true
  · rw [if_neg (by simp [hfrag])]
    exact hbytes

theorem alloc_layout (hl : h.Layout) {block : Nat} {o : Object} (hf : h.FreshFor block o) :
    (h.alloc block o).2.Layout := by
  have hsize := o.size_pos
  have hpos := hl.start_pos
  unfold Heap.alloc
  split
  · next hbig =>
    have hfresh := hf.1 hbig
    have hnew : (⟨block, o.size, false⟩ : Fragment).contains block = true :=
      contains_iff.mpr ⟨Nat.le_refl _, Nat.lt_add_of_pos_right hsize⟩
    have hlay := fragment_layout hl hfresh
    refine place_layout hlay ?_ ?_ (fun f hfm hc => ?_) (fun word ho => ?_) ?_
    · rw [Heap.isActive, Bool.and_eq_true, Bool.or_eq_true]
      refine ⟨by have := hfresh.pos; simp; omega, .inr ?_⟩
      exact List.any_eq_true.mpr ⟨_, List.mem_append_right _ List.mem_cons_self, hnew⟩
    · have happ := hfresh.apart (h.blockStart, h.blockEnd)
        (List.mem_append_left _ List.mem_cons_self)
      have h₁ := hl.start_le
      have h₂ := hl.bump_le
      show block < h.bumpTop ∨ h.blockEnd ≤ block
      rcases happ with h' | h' <;> simp only at h' <;> omega
    · rcases List.mem_append.mp hfm with hfm | hfm
      · have happ := hfresh.apart (f.ptr, f.ptr + f.size) (List.mem_append_right _
          (List.mem_map_of_mem (f := fun f => (f.ptr, f.ptr + f.size)) hfm))
        have hin := contains_iff.mp hc
        rcases happ with h' | h' <;> simp only at h' <;> omega
      · rw [List.mem_singleton.mp hfm]
    · subst ho
      exact absurd hbig (by change ¬ fragmentThreshold < 16; decide)
    · have hin : Heap.inFragment { h with
          fragments := h.fragments ++ [⟨block, o.size, false⟩] } block = true :=
        List.any_eq_true.mpr ⟨_, List.mem_append_right _ List.mem_cons_self, hnew⟩
      rw [if_pos hin]
      exact hlay.bytes
  · next hbig =>
    have hle : o.size ≤ fragmentThreshold := Nat.le_of_not_lt hbig
    split
    · next hfull =>
      have hfresh := hf.2 hle hfull
      obtain ⟨hclass, hfit⟩ := size_le_grown (h := h) hle
      have hlay := grow_layout hl hfresh hclass hfit
      refine place_block_layout hlay (Nat.ne_of_gt hfresh.pos) (Nat.le_refl block)
        (Nat.le_refl (block + o.size)) ?_
      have hocc := occupiedBytes_grow hl block o.size (h.grownClass o.size)
      have hbytes := hl.bytes
      change ∑ q ∈ h.blockObjects, h.sizeAt q + o.size ≤ _
      omega
    · next hfull =>
      have hstart := hl.start_le
      have hlay := bump_layout hl (Nat.le_of_not_lt hfull)
      refine place_block_layout hlay (by omega) hstart (Nat.le_refl (h.bumpTop + o.size)) ?_
      have hbytes := hl.bytes
      change ∑ q ∈ h.blockObjects, h.sizeAt q + o.size ≤ _
      simp only [Heap.occupiedBytes] at hbytes ⊢
      omega

/-- Both objects are boxed scalars, or neither is. -/
def Object.sameBoxing : Object → Object → Bool
  | .scalar _, .scalar _ => true
  | .scalar _, _ | _, .scalar _ => false
  | _, _ => true

theorem write_layout (hl : h.Layout) {p : Nat} {o o' : Object} (hp : h.memory p = some o)
    (hsize : o'.size = o.size) (hkind : o'.sameBoxing o) :
    Heap.Layout { h with memory := Function.update h.memory p (some o') } := by
  have hmem {q : Nat} {o₁ : Object} (hq : Function.update h.memory p (some o') q = some o₁) :
      ∃ o₂, h.memory q = some o₂ ∧ (∀ word, o₁ = .scalar word → ∃ word', o₂ = .scalar word') := by
    by_cases hqp : q = p
    · subst hqp
      rw [Function.update_self] at hq
      cases hq
      refine ⟨o, hp, fun word hw => ?_⟩
      subst hw
      cases o with
      | scalar word' => exact ⟨word', rfl⟩
      | _ => exact absurd hkind Bool.false_ne_true
    · rw [Function.update_of_ne hqp] at hq
      exact ⟨o₁, hq, fun word hw => ⟨word, hw⟩⟩
  have hsame (q : Nat) : Heap.sizeAt { h with memory := Function.update h.memory p (some o') } q =
      h.sizeAt q := by
    by_cases hqp : q = p
    · subst hqp
      show (Function.update h.memory q _ q).elim 0 Object.size = _
      rw [Function.update_self, Option.elim_some, hsize, sizeAt_of_memory hp]
    · show (Function.update h.memory p _ q).elim 0 Object.size = _
      rw [Function.update_of_ne hqp]
      rfl
  refine
    { start_pos := hl.start_pos
      start_le := hl.start_le
      bump_le := hl.bump_le
      sizeClass_le := hl.sizeClass_le
      apart := hl.apart
      mem_objects := fun q o₁ hq => ?_
      active := fun q o₁ hq => ?_
      unused := fun q o₁ hq => ?_
      fragment_start := fun f hf q o₁ hq hc => ?_
      box_block := fun q word hq => ?_
      bytes := ?_ }
  · obtain ⟨o₂, ho₂, -⟩ := hmem hq
    exact hl.mem_objects q o₂ ho₂
  · obtain ⟨o₂, ho₂, -⟩ := hmem hq
    exact hl.active q o₂ ho₂
  · obtain ⟨o₂, ho₂, -⟩ := hmem hq
    exact hl.unused q o₂ ho₂
  · obtain ⟨o₂, ho₂, -⟩ := hmem hq
    exact hl.fragment_start f hf q o₂ ho₂ hc
  · obtain ⟨o₂, ho₂, hscalar⟩ := hmem hq
    obtain ⟨word', rfl⟩ := hscalar word rfl
    exact hl.box_block q word' ho₂
  · rw [Finset.sum_congr rfl fun q _ => hsame q]
    exact hl.bytes

theorem gc_layout (hl : h.Layout) {toStart : Nat} {roots roots' : Roots} {h' : Heap}
    (hf : h.Fresh toStart (classSize h.toSpaceClass))
    (hgc : h.gc toStart roots = .ok (h', roots')) : h'.Layout := by
  obtain ⟨s, sweep, hcopy, hsweep, rfl⟩ := gc_eq_ok hgc
  obtain ⟨i, hi, ht⟩ := (copyLive_capacity hl hf).ok hcopy
  exact install_layout hl hf hi ht (toSpaceClass_le h) (msoSweep_relinked hsweep)

end Keep

/-! ## Roots keep boxes of their own -/

section OwnBoxes

variable {h : Heap} {toStart : Nat} {roots : Roots} {s : GcState}

/-- Roots that refer to a scalar off the heap stay as they are, so to-space is not there. -/
def Roots.OffHeap (h : Heap) (roots : Roots) (start size : Nat) : Prop :=
  ∀ slot ∈ roots.refs.filterMap AnyValueRef.slot?, h.isActive slot = false →
    ¬ (start ≤ slot ∧ slot < start + size)

theorem forward_free_le (env : GcEnv) (kind : ValueKind) (p : Nat) :
    wp (cheneyForwardObject env kind p) (fun _ s' => s.free ≤ s'.free) (fun _ => True) s := by
  have hout := forwardOutcome env kind p s
  unfold wp
  generalize cheneyForwardObject env kind p s = result at hout
  cases hout with
  | known | mark | seen => exact Nat.le_refl s.free
  | copy => exact Nat.le_add_right s.free _
  | full | missing | mistyped | unread => trivial

theorem box_free (env : GcEnv) (p : Nat) :
    wp (copyScalarBoxToSpace env p) (fun d s' => d = s.free ∧ s'.free = s.free + 16)
      (fun _ => True) s := by
  have hout := boxOutcome env p s
  unfold wp
  generalize copyScalarBoxToSpace env p s = result at hout
  cases hout with
  | copy => exact ⟨rfl, rfl⟩
  | full | missing => trivial

/-- Where the box of a root is after the root was forwarded: a new one, or where it was. -/
def BoxFrom (h : Heap) (s s' : GcState) (before : List Nat) (slot : Nat) : Prop :=
  (s.free ≤ slot ∧ slot < s'.free) ∨ (slot ∈ before ∧ h.isActive slot = false)

theorem forwardRef_slot (hl : h.Layout) (hf : h.Fresh toStart (classSize h.toSpaceClass))
    {r : AnyValueRef} {n : Nat} (hi : Inv h toStart roots (n + h.boxCount [r]) 0 none s)
    (hheap : ∀ kind p, r = .heap kind p → h.isActive p → Live h roots kind p) :
    wp (forwardAnyValueRefRoot (h.toEnv toStart) r)
      (fun r' s' => Inv h toStart roots n 0 none s' ∧ s.free ≤ s'.free ∧
        ∀ slot, r'.slot? = some slot → BoxFrom h s s' r.slot?.toList slot) (fun _ => True) s := by
  have hactive (p : Nat) : isActiveFromSpaceObject (h.toEnv toStart) p s.fragments =
      h.isActive p := isActive_eq rfl hi.fragments p
  cases r with
  | null | emptyList => exact ⟨hi, Nat.le_refl _, by rintro _ ⟨⟩⟩
  | heap kind p =>
    simp only [forwardAnyValueRefRoot, wp_bind, wp_get]
    rw [hactive]
    cases ha : h.isActive p with
    | false => exact ⟨hi, Nat.le_refl _, by rintro _ ⟨⟩⟩
    | true =>
      rw [if_pos rfl]
      simp only [wp_bind, wp_pure]
      refine (((hi.forward hl hf (hheap kind p rfl ha)).mono (fun _ _ h' => h')
        fun _ _ => trivial).and
        (forward_free_le _ kind p)).imp ?_
      rintro d s' ⟨hi', hfree⟩
      exact ⟨hi', hfree, by rintro _ ⟨⟩⟩
  | scalar kind slot =>
    have hcount : h.boxCount [.scalar kind slot] = (h.isBox slot).toNat := by
      cases hb : h.isBox slot <;> simp [Heap.boxCount, AnyValueRef.slot?, hb]
    rw [hcount] at hi
    simp only [forwardAnyValueRefRoot, wp_bind, wp_get]
    rw [hactive]
    cases ha : h.isActive slot with
    | false =>
      have hb : h.isBox slot = false := by simp [Heap.isBox, ha]
      rw [hb] at hi
      refine ⟨hi, Nat.le_refl _, fun slot' hs => .inr ?_⟩
      cases hs
      exact ⟨List.mem_cons_self, ha⟩
    | true =>
      rw [if_pos rfl]
      simp only [wp_bind, wp_pure]
      refine (((hi.boxRoot hl hf ha).mono (fun _ _ h' => h') fun _ _ => trivial).and
        (box_free _ slot)).imp ?_
      rintro d s' ⟨hi', hd, hfree⟩
      refine ⟨hi', by omega, fun slot' hs => ?_⟩
      cases hs
      exact .inl ⟨by omega, by omega⟩

theorem forwardRefs_slots (hl : h.Layout) (hf : h.Fresh toStart (classSize h.toSpaceClass))
    {rs : List AnyValueRef} {n : Nat} (hi : Inv h toStart roots (n + h.boxCount rs) 0 none s)
    (hheap : ∀ kind p, .heap kind p ∈ rs → h.isActive p → Live h roots kind p)
    (hown : (rs.filterMap AnyValueRef.slot?).Nodup)
    (hoff : ∀ slot ∈ rs.filterMap AnyValueRef.slot?, h.isActive slot = false →
      ¬ (toStart ≤ slot ∧ slot < toStart + classSize h.toSpaceClass)) :
    wp (forwardRefs (h.toEnv toStart) rs)
      (fun rs' s' => Inv h toStart roots n 0 none s' ∧ (rs'.filterMap AnyValueRef.slot?).Nodup ∧
        s.free ≤ s'.free ∧ ∀ slot ∈ rs'.filterMap AnyValueRef.slot?,
          BoxFrom h s s' (rs.filterMap AnyValueRef.slot?) slot) (fun _ => True) s := by
  induction rs generalizing s with
  | nil => exact ⟨hi, List.nodup_nil, Nat.le_refl _, by rintro _ ⟨⟩⟩
  | cons r rs ih =>
    have hcount : h.boxCount (r :: rs) = h.boxCount rs + h.boxCount [r] := by
      rw [Heap.boxCount, ← List.singleton_append, List.filterMap_append, List.filter_append,
        List.length_append, Nat.add_comm]
      rfl
    have hsplit : (r :: rs).filterMap AnyValueRef.slot? =
        r.slot?.toList ++ rs.filterMap AnyValueRef.slot? := by
      cases hr : r.slot? with
      | none => simp [hr]
      | some slot => simp [hr]
    rw [hcount, ← Nat.add_assoc] at hi
    rw [hsplit] at hown hoff
    simp only [forwardRefs, wp_bind, wp_pure]
    refine (forwardRef_slot hl hf hi fun kind p hr => hheap kind p (hr ▸ List.mem_cons_self)).imp
      ?_
    rintro r' s₁ ⟨hi₁, hfree₁, hslot⟩
    refine (ih hi₁ (fun kind p hp => hheap kind p (List.mem_cons_of_mem _ hp))
      (List.nodup_append.mp hown).2.1 fun slot hs => hoff slot (List.mem_append_right _ hs)).imp
      ?_
    rintro rs' s₂ ⟨hi₂, hnodup, hfree₂, hslots⟩
    have hstart := hi.start_le_free
    have hend := hi₁.free_le
    have hend₂ := hi₂.free_le
    refine ⟨hi₂, ?_, by omega, fun slot hs => ?_⟩
    · cases hr' : r'.slot? with
      | none =>
        rw [List.filterMap_cons, hr']
        exact hnodup
      | some slot =>
        rw [List.filterMap_cons, hr']
        refine List.nodup_cons.mpr ⟨fun hin => ?_, hnodup⟩
        -- A new box is below all later ones, and a box off the heap is not in to-space.
        rcases hslot slot hr' with h₁ | ⟨h₁, ha⟩
        · rcases hslots slot hin with h₂ | ⟨h₂, ha⟩
          · omega
          · exact hoff slot (List.mem_append_right _ h₂) ha (by omega)
        · rcases hslots slot hin with h₂ | ⟨h₂, -⟩
          · exact hoff slot (List.mem_append_left _ h₁) ha (by omega)
          · exact (List.nodup_append.mp hown).2.2 slot h₁ slot h₂ rfl
    · rw [hsplit]
      rw [List.filterMap_cons] at hs
      have hrest (hs : slot ∈ rs'.filterMap AnyValueRef.slot?) :
          BoxFrom h s s₂ (r.slot?.toList ++ rs.filterMap AnyValueRef.slot?) slot := by
        rcases hslots slot hs with h₂ | ⟨h₂, ha⟩
        · exact .inl (by omega)
        · exact .inr ⟨List.mem_append_right _ h₂, ha⟩
      cases hr' : r'.slot? with
      | none =>
        rw [hr'] at hs
        exact hrest hs
      | some slot' =>
        rw [hr'] at hs
        rcases List.mem_cons.mp hs with rfl | hs
        · rcases hslot slot hr' with h₁ | ⟨h₁, ha⟩
          · exact .inl (by omega)
          · exact .inr ⟨List.mem_append_left _ h₁, ha⟩
        · exact hrest hs

theorem gc_ownBoxes (hl : h.Layout) (hf : h.Fresh toStart (classSize h.toSpaceClass))
    (hown : roots.OwnBoxes) (hoff : roots.OffHeap h toStart (classSize h.toSpaceClass))
    {h' : Heap} {roots' : Roots} (hgc : h.gc toStart roots = .ok (h', roots')) :
    roots'.OwnBoxes := by
  obtain ⟨s, sweep, hcopy, -⟩ := gc_eq_ok hgc
  obtain ⟨hprimary, hvalues, hrefs⟩ := live_of_roots h roots
  have F := (toSpace_keeps roots hl hf).forwarding hl hf (h.boxRoots roots).length 0 none
  suffices hwp : wp (h.copyLive toStart roots) (fun r _ => r.OwnBoxes) (fun _ => True)
      (h.startState toStart) from hwp.ok hcopy
  simp only [Heap.copyLive, forwardRoots, wp_bind, wp_pure]
  refine ((F.heapValue ⟨inv_start hf, toSpace_start⟩ hprimary).mono ?_ fun _ _ => trivial)
  rintro primary' s₁ ⟨hs₁, -⟩
  refine ((F.all hs₁ hvalues).mono ?_ fun _ _ => trivial)
  rintro values' s₂ ⟨⟨hs₂, -⟩, -⟩
  have hs₂' : Inv h toStart roots (0 + h.boxCount roots.refs) 0 none s₂ := by
    rw [Nat.zero_add]
    exact hs₂
  refine (forwardRefs_slots hl hf hs₂' hrefs hown hoff).imp fun refs' s₃ ⟨_, hnodup, _⟩ => ?_
  unfold wp
  split
  · exact hnodup
  · trivial

end OwnBoxes

/-! ## Runs -/

/-- What happens to a heap and the roots into it. -/
inductive HeapOp where
  | alloc (block : Nat) (o : Object)
  /-- An object is changed in place. -/
  | write (p : Nat) (o : Object)
  | setRoots (roots : Roots)
  | collect (toStart : Nat)

def HeapOp.step : Heap × Roots → HeapOp → Option ((Heap × Roots) × List Unit)
  | (h, roots), .alloc block o => some (((h.alloc block o).2, roots), [])
  | (h, roots), .write p o =>
    some (({ h with memory := Function.update h.memory p (some o) }, roots), [])
  | (h, _), .setRoots roots => some ((h, roots), [])
  | (h, roots), .collect toStart => (h.gc toStart roots).toOption.map fun r => (r, [])

/-- The allocator hands out memory that is free, an object changed in place keeps its size, and
roots have boxes of their own. -/
def HeapOp.Allowed : Heap × Roots → HeapOp → Prop
  | (h, _), .alloc block o => h.FreshFor block o
  | (h, _), .write p o => ∃ o₀ ∈ h.memory p, o.size = o₀.size ∧ o.sameBoxing o₀
  | _, .setRoots roots => roots.OwnBoxes
  | (h, roots), .collect toStart =>
    h.Fresh toStart (classSize h.toSpaceClass) ∧ roots.OffHeap h toStart (classSize h.toSpaceClass)

theorem run_layout {capacity block : Nat} (hpos : 0 < block) {roots : Roots} (hown : roots.OwnBoxes)
    {ops : List HeapOp} {events : List Unit} {state : Heap × Roots}
    (hrun : Run HeapOp.step HeapOp.Allowed (Heap.new capacity block, roots) ops events state) :
    state.1.Layout ∧ state.2.OwnBoxes := by
  refine hrun.inv (I := fun state => state.1.Layout ∧ state.2.OwnBoxes)
    ⟨new_layout capacity hpos, hown⟩ fun state op state' events hstate hok hstep => ?_
  obtain ⟨h, roots⟩ := state
  obtain ⟨hl, hown⟩ := hstate
  cases op with
  | alloc block o =>
    cases hstep
    exact ⟨alloc_layout hl hok, hown⟩
  | write p o =>
    obtain ⟨o₀, hp, hsize, hkind⟩ := hok
    cases hstep
    exact ⟨write_layout hl hp hsize hkind, hown⟩
  | setRoots roots' =>
    cases hstep
    exact ⟨hl, hok⟩
  | collect toStart =>
    obtain ⟨⟨h', roots'⟩, hgc, hret⟩ := Option.map_eq_some_iff.mp hstep
    cases hret
    have hgc' : h.gc toStart roots = .ok (h', roots') := by
      cases hres : h.gc toStart roots with
      | ok r =>
        rw [hres] at hgc
        cases hgc
        rfl
      | error e =>
        rw [hres] at hgc
        cases hgc
    exact ⟨gc_layout hl hok.1 hgc', gc_ownBoxes hl hok.1 hown hok.2 hgc'⟩

/-- The data that a collection copies fits to-space, and the collection does not run out of it. -/
def Heap.ToSpaceSuffices (h : Heap) (roots : Roots) : Prop :=
  h.liveBytes roots ≤ classSize h.toSpaceClass ∧
    ∀ toStart, h.Fresh toStart (classSize h.toSpaceClass) →
      h.gc toStart roots ≠ .error .toSpaceExhausted

instance (r q : Nat × Nat) : Decidable (Apart r q) := inferInstanceAs (Decidable (_ ∨ _))

instance (h : Heap) (start size : Nat) : Decidable (h.Fresh start size) :=
  decidable_of_iff (0 < start ∧ 16 ∣ start ∧ ∀ r ∈ h.ranges, Apart r (start, start + size))
    ⟨fun ⟨h₁, h₂, h₃⟩ => ⟨h₁, h₂, h₃⟩, fun ⟨h₁, h₂, h₃⟩ => ⟨h₁, h₂, h₃⟩⟩

instance (h : Heap) (block : Nat) (o : Object) : Decidable (h.FreshFor block o) :=
  inferInstanceAs (Decidable (_ ∧ _))

instance (roots : Roots) : Decidable roots.OwnBoxes := inferInstanceAs (Decidable (List.Nodup _))

instance (h : Heap) (roots : Roots) (start size : Nat) :
    Decidable (roots.OffHeap h start size) := inferInstanceAs (Decidable (∀ _ ∈ _, _ → ¬ _))

instance : (state : Heap × Roots) → (op : HeapOp) → Decidable (HeapOp.Allowed state op)
  | (h, _), .alloc block o => inferInstanceAs (Decidable (h.FreshFor block o))
  | (h, _), .write p o =>
    inferInstanceAs (Decidable (∃ o₀ ∈ h.memory p, o.size = o₀.size ∧ o.sameBoxing o₀ = true))
  | _, .setRoots roots => inferInstanceAs (Decidable roots.OwnBoxes)
  | (_, _), .collect _ => inferInstanceAs (Decidable (_ ∧ _))

/-- Nothing but some values are roots. -/
def valueRoots (values : List AnyValue) : Roots := ⟨.null, values, []⟩

/-- A tuple of `n` zeroes. -/
def zeroes (n : Nat) : Object := .struct n (List.replicate n (.value (.int 0)))

/-- A cell that stays alive, garbage that makes the heap grow twice, and then a live tuple. -/
def shrinkOps : List HeapOp :=
  [.alloc 0 (.cons (.int 1) 0 false), .setRoots (valueRoots [.heapRef .list 65536]),
    .alloc 0 (zeroes 64), .collect 131072, .alloc 0 (zeroes 88), .collect 196608,
    .alloc 0 (zeroes 122),
    .setRoots (valueRoots [.heapRef .list 196608, .heapRef .struct 196624])]

def isExhausted : Except GcStop (Heap × Roots) → Bool
  | .error .toSpaceExhausted => true
  | _ => false

end Fz.Gc
