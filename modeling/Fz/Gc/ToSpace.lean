import Fz.Base.Except
import Fz.Gc.Cheney

/-!
# The heap after a collection

To-space holds the copies and nothing else, and together they take no more than what has been
handed out of it (`ToSpace`).  The sweep of the chain of stubs rewrites links and nothing else, so
the heap that a collection installs is laid out as a heap should be (`gc_layout`).
-/

namespace Fz.Gc

open Fz.Base
open Fz.Terms (ValueKind AnyValue FieldSlot)

/-! ## Sizes and links -/

theorem length_slotBytes_value (v : AnyValue) : (slotBytes (.value v)).length = 8 := by
  rw [slotBytes, leBytes, List.length_map, List.length_range]

variable {V : AnyValue → AnyValue → Prop}

theorem SlotLike.bytes {slot slot' : FieldSlot}
    (hs : SlotLike V slot slot') : (slotBytes slot').length = (slotBytes slot).length ∧
      (slotValue? slot').isSome = (slotValue? slot).isSome := by
  cases slot with
  | value v =>
    cases slot' with
    | value v' => exact ⟨by rw [length_slotBytes_value, length_slotBytes_value], rfl⟩
    | rawI64 | rawF64 | rawBytes => exact absurd hs id
  | rawI64 | rawF64 | rawBytes =>
    cases hs
    exact ⟨rfl, rfl⟩

theorem allocationPayloadSize_like
    {slots slots' : List FieldSlot} (hs : List.Forall₂ (SlotLike V) slots slots') :
    Object.allocationPayloadSize slots' = Object.allocationPayloadSize slots := by
  have hlen (slots : List FieldSlot) : (slots.filterMap slotValue?).length =
      (slots.map fun slot => (slotValue? slot).isSome.toNat).sum := by
    induction slots with
    | nil => rfl
    | cons slot slots ih =>
      rw [List.filterMap_cons, List.map_cons, List.sum_cons, ← ih]
      cases slotValue? slot with
      | none => simp
      | some v => simp [Nat.add_comm]
  have hmap : slots'.map (fun slot => (slotBytes slot).length) =
        slots.map (fun slot => (slotBytes slot).length) ∧
      slots'.map (fun slot => (slotValue? slot).isSome.toNat) =
        slots.map (fun slot => (slotValue? slot).isSome.toNat) := by
    induction hs with
    | nil => exact ⟨rfl, rfl⟩
    | cons hslot _ ih =>
      simp only [List.map_cons, hslot.bytes, ih, and_self]
  rw [Object.allocationPayloadSize, Object.allocationPayloadSize, hlen, hlen, hmap.1, hmap.2]

theorem Object.Like.size_eq {o o' : Object} (ho : o.Like V o') : o'.size = o.size := by
  cases o with
  | cons | procbin | resource | scalar => cases o' <;> first | exact absurd ho id | rfl
  | map =>
    cases o' with
    | map => rw [Object.size, Object.size, List.Forall₂.length_eq ho]
    | _ => exact absurd ho id
  | struct =>
    cases o' with
    | struct => rw [Object.size, Object.size, allocationPayloadSize_like ho.2]
    | _ => exact absurd ho id
  | closure =>
    cases o' with
    | closure => rw [Object.size, Object.size, List.Forall₂.length_eq ho.2]
    | _ => exact absurd ho id
  | bitstring =>
    cases o' with
    | bitstring => rw [Object.size, Object.size, ho.1]
    | _ => exact absurd ho id

section Links

variable (next : Nat) (o : Object)

@[simp] theorem size_setMsoNext : (o.setMsoNext next).size = o.size := by cases o <;> rfl

@[simp] theorem setMsoNext_setMsoNext (next' : Nat) :
    (o.setMsoNext next).setMsoNext next' = o.setMsoNext next' := by cases o <;> rfl

theorem Object.Like.setMsoNext {V : AnyValue → AnyValue → Prop} {o o' : Object}
    (ho : o.Like V o') (next : Nat) : o.Like V (o'.setMsoNext next) := by
  cases o' with
  | procbin | resource => cases o <;> first | exact absurd ho id | exact ho
  | _ => exact ho

end Links

/-! ## Sweeping -/

/-- A cell before and after the sweep: at most the link of a stub has changed. -/
def Relinked (before after : Option Cell) : Prop :=
  after = before ∨ ∃ o next, before = some (.object o) ∧ after = some (.object (o.setMsoNext next))

theorem Relinked.trans {a b c : Option Cell} (h₁ : Relinked a b) (h₂ : Relinked b c) :
    Relinked a c := by
  rcases h₁ with rfl | ⟨o, next, rfl, rfl⟩
  · exact h₂
  · rcases h₂ with rfl | ⟨o', next', ho', rfl⟩
    · exact .inr ⟨o, next, rfl, rfl⟩
    · cases ho'
      exact .inr ⟨o, next', rfl, by rw [setMsoNext_setMsoNext]⟩

theorem relinked_setMsoNextAt (memory : Nat → Option Cell) (p next a : Nat) :
    Relinked (memory a) (setMsoNextAt memory p next a) := by
  unfold setMsoNextAt
  cases hcell : memory p with
  | none => exact .inl rfl
  | some cell =>
    cases cell with
    | forwarded => exact .inl rfl
    | object o =>
      dsimp only
      by_cases ha : a = p
      · subst ha
        rw [Function.update_self]
        exact .inr ⟨o, next, hcell, rfl⟩
      · rw [Function.update_of_ne ha]
        exact .inl rfl

theorem msoSweep_relinked {fuel current : Nat} {sweep sweep' : MsoSweep}
    (h : msoSweep fuel current sweep = .ok sweep') (a : Nat) :
    Relinked (sweep.memory a) (sweep'.memory a) := by
  induction fuel generalizing current sweep with
  | zero => cases h
  | succ fuel ih =>
    unfold msoSweep at h
    split at h
    · cases h
      exact .inl rfl
    · split at h
      · cases h
      · split at h
        · dsimp only at h
          split at h
          · have hrest := ih h
            exact (relinked_setMsoNextAt _ _ _ a).trans hrest
          · have hrest := ih h
            exact hrest
        · cases h

theorem msoSweep_ne_exhausted (fuel current : Nat) (sweep : MsoSweep) :
    msoSweep fuel current sweep ≠ .error .toSpaceExhausted := by
  induction fuel generalizing current sweep with
  | zero => exact nofun
  | succ fuel ih =>
    unfold msoSweep
    split
    · exact nofun
    · split
      · exact nofun
      · split
        · dsimp only
          split
          · exact ih _ _
          · exact ih _ _
        · exact nofun

/-! ## Copies -/

namespace GcState

/-- Where copies have been put. -/
def copies (s : GcState) : List Nat := s.copiedObjects.map CopiedObject.ptr ++ s.copiedBoxes

end GcState

def cellBytes : Option Cell → Nat
  | some (.object o) => o.size
  | _ => 0

structure ToSpace (toStart : Nat) (s : GcState) : Prop where
  within : ∀ a ∈ s.copies, toStart ≤ a ∧ a < s.free
  filled : ∀ a, s.memory a ≠ none → toStart ≤ a → a < s.free → a ∈ s.copies
  bytes : toStart + ∑ a ∈ s.copies.toFinset, cellBytes (s.memory a) ≤ s.free

section ToSpaceSteps

variable {h : Heap} {toStart : Nat} {roots : Roots} {boxes i : Nat}
  {hand : Option (CopiedObject × Object)} {s : GcState}

theorem Inv.memory_free (hl : h.Layout) (hf : h.Fresh toStart (classSize h.toSpaceClass))
    (hi : Inv h toStart roots boxes i hand s) {a : Nat} (ha : s.free ≤ a)
    (hend : a < toStart + classSize h.toSpaceClass) : s.memory a = none := by
  have hstart := hi.start_le_free
  have hpos := hf.pos
  have hinactive : h.isActive a = false :=
    Bool.eq_false_iff.mpr fun hact => hf.not_mem hact (by omega)
  have hmem (o : Object) (ho : h.memory a = some o) : False :=
    Bool.false_ne_true (hinactive.symm.trans (hl.active a o ho))
  cases hcell : s.memory a with
  | none => rfl
  | some cell =>
    exfalso
    cases cell with
    | forwarded d o => exact hmem o (hi.forwarded a d o hcell).2.1
    | object o =>
      refine hmem o (hi.old a o hcell (by omega) (Bool.eq_false_iff.mpr fun hm => ?_))
      have hfrag := inFragment_of_isMarked hi.fragments hm
      have hne : a ≠ 0 := by omega
      rw [Heap.isActive, hfrag, Bool.or_true, Bool.and_true] at hinactive
      exact absurd hne (by simpa using hinactive)

/-- A new copy is filled in at the free pointer and nothing else in to-space changes. -/
theorem ToSpace.extend (hl : h.Layout) (hf : h.Fresh toStart (classSize h.toSpaceClass))
    (hi : Inv h toStart roots boxes i hand s) (ht : ToSpace toStart s) {s' : GcState} {o : Object}
    (hfree : s'.free = s.free + o.size)
    (hfit : s.free + o.size ≤ toStart + classSize h.toSpaceClass)
    (hcopies : ∀ a, a ∈ s'.copies ↔ a = s.free ∨ a ∈ s.copies)
    (hnew : s'.memory s.free = some (.object o))
    (hsame : ∀ a, toStart ≤ a → a < toStart + classSize h.toSpaceClass → a ≠ s.free →
      s'.memory a = s.memory a) : ToSpace toStart s' := by
  have hstart := hi.start_le_free
  have hsize := o.size_pos
  have hle := hi.free_le
  refine ⟨fun a ha => ?_, fun a ha hfrom hto => ?_, ?_⟩
  · rw [hfree]
    rcases (hcopies a).mp ha with rfl | ha
    · omega
    · have := ht.within a ha
      omega
  · rw [hfree] at hto
    refine (hcopies a).mpr ?_
    by_cases hfa : a = s.free
    · exact .inl hfa
    · rw [hsame a hfrom (by omega) hfa] at ha
      refine .inr (ht.filled a ha hfrom (Nat.lt_of_not_le fun hge => ha ?_))
      exact hi.memory_free hl hf hge (by omega)
  · have hset : s'.copies.toFinset = insert s.free s.copies.toFinset := by
      ext a
      rw [Finset.mem_insert, List.mem_toFinset, List.mem_toFinset, hcopies]
    have hnot : s.free ∉ s.copies.toFinset := fun hin => by
      have := ht.within _ (List.mem_toFinset.mp hin)
      omega
    have hsum : ∑ a ∈ s.copies.toFinset, cellBytes (s'.memory a) =
        ∑ a ∈ s.copies.toFinset, cellBytes (s.memory a) := by
      refine Finset.sum_congr rfl fun a ha => ?_
      have := ht.within a (List.mem_toFinset.mp ha)
      rw [hsame a this.1 (by omega) (by omega)]
    rw [hset, Finset.sum_insert hnot, hnew, hsum, hfree]
    have := ht.bytes
    show toStart + (o.size + _) ≤ _
    omega

theorem ToSpace.forward (hl : h.Layout) (hf : h.Fresh toStart (classSize h.toSpaceClass))
    (hi : Inv h toStart roots boxes i hand s) (ht : ToSpace toStart s) {kind : ValueKind} {p : Nat}
    (ha : h.isActive p) :
    wp (cheneyForwardObject (h.toEnv toStart) kind p) (fun _ s' => ToSpace toStart s')
      (fun _ => True) s := by
  have hout := forwardOutcome (h.toEnv toStart) kind p s
  unfold wp
  generalize cheneyForwardObject (h.toEnv toStart) kind p s = result at hout
  cases hout with
  | known | seen => exact ht
  | mark => exact ⟨ht.within, ht.filled, ht.bytes⟩
  | @copy o hc hp hfwd hk hfit =>
    have hinactive := hi.free_fresh hf o.size_pos hfit
    have hne : s.free ≠ p := fun hin =>
      Bool.false_ne_true (hinactive.symm.trans (hin ▸ ha))
    refine ht.extend hl hf hi rfl hfit (fun a => ?_) (copied_memory_free hne) fun a h₁ h₂ h₃ => ?_
    · simp only [GcState.copies, GcState.copied, List.map_append, List.map_cons, List.map_nil,
        List.mem_append, List.mem_singleton]
      exact ⟨by rintro ((h | h) | h) <;> simp [h], by rintro (h | h | h) <;> simp [h]⟩
    · refine copied_memory_ne (fun hap => hf.not_mem ha ?_) h₃
      exact hap ▸ ⟨h₁, h₂⟩
  | full | missing | mistyped | unread => trivial

theorem ToSpace.boxed (hl : h.Layout) (hf : h.Fresh toStart (classSize h.toSpaceClass))
    (hi : Inv h toStart roots boxes i hand s) (ht : ToSpace toStart s) {word : Nat}
    (hfit : s.free + 16 ≤ toStart + classSize h.toSpaceClass) : ToSpace toStart (s.boxed word) := by
  refine ht.extend hl hf hi (o := .scalar word) rfl hfit (fun a => ?_) boxed_memory_free
    fun a _ _ h₃ => boxed_memory_ne h₃
  simp only [GcState.copies, GcState.boxed, List.mem_append, List.mem_singleton]
  exact ⟨by rintro (h | h | h) <;> simp [h], by rintro (h | h | h) <;> simp [h]⟩

theorem ToSpace.put (ht : ToSpace toStart s) {p : Nat} {o o' : Object}
    (hcell : s.memory p = some (.object o)) (hsize : o'.size = o.size) :
    ToSpace toStart (s.put p o') := by
  refine ⟨ht.within, fun a ha => ht.filled a fun hnone => ?_, ?_⟩
  · have hne : a ≠ p := by
      rintro rfl
      rw [hcell] at hnone
      cases hnone
    rw [put_memory_ne hne] at ha
    exact ha hnone
  · have hbytes (a : Nat) : cellBytes ((s.put p o').memory a) = cellBytes (s.memory a) := by
      by_cases ha : a = p
      · subst ha
        rw [put_memory_self, hcell]
        exact hsize
      · rw [put_memory_ne ha]
    show toStart + ∑ a ∈ s.copies.toFinset, cellBytes ((s.put p o').memory a) ≤ s.free
    simp only [hbytes]
    exact ht.bytes

theorem ToSpace.boxRoot (hl : h.Layout) (hf : h.Fresh toStart (classSize h.toSpaceClass))
    (hi : Inv h toStart roots boxes i hand s) (ht : ToSpace toStart s) (slot : Nat) :
    wp (copyScalarBoxToSpace (h.toEnv toStart) slot) (fun _ s' => ToSpace toStart s')
      (fun _ => True) s := by
  have hout := boxOutcome (h.toEnv toStart) slot s
  unfold wp
  generalize copyScalarBoxToSpace (h.toEnv toStart) slot s = result at hout
  cases hout with
  | copy hw hfit => exact ht.boxed hl hf hi hfit
  | full | missing => trivial

end ToSpaceSteps

/-! ## The whole collection -/

section Run

variable {h : Heap} {toStart : Nat} {roots : Roots}

theorem toSpace_keeps (roots : Roots) (hl : h.Layout)
    (hf : h.Fresh toStart (classSize h.toSpaceClass)) :
    Keeps h toStart roots (ToSpace toStart) where
  forward := fun _ _ _ _ _ _ hi ht hlive => ht.forward hl hf hi hlive.active
  box := fun _ _ slot hi ht _ => ht.boxRoot hl hf hi slot
  pop := fun _ ht => ⟨ht.within, ht.filled, ht.bytes⟩
  put := fun _ c o _ _ _ hi ht hlike => ht.put (hi.hand_eq c o rfl) hlike.size_eq

theorem toSpace_start : ToSpace toStart (h.startState toStart) :=
  ⟨nofun, fun _ _ h₁ h₂ => absurd h₁ (Nat.not_le.mpr h₂), Nat.le_refl toStart⟩

theorem copyLive_capacity (hl : h.Layout) (hf : h.Fresh toStart (classSize h.toSpaceClass)) :
    wp (h.copyLive toStart roots)
      (fun _ s' => ∃ i, Inv h toStart roots 0 i none s' ∧ ToSpace toStart s')
      (Capacity h roots) (h.startState toStart) :=
  (toSpace_keeps roots hl hf).copyLive hl hf toSpace_start

theorem gc_eq_ok {h' : Heap} {roots' : Roots} (hgc : h.gc toStart roots = .ok (h', roots')) :
    ∃ s sweep, h.copyLive toStart roots (h.startState toStart) = .ok (roots', s) ∧
      msoSweep (h.objects.length + 1) h.msoHead ⟨0, s.memory, []⟩ = .ok sweep ∧
      h' = h.install toStart s sweep := by
  unfold Heap.gc at hgc
  obtain ⟨⟨r, s⟩, hcopy, hrest⟩ := Except.bind_eq_ok.mp hgc
  obtain ⟨sweep, hsweep, hret⟩ := Except.bind_eq_ok.mp hrest
  cases hret
  exact ⟨s, sweep, hcopy, hsweep, rfl⟩

theorem gc_capacity (hl : h.Layout) (hf : h.Fresh toStart (classSize h.toSpaceClass))
    (hgc : h.gc toStart roots = .error .toSpaceExhausted) :
    classSize h.toSpaceClass < h.liveBytes roots := by
  unfold Heap.gc at hgc
  cases hcopy : h.copyLive toStart roots (h.startState toStart) with
  | error e =>
    rw [hcopy] at hgc
    cases hgc
    exact (copyLive_capacity hl hf).error hcopy rfl
  | ok r =>
    rw [hcopy] at hgc
    obtain ⟨roots', s⟩ := r
    change (msoSweep _ _ _ >>= _) = _ at hgc
    cases hsweep : msoSweep (h.objects.length + 1) h.msoHead ⟨0, s.memory, []⟩ with
    | ok sweep =>
      rw [hsweep] at hgc
      cases hgc
    | error e =>
      rw [hsweep] at hgc
      cases hgc
      exact absurd hsweep (msoSweep_ne_exhausted _ _ _)

end Run

/-! ## Layout of the new heap -/

section Install

variable {h : Heap} {toStart i : Nat} {roots : Roots} {s : GcState} {sweep : MsoSweep}

/-- The fragments a collection keeps. -/
def GcState.kept (s : GcState) : List Fragment := s.fragments.filter Fragment.mark

theorem install_memory {p : Nat} {o : Object} (hsweep : ∀ a, Relinked (s.memory a) (sweep.memory a))
    (hp : (h.install toStart s sweep).memory p = some o) :
    ((toStart ≤ p ∧ p < s.free) ∨ ∃ f ∈ s.kept, f.contains p) ∧
      ∃ o', s.memory p = some (.object o') ∧ (o = o' ∨ ∃ next, o = o'.setMsoNext next) := by
  have hp' : (if (toStart ≤ p ∧ p < s.free) ∨ s.kept.any (·.contains p) then
    (sweep.memory p).bind Heap.cellObject? else none) = some o := hp
  split at hp'
  · next hin =>
    refine ⟨hin.imp id fun h => List.any_eq_true.mp h, ?_⟩
    obtain ⟨cell, hcell, hobj⟩ := Option.bind_eq_some_iff.mp hp'
    cases cell with
    | forwarded => cases hobj
    | object o₁ =>
      cases hobj
      rcases hsweep p with heq | ⟨o₂, next, h₂, h₃⟩
      · exact ⟨o, heq ▸ hcell, .inl rfl⟩
      · rw [hcell] at h₃
        cases h₃
        exact ⟨o₂, h₂, .inr ⟨next, rfl⟩⟩
  · cases hp'

theorem Inv.kept_region (hi : Inv h toStart roots 0 i none s) {f : Fragment} (hf : f ∈ s.kept) :
    ∃ f₀ ∈ h.fragments, f₀.region = f.region := by
  have hmem : f.region ∈ s.fragments.map Fragment.region :=
    List.mem_map_of_mem (List.mem_filter.mp hf).1
  rw [hi.fragments] at hmem
  exact List.mem_map.mp hmem

theorem Inv.kept_apart (hf : h.Fresh toStart (classSize h.toSpaceClass))
    (hi : Inv h toStart roots 0 i none s) {f : Fragment} (hk : f ∈ s.kept) :
    f.ptr + f.size ≤ toStart ∨ toStart + classSize h.toSpaceClass ≤ f.ptr := by
  obtain ⟨f₀, hf₀, hreg⟩ := hi.kept_region hk
  obtain ⟨hptr, hsize⟩ := Prod.mk.inj hreg
  rw [← hptr, ← hsize]
  exact hf.apart (f₀.ptr, f₀.ptr + f₀.size)
    (List.mem_append_right _ (List.mem_map_of_mem (f := fun f => (f.ptr, f.ptr + f.size)) hf₀))

theorem contains_iff {f : Fragment} {p : Nat} :
    f.contains p = true ↔ f.ptr ≤ p ∧ p < f.ptr + f.size := by
  simp [Fragment.contains]

theorem Inv.kept_start (hl : h.Layout) (hf : h.Fresh toStart (classSize h.toSpaceClass))
    (hi : Inv h toStart roots 0 i none s) {f : Fragment} (hk : f ∈ s.kept) {p : Nat}
    (hc : f.contains p = true) (hp : s.memory p ≠ none) : p = f.ptr := by
  have happ := hi.kept_apart hf hk
  have hin := contains_iff.mp hc
  have hle := hi.free_le
  obtain ⟨f₀, hf₀, hreg⟩ := hi.kept_region hk
  cases hmem : h.memory p with
  | none => exact absurd hmem (hi.domain p hp (by omega))
  | some o =>
    have hstart := hl.fragment_start f₀ hf₀ p o hmem (by rw [contains_congr hreg, hc])
    rw [hstart, (Prod.mk.inj hreg).1]

theorem kept_ranges_apart (hl : h.Layout) (hi : Inv h toStart roots 0 i none s) :
    (s.kept.map fun f => (f.ptr, f.ptr + f.size)).Pairwise Apart := by
  have hreg : s.fragments.map (fun f => (f.ptr, f.ptr + f.size)) =
      h.fragments.map (fun f => (f.ptr, f.ptr + f.size)) := by
    have := congrArg (List.map fun r : Nat × Nat => (r.1, r.1 + r.2)) hi.fragments
    simpa [Function.comp_def, Fragment.region] using this
  have hall : (s.fragments.map fun f => (f.ptr, f.ptr + f.size)).Pairwise Apart := by
    rw [hreg]
    exact (List.pairwise_append.mp hl.apart).2.1
  exact hall.sublist (List.filter_sublist.map _)

theorem isActive_install (hi : Inv h toStart roots 0 i none s) {p : Nat} (hp0 : p ≠ 0)
    (hp : (toStart ≤ p ∧ p < s.free) ∨ ∃ f ∈ s.kept, f.contains p) :
    (h.install toStart s sweep).isActive p = true := by
  have hle := hi.free_le
  rw [Heap.isActive, Bool.and_eq_true, decide_eq_true_eq, Bool.or_eq_true]
  refine ⟨hp0, ?_⟩
  rcases hp with hin | ⟨f, hk, hc⟩
  · refine .inl (List.any_eq_true.mpr ⟨_, List.mem_cons_self, ?_⟩)
    show (decide (toStart ≤ p) && decide (p < toStart + classSize h.toSpaceClass)) = true
    simp only [Bool.and_eq_true, decide_eq_true_eq]
    omega
  · exact .inr (List.any_eq_true.mpr ⟨{ f with mark := false }, List.mem_map_of_mem hk, hc⟩)

theorem inFragment_install {p : Nat} :
    (h.install toStart s sweep).inFragment p = s.kept.any (·.contains p) := by
  show ((s.kept.map fun f => { f with mark := false }).any (·.contains p)) = _
  rw [List.any_map]
  rfl

theorem install_layout (hl : h.Layout) (hf : h.Fresh toStart (classSize h.toSpaceClass))
    (hi : Inv h toStart roots 0 i none s) (ht : ToSpace toStart s)
    (hclass : h.toSpaceClass ≤ lastClass) (hsweep : ∀ a, Relinked (s.memory a) (sweep.memory a)) :
    (h.install toStart s sweep).Layout := by
  have hle := hi.free_le
  have hstart := hi.start_le_free
  have hpos := hf.pos
  refine
    { start_pos := hpos
      start_le := hstart
      bump_le := hle
      sizeClass_le := hclass
      apart := ?_
      mem_objects := fun p o hp => ?_
      active := fun p o hp => ?_
      unused := fun p o hp => ?_
      fragment_start := fun f hfm p o hp hc => ?_
      box_block := fun p word hp => ?_
      bytes := ?_ }
  · show ((toStart, toStart + classSize h.toSpaceClass) ::
      (s.kept.map fun f => { f with mark := false }).map
        fun f => (f.ptr, f.ptr + f.size)).Pairwise Apart
    rw [List.map_map]
    refine List.pairwise_cons.mpr ⟨fun r hr => ?_, kept_ranges_apart hl hi⟩
    obtain ⟨f, hk, rfl⟩ := List.mem_map.mp hr
    exact (hi.kept_apart hf hk).symm
  · show p ∈ s.copies ++ s.kept.map Fragment.ptr
    obtain ⟨hin, o', ho', -⟩ := install_memory hsweep hp
    have hne : s.memory p ≠ none := by simp [ho']
    rcases hin with hin | ⟨f, hk, hc⟩
    · exact List.mem_append_left _ (ht.filled p hne hin.1 hin.2)
    · rw [hi.kept_start hl hf hk hc hne]
      exact List.mem_append_right _ (List.mem_map_of_mem hk)
  · obtain ⟨hin, o', ho', -⟩ := install_memory hsweep hp
    refine isActive_install hi ?_ hin
    rcases hin with hin | ⟨f, hk, hc⟩
    · omega
    · have hne : s.memory p ≠ none := by simp [ho']
      have happ := hi.kept_apart hf hk
      have hcp := contains_iff.mp hc
      cases hmem : h.memory p with
      | none => exact absurd hmem (hi.domain p hne (by omega))
      | some o₀ => exact (mem_ranges_of_active (hl.active p o₀ hmem)).1
  · show p < s.free ∨ toStart + classSize h.toSpaceClass ≤ p
    obtain ⟨hin, -⟩ := install_memory hsweep hp
    rcases hin with hin | ⟨f, hk, hc⟩
    · exact .inl hin.2
    · have happ := hi.kept_apart hf hk
      have hcp := contains_iff.mp hc
      omega
  · obtain ⟨_, hk, rfl⟩ := List.mem_map.mp hfm
    obtain ⟨-, o', ho', -⟩ := install_memory hsweep hp
    exact hi.kept_start hl hf hk hc (by simp [ho'])
  · rw [inFragment_install]
    refine Bool.eq_false_iff.mpr fun hin => ?_
    obtain ⟨f, hk, hc⟩ := List.any_eq_true.mp hin
    have happ := hi.kept_apart hf hk
    have hcp := contains_iff.mp hc
    obtain ⟨-, o', ho', hsame⟩ := install_memory hsweep hp
    have hscalar : o' = .scalar word := by
      rcases hsame with rfl | ⟨next, hnext⟩
      · rfl
      · cases o' with
        | scalar => exact hnext.symm
        | _ => cases hnext
    have hmem := hi.scalars p word (hscalar ▸ ho') (by omega)
    obtain ⟨f₀, hf₀, hreg⟩ := hi.kept_region hk
    have hfrag : h.inFragment p = true :=
      List.any_eq_true.mpr ⟨f₀, hf₀, by rw [contains_congr hreg, hc]⟩
    exact Bool.false_ne_true ((hl.box_block p word hmem).symm.trans hfrag)
  · have hsize (p : Nat) : (h.install toStart s sweep).sizeAt p ≤ cellBytes (s.memory p) := by
      cases hp : (h.install toStart s sweep).memory p with
      | none => rw [Heap.sizeAt, hp]; exact Nat.zero_le _
      | some o =>
        obtain ⟨-, o', ho', hsame⟩ := install_memory hsweep hp
        have hsz : o.size = o'.size := by
          rcases hsame with rfl | ⟨next, rfl⟩
          · rfl
          · exact size_setMsoNext next o'
        rw [sizeAt_of_memory hp, ho', hsz]
        exact Nat.le_refl _
    calc ∑ p ∈ (h.install toStart s sweep).blockObjects, (h.install toStart s sweep).sizeAt p
        ≤ ∑ p ∈ s.copies.toFinset, (h.install toStart s sweep).sizeAt p := by
          refine Finset.sum_le_sum_of_ne_zero fun p hp hne => List.mem_toFinset.mpr ?_
          have hfrag := (Finset.mem_filter.mp hp).2
          rw [inFragment_install] at hfrag
          cases hmem : (h.install toStart s sweep).memory p with
          | none => exact absurd (by rw [Heap.sizeAt, hmem]; rfl) hne
          | some o =>
            obtain ⟨hin, o', ho', -⟩ := install_memory hsweep hmem
            rcases hin with hin | ⟨f, hk, hc⟩
            · exact ht.filled p (by simp [ho']) hin.1 hin.2
            · have : s.kept.any (·.contains p) = true := List.any_eq_true.mpr ⟨f, hk, hc⟩
              rw [this] at hfrag
              exact absurd hfrag (by simp)
      _ ≤ ∑ p ∈ s.copies.toFinset, cellBytes (s.memory p) := Finset.sum_le_sum fun p _ => hsize p
      _ ≤ (h.install toStart s sweep).occupiedBytes := by
          show _ ≤ (s.free - toStart) + 0
          have := ht.bytes
          omega

end Install

end Fz.Gc
