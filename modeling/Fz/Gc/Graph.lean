import Fz.Gc.Marks

/-!
# The object graph during a collection

`Image` relates an object to what stands for it: its copy, or itself when its fragment is marked.
`Graph` is the invariant of Cheney's algorithm over it.  Images are one to one.  An image that is
still queued holds the object as it was, and one that has been traced holds it with every value in
its new place.
-/

namespace Fz.Gc

open Fz.Base
open Fz.Terms (ValueKind AnyValue)

/-- What stands for an object. -/
def Image (h : Heap) (s : GcState) (a d : Nat) : Prop :=
  (∃ o, s.memory a = some (.forwarded d o)) ∨ (d = a ∧ s.isMarked a ∧ ∃ o, h.memory a = some o)

/-- The copy of a box. -/
def Boxed (h : Heap) (toStart : Nat) (s : GcState) (slot d : Nat) : Prop :=
  ∃ word, h.memory slot = some (.scalar word) ∧ s.memory d = some (.object (.scalar word)) ∧
    toStart ≤ d ∧ d < s.free

/-- Images and copied boxes are never taken back. -/
def Grows (h : Heap) (toStart : Nat) (s s' : GcState) : Prop :=
  (∀ a d, Image h s a d → Image h s' a d) ∧
    ∀ slot d, Boxed h toStart s slot d → Boxed h toStart s' slot d

/-- The objects that have an image. -/
def imaged (h : Heap) (s : GcState) : Finset Nat :=
  h.objects.toFinset.filter fun a => s.isForwarded a || (s.isMarked a && (h.memory a).isSome)

structure Graph (h : Heap) (budget scanIdx : Nat) (hand : Option (CopiedObject × Object))
    (s : GcState) : Prop where
  inj : ∀ a b d, Image h s a d → Image h s b d → a = b
  kept : ∀ a o, h.memory a = some o → s.memory a = some (.object o) ∨
    (∃ d, s.memory a = some (.forwarded d o)) ∨ s.isMarked a
  pending : ∀ a d o, Image h s a d → h.memory a = some o →
    d ∈ (s.queue scanIdx hand).map CopiedObject.ptr → s.memory d = some (.object o)
  done : ∀ a d o, Image h s a d → h.memory a = some o →
    d ∉ (s.queue scanIdx hand).map CopiedObject.ptr →
      ∃ o', s.memory d = some (.object o') ∧ o.Like (ValueAlong h (Image h s)) o'
  source : ∀ c ∈ s.queue scanIdx hand, ∃ a o, Image h s a c.ptr ∧ h.memory a = some o ∧
    o.hasKind c.kind
  /-- As many objects can still be taken as have no image or are queued. -/
  budget_eq : budget + (imaged h s).card =
    h.objects.toFinset.card + (s.copiedObjects.length - scanIdx) + s.fragQueue.length

section Images

variable {h : Heap} {toStart : Nat} {roots : Roots} {boxes i : Nat}
  {hand : Option (CopiedObject × Object)} {s : GcState}

theorem mem_imaged (hl : h.Layout) {a : Nat} {o : Object} (ha : h.memory a = some o) :
    a ∈ imaged h s ↔ ∃ d, Image h s a d := by
  rw [imaged, Finset.mem_filter, List.mem_toFinset, Bool.or_eq_true, Bool.and_eq_true,
    isForwarded_iff]
  constructor
  · rintro ⟨-, ⟨d, o', hfwd⟩ | ⟨hm, -⟩⟩
    · exact ⟨d, .inl ⟨o', hfwd⟩⟩
    · exact ⟨a, .inr ⟨rfl, hm, o, ha⟩⟩
  · rintro ⟨d, ⟨o', hfwd⟩ | ⟨-, hm, -⟩⟩
    · exact ⟨hl.mem_objects a o ha, .inl ⟨d, o', hfwd⟩⟩
    · exact ⟨hl.mem_objects a o ha, .inr ⟨hm, by rw [ha]; rfl⟩⟩

theorem Inv.image_source (hi : Inv h toStart roots boxes i hand s) {a d : Nat}
    (him : Image h s a d) : ∃ o, h.memory a = some o := by
  rcases him with ⟨o, hfwd⟩ | ⟨-, -, hmem⟩
  · exact ⟨o, (hi.forwarded a d o hfwd).2.1⟩
  · exact hmem

theorem mem_imaged_iff (hl : h.Layout) (hi : Inv h toStart roots boxes i hand s) {a : Nat} :
    a ∈ imaged h s ↔ ∃ d, Image h s a d := by
  constructor
  · intro hmem
    obtain ⟨-, hcond⟩ := Finset.mem_filter.mp hmem
    rcases Bool.or_eq_true_iff.mp hcond with hfwd | hm
    · obtain ⟨d, o, hcell⟩ := isForwarded_iff.mp hfwd
      exact ⟨d, .inl ⟨o, hcell⟩⟩
    · obtain ⟨hm, hsome⟩ := Bool.and_eq_true_iff.mp hm
      exact ⟨a, .inr ⟨rfl, hm, Option.isSome_iff_exists.mp hsome⟩⟩
  · rintro ⟨d, him⟩
    obtain ⟨o, ho⟩ := hi.image_source him
    exact (mem_imaged hl ho).mpr ⟨d, him⟩

theorem Inv.image_place (hi : Inv h toStart roots boxes i hand s) {a d : Nat}
    (him : Image h s a d) : (toStart ≤ d ∧ d < s.free) ∨ (d = a ∧ s.isMarked a) := by
  rcases him with ⟨o, hfwd⟩ | ⟨hd, hm, -⟩
  · obtain ⟨-, -, h₁, h₂, -⟩ := hi.forwarded a d o hfwd
    exact .inl ⟨h₁, h₂⟩
  · exact .inr ⟨hd, hm⟩

theorem Inv.image_ne (hi : Inv h toStart roots boxes i hand s) {a d q : Nat}
    (him : Image h s a d) (hto : ¬ (toStart ≤ q ∧ q < s.free)) (hm : s.isMarked q = false) :
    d ≠ q := by
  rintro rfl
  rcases hi.image_place him with hin | ⟨rfl, hmark⟩
  · exact hto hin
  · exact Bool.false_ne_true (hm.symm.trans hmark)

theorem Inv.image_unique (hi : Inv h toStart roots boxes i hand s) {a d d' : Nat}
    (h₁ : Image h s a d) (h₂ : Image h s a d') : d = d' := by
  have hexcl {e : Nat} {o : Object} (hfwd : s.memory a = some (.forwarded e o))
      (hm : s.isMarked a = true) : False := by
    have hfrag := (hi.forwarded a e o hfwd).1.1
    exact Bool.false_ne_true (hfrag.symm.trans (inFragment_of_isMarked hi.fragments hm))
  rcases h₁ with ⟨o, hfwd⟩ | ⟨rfl, hm, -⟩ <;> rcases h₂ with ⟨o', hfwd'⟩ | ⟨rfl, hm', -⟩
  · rw [hfwd] at hfwd'
    cases hfwd'
    rfl
  · exact (hexcl hfwd hm').elim
  · exact (hexcl hfwd' hm).elim
  · rfl

end Images

/-! ## One more image -/

section Add

variable {h : Heap} {toStart : Nat} {roots : Roots} {boxes i n : Nat}
  {hand : Option (CopiedObject × Object)} {s s' : GcState}

/-- One object gets an image, which is queued as the object was. -/
theorem Graph.add (hl : h.Layout) (hi : Inv h toStart roots boxes i hand s)
    (hi' : Inv h toStart roots boxes i hand s') (hg : Graph h n i hand s) {p : Nat} {o : Object}
    (c₀ : CopiedObject) (hp : h.memory p = some o) (hk : o.hasKind c₀.kind)
    (himage : ∀ a d, Image h s' a d ↔ Image h s a d ∨ (a = p ∧ d = c₀.ptr))
    (hfresh : ∀ a d, Image h s a d → a ≠ p ∧ d ≠ c₀.ptr)
    (hcell : s'.memory c₀.ptr = some (.object o))
    (hsame : ∀ a d, Image h s a d → s'.memory d = s.memory d)
    (hkept : ∀ a o, h.memory a = some o → s'.memory a = some (.object o) ∨
      (∃ d, s'.memory a = some (.forwarded d o)) ∨ s'.isMarked a)
    (hperm : (s'.queue i hand).Perm (c₀ :: s.queue i hand))
    (hcount : (s'.copiedObjects.length - i) + s'.fragQueue.length =
      (s.copiedObjects.length - i) + s.fragQueue.length + 1) : Graph h n i hand s' := by
  have hgrow (a d : Nat) (him : Image h s a d) : Image h s' a d := (himage a d).mpr (.inl him)
  have hmem {d : Nat} : d ∈ (s'.queue i hand).map CopiedObject.ptr ↔
      d = c₀.ptr ∨ d ∈ (s.queue i hand).map CopiedObject.ptr := by
    rw [(hperm.map CopiedObject.ptr).mem_iff, List.map_cons, List.mem_cons]
  refine
    { inj := fun a b d ha hb => ?_
      kept := hkept
      pending := fun a d o' him ho' hd => ?_
      done := fun a d o' him ho' hd => ?_
      source := fun c hcq => ?_
      budget_eq := ?_ }
  · rcases (himage a d).mp ha with ha' | ⟨ha', hd⟩ <;>
      rcases (himage b d).mp hb with hb' | ⟨hb', hd'⟩
    · exact hg.inj a b d ha' hb'
    · exact absurd hd' (hfresh a d ha').2
    · exact absurd hd (hfresh b d hb').2
    · rw [ha', hb']
  · rcases (himage a d).mp him with him | ⟨rfl, rfl⟩
    · rw [hsame a d him]
      exact hg.pending a d o' him ho' ((hmem.mp hd).resolve_left (hfresh a d him).2)
    · rw [hp] at ho'
      cases ho'
      exact hcell
  · rcases (himage a d).mp him with him | ⟨rfl, rfl⟩
    · obtain ⟨o₁, ho₁, hlike⟩ := hg.done a d o' him ho' fun h' => hd (hmem.mpr (.inr h'))
      rw [hsame a d him]
      exact ⟨o₁, ho₁, hlike.mono fun _ _ hv => hv.mono hgrow⟩
    · exact absurd (hmem.mpr (.inl rfl)) hd
  · rcases List.mem_cons.mp (hperm.mem_iff.mp hcq) with rfl | hcq
    · exact ⟨p, o, (himage _ _).mpr (.inr ⟨rfl, rfl⟩), hp, hk⟩
    · obtain ⟨a, o', him, ho', hk'⟩ := hg.source c hcq
      exact ⟨a, o', hgrow a c.ptr him, ho', hk'⟩
  · have hset : imaged h s' = insert p (imaged h s) := by
      ext a
      rw [mem_imaged_iff hl hi', Finset.mem_insert, mem_imaged_iff hl hi]
      constructor
      · rintro ⟨d, him⟩
        rcases (himage a d).mp him with him | ⟨rfl, -⟩
        · exact .inr ⟨d, him⟩
        · exact .inl rfl
      · rintro (rfl | ⟨d, him⟩)
        · exact ⟨c₀.ptr, (himage _ _).mpr (.inr ⟨rfl, rfl⟩)⟩
        · exact ⟨d, hgrow a d him⟩
    have hnew : p ∉ imaged h s := fun hin => by
      obtain ⟨d, him⟩ := (mem_imaged_iff hl hi).mp hin
      exact (hfresh p d him).1 rfl
    rw [hset, Finset.card_insert_of_notMem hnew]
    have := hg.budget_eq
    omega

theorem Graph.cell (hg : Graph h n i hand s) {p : Nat} {o : Object} (hp : h.memory p = some o) :
    s.memory p = some (.object o) ∨ ∃ d, Image h s p d := by
  rcases hg.kept p o hp with hcell | ⟨d, hfwd⟩ | hmark
  · exact .inl hcell
  · exact .inr ⟨d, .inl ⟨o, hfwd⟩⟩
  · exact .inr ⟨p, .inr ⟨rfl, hmark, o, hp⟩⟩

end Add

/-! ## Marking a fragment -/

section Mark

variable {h : Heap} {toStart : Nat} {roots : Roots} {boxes i n : Nat}
  {hand : Option (CopiedObject × Object)} {s : GcState} {kind : ValueKind} {p index : Nat}
  {f : Fragment} {o : Object}

theorem image_marked (hl : h.Layout) (hi : Inv h toStart roots boxes i hand s)
    (hc : classifyFragment p s.fragments = some index) (hget : s.fragments[index]? = some f)
    (hp : h.memory p = some o) (c : CopiedObject) (a d : Nat) :
    Image h (s.marked index f c) a d ↔ Image h s a d ∨ (a = p ∧ d = p) := by
  have hstart {q : Nat} {o' : Object} (hq : h.memory q = some o')
      (hcq : classifyFragment q s.fragments = some index) : q = f.ptr := by
    obtain ⟨f', hf', hcontains⟩ := classifyFragment_get hcq
    rw [hget] at hf'
    cases hf'
    have hreg : f.region ∈ h.fragments.map Fragment.region := by
      rw [← hi.fragments]
      exact List.mem_map_of_mem (List.mem_of_getElem? hget)
    obtain ⟨f₀, hf₀, hreg⟩ := List.mem_map.mp hreg
    have := hl.fragment_start f₀ hf₀ q o' hq (by rw [contains_congr hreg, hcontains])
    rw [this, (Prod.mk.inj hreg).1]
  constructor
  · rintro (hfwd | ⟨rfl, hm, o', ho'⟩)
    · exact .inl (.inl hfwd)
    · rw [isMarked_marked hget, Bool.or_eq_true, beq_iff_eq] at hm
      rcases hm with hm | hm
      · exact .inl (.inr ⟨rfl, hm, o', ho'⟩)
      · have : d = p := (hstart ho' hm).trans (hstart hp hc).symm
        exact .inr ⟨this, this⟩
  · rintro ((hfwd | ⟨rfl, hm, ho'⟩) | ⟨rfl, rfl⟩)
    · exact .inl hfwd
    · exact .inr ⟨rfl, by rw [isMarked_marked hget, hm, Bool.true_or], ho'⟩
    · refine .inr ⟨rfl, ?_, o, hp⟩
      rw [isMarked_marked hget, hc]
      simp

theorem Grows.mark (hl : h.Layout) (hi : Inv h toStart roots boxes i hand s)
    (hc : classifyFragment p s.fragments = some index) (hget : s.fragments[index]? = some f)
    (hp : h.memory p = some o) (c : CopiedObject) : Grows h toStart s (s.marked index f c) :=
  ⟨fun a d him => (image_marked hl hi hc hget hp c a d).mpr (.inl him), fun _ _ hb => hb⟩

theorem Graph.mark (hl : h.Layout) (hf : h.Fresh toStart (classSize h.toSpaceClass))
    (hi : Inv h toStart roots boxes i hand s) (hg : Graph h n i hand s)
    (hlive : Live h roots kind p) (hp : h.memory p = some o) (hk : o.hasKind kind)
    (hc : classifyFragment p s.fragments = some index) (hget : s.fragments[index]? = some f)
    (hm : f.mark = false) : Graph h n i hand (s.marked index f ⟨p, kind⟩) := by
  have hunmarked : s.isMarked p = false := by rw [isMarked_of_classify hc hget, hm]
  have hnot : ¬ (toStart ≤ p ∧ p < s.free) := fun hin => by
    have := hi.free_le
    exact hf.not_mem hlive.active (by omega)
  have hfrag : h.inFragment p = true := by
    rw [Heap.inFragment, ← any_contains_congr hi.fragments, ← classifyFragment_isSome, hc]
    rfl
  have hnone (d : Nat) : ¬ Image h s p d := by
    rintro (⟨o', hfwd⟩ | ⟨-, hmark, -⟩)
    · exact Bool.false_ne_true ((hi.forwarded p d o' hfwd).1.1.symm.trans hfrag)
    · exact Bool.false_ne_true (hunmarked.symm.trans hmark)
  refine hg.add hl hi (hi.mark hf hlive hc hget hm) ⟨p, kind⟩ hp hk
    (image_marked hl hi hc hget hp _)
    (fun a d him => ⟨fun ha => hnone d (ha ▸ him), hi.image_ne him hnot hunmarked⟩) ?_
    (fun _ _ _ => rfl) (fun a o' ha => ?_) (queue_marked s i hand index f ⟨p, kind⟩) ?_
  · rcases hg.cell hp with hcell | ⟨d, him⟩
    · exact hcell
    · exact absurd him (hnone d)
  · refine (hg.kept a o' ha).imp_right (Or.imp_right fun hmark => ?_)
    rw [isMarked_marked hget, hmark, Bool.true_or]
  · show _ + (s.fragQueue ++ [_]).length = _
    rw [List.length_append, List.length_singleton]
    exact (Nat.add_assoc _ _ _).symm

end Mark

/-! ## Copying -/

section Copy

variable {h : Heap} {toStart : Nat} {roots : Roots} {boxes i n : Nat}
  {hand : Option (CopiedObject × Object)} {s : GcState} {kind : ValueKind} {p : Nat} {o : Object}

theorem image_copied (hl : h.Layout) (hf : h.Fresh toStart (classSize h.toSpaceClass))
    (hi : Inv h toStart roots boxes i hand s) (ha : h.isActive p)
    (hc : classifyFragment p s.fragments = none)
    (hfit : s.free + o.size ≤ toStart + classSize h.toSpaceClass) (a d : Nat) :
    Image h (s.copied p o kind) a d ↔ (Image h s a d ∧ a ≠ p) ∨ (a = p ∧ d = s.free) := by
  have hinactive := hi.free_fresh hf o.size_pos hfit
  have hne : s.free ≠ p := fun hin => Bool.false_ne_true (hinactive.symm.trans (hin ▸ ha))
  have hmarkp : s.isMarked p = false := isMarked_of_none hc
  by_cases hap : a = p
  · subst hap
    constructor
    · rintro (⟨o', hfwd⟩ | ⟨-, hm, -⟩)
      · rw [copied_memory_self] at hfwd
        cases hfwd
        exact .inr ⟨rfl, rfl⟩
      · exact absurd (hmarkp.symm.trans hm) Bool.false_ne_true
    · rintro (⟨-, h'⟩ | ⟨-, rfl⟩)
      · exact absurd rfl h'
      · exact .inl ⟨o, copied_memory_self⟩
  · have hcell (o' : Object) : (s.copied p o kind).memory a = some (.forwarded d o') ↔
        s.memory a = some (.forwarded d o') := by
      by_cases haf : a = s.free
      · subst haf
        rw [copied_memory_free hne]
        exact ⟨nofun, fun hfwd => absurd hfwd (hi.free_not_forwarded hl hf o.size_pos hfit d o')⟩
      · rw [copied_memory_ne hap haf]
    unfold Image
    simp only [hcell, hap, false_and, or_false, ne_eq, not_false_eq_true, and_true]
    rfl

theorem Grows.copy (hl : h.Layout) (hf : h.Fresh toStart (classSize h.toSpaceClass))
    (hi : Inv h toStart roots boxes i hand s) (ha : h.isActive p)
    (hc : classifyFragment p s.fragments = none) (hp : s.memory p = some (.object o))
    (hfit : s.free + o.size ≤ toStart + classSize h.toSpaceClass) :
    Grows h toStart s (s.copied p o kind) := by
  refine ⟨fun a d him => (image_copied hl hf hi ha hc hfit a d).mpr (.inl ⟨him, ?_⟩), ?_⟩
  · rintro rfl
    rcases him with ⟨o', hfwd⟩ | ⟨-, hm, -⟩
    · rw [hp] at hfwd
      cases hfwd
    · exact Bool.false_ne_true ((isMarked_of_none hc).symm.trans hm)
  · rintro slot d ⟨word, hw, hd, h₁, h₂⟩
    have hto := hf.not_mem ha
    refine ⟨word, hw, ?_, h₁, Nat.lt_add_right _ h₂⟩
    rw [copied_memory_ne (by omega) (by omega), hd]

theorem Graph.copy (hl : h.Layout) (hf : h.Fresh toStart (classSize h.toSpaceClass))
    (hi : Inv h toStart roots boxes i hand s) (hg : Graph h n i hand s)
    (hlive : Live h roots kind p) (hc : classifyFragment p s.fragments = none)
    (hp : s.memory p = some (.object o)) (hk : o.hasKind kind)
    (hfit : s.free + o.size ≤ toStart + classSize h.toSpaceClass) :
    Graph h n i hand (s.copied p o kind) := by
  have ha := hlive.active
  have hmem : h.memory p = some o := hi.old_of_active hf ha hc hp
  have hmarkp : s.isMarked p = false := isMarked_of_none hc
  have hsize := o.size_pos
  have hto := hf.not_mem ha
  have hend := hi.free_le
  have hnone (d : Nat) : ¬ Image h s p d := by
    rintro (⟨o', hfwd⟩ | ⟨-, hmark, -⟩)
    · rw [hp] at hfwd
      cases hfwd
    · exact Bool.false_ne_true (hmarkp.symm.trans hmark)
  have hne {a d : Nat} (him : Image h s a d) : d ≠ s.free :=
    hi.image_ne him (by omega) (hi.free_unmarked hf hsize hfit)
  have hfree : s.free ≠ p := fun hin =>
    Bool.false_ne_true ((hi.free_fresh hf hsize hfit).symm.trans (hin ▸ ha))
  refine hg.add hl hi (hi.copy hl hf hlive hc hp hk hfit) ⟨s.free, kind⟩ hmem hk
    (fun a d => ?_) (fun a d him => ⟨fun hap => hnone d (hap ▸ him), hne him⟩)
    (copied_memory_free hfree) (fun a d him => ?_) (fun a o' ho' => ?_)
    (queue_copied hand p o kind hi.scan_le) ?_
  · rw [image_copied hl hf hi ha hc hfit]
    refine or_congr_left (and_iff_left_of_imp ?_)
    rintro him rfl
    exact hnone d him
  · exact copied_memory_ne (hi.image_ne him (by omega) hmarkp) (hne him)
  · by_cases hap : a = p
    · subst hap
      rw [hmem] at ho'
      cases ho'
      exact .inr (.inl ⟨s.free, copied_memory_self⟩)
    · have haf : a ≠ s.free := by
        rintro rfl
        exact Bool.false_ne_true ((hi.free_fresh hf hsize hfit).symm.trans (hl.active _ _ ho'))
      rw [copied_memory_ne hap haf]
      exact hg.kept a o' ho'
  · have hscan := hi.scan_le
    show (s.copiedObjects ++ [_]).length - i + s.fragQueue.length = _
    rw [List.length_append, List.length_singleton]
    omega

theorem image_boxed (hl : h.Layout) (hf : h.Fresh toStart (classSize h.toSpaceClass))
    (hi : Inv h toStart roots boxes i hand s) (word : Nat)
    (hfit : s.free + 16 ≤ toStart + classSize h.toSpaceClass) (a d : Nat) :
    Image h (s.boxed word) a d ↔ Image h s a d := by
  have hcell (o' : Object) : (s.boxed word).memory a = some (.forwarded d o') ↔
      s.memory a = some (.forwarded d o') := by
    by_cases haf : a = s.free
    · subst haf
      rw [boxed_memory_free]
      exact ⟨nofun, fun hfwd => absurd hfwd (hi.free_not_forwarded hl hf (by omega) hfit d o')⟩
    · rw [boxed_memory_ne haf]
  unfold Image
  simp only [hcell]
  rfl

theorem Grows.box (hl : h.Layout) (hf : h.Fresh toStart (classSize h.toSpaceClass))
    (hi : Inv h toStart roots boxes i hand s) {word : Nat}
    (hfit : s.free + 16 ≤ toStart + classSize h.toSpaceClass) :
    Grows h toStart s (s.boxed word) := by
  refine ⟨fun a d him => (image_boxed hl hf hi word hfit a d).mpr him, ?_⟩
  rintro slot d ⟨word', hw, hd, h₁, h₂⟩
  refine ⟨word', hw, ?_, h₁, Nat.lt_add_right _ h₂⟩
  rw [boxed_memory_ne (by omega), hd]

theorem Graph.box (hl : h.Layout) (hf : h.Fresh toStart (classSize h.toSpaceClass))
    (hi : Inv h toStart roots boxes i hand s) (hg : Graph h n i hand s) {word : Nat}
    (hfit : s.free + 16 ≤ toStart + classSize h.toSpaceClass) :
    Graph h n i hand (s.boxed word) := by
  have himage := image_boxed hl hf hi word hfit
  have hsame {a d : Nat} (him : Image h s a d) : (s.boxed word).memory d = s.memory d :=
    boxed_memory_ne (hi.image_ne him (by omega) (hi.free_unmarked hf (by omega) hfit))
  have hset : imaged h (s.boxed word) = imaged h s := by
    refine Finset.filter_congr fun a _ => ?_
    have hfwd : (s.boxed word).isForwarded a = s.isForwarded a := by
      by_cases haf : a = s.free
      · subst haf
        rw [GcState.isForwarded, boxed_memory_free, GcState.isForwarded]
        cases hcell : s.memory s.free with
        | none => rfl
        | some cell =>
          cases cell with
          | object => rfl
          | forwarded d o =>
            exact absurd hcell (hi.free_not_forwarded hl hf (by omega) hfit d o)
      · rw [GcState.isForwarded, boxed_memory_ne haf, GcState.isForwarded]
    rw [hfwd]
    exact Iff.rfl
  refine
    { inj := fun a b d ha hb => hg.inj a b d ((himage a d).mp ha) ((himage b d).mp hb)
      kept := fun a o ho => ?_
      pending := fun a d o him ho hd => ?_
      done := fun a d o him ho hd => ?_
      source := fun c hcq => ?_
      budget_eq := hset ▸ hg.budget_eq }
  · have haf : a ≠ s.free := by
      rintro rfl
      exact Bool.false_ne_true
        ((hi.free_fresh hf (by omega) hfit).symm.trans (hl.active _ _ ho))
    rw [boxed_memory_ne haf]
    exact hg.kept a o ho
  · have him' := (himage a d).mp him
    rw [hsame him']
    exact hg.pending a d o him' ho hd
  · have him' := (himage a d).mp him
    obtain ⟨o', ho', hlike⟩ := hg.done a d o him' ho hd
    rw [hsame him']
    exact ⟨o', ho', hlike.mono fun _ _ hv => hv.mono fun a d him => (himage a d).mpr him⟩
  · obtain ⟨a, o, him, ho, hk⟩ := hg.source c hcq
    exact ⟨a, o, (himage a c.ptr).mpr him, ho, hk⟩

end Copy

/-! ## Taking from a queue and putting back -/

section Trace

variable {h : Heap} {toStart : Nat} {roots : Roots} {boxes i n : Nat} {s : GcState}
  {c : CopiedObject} {o o' : Object}

theorem imaged_card_le (h : Heap) (s : GcState) :
    (imaged h s).card ≤ h.objects.toFinset.card := Finset.card_filter_le _ _

theorem Graph.busy (hg : Graph h n i none s) (hc : c ∈ s.copiedObjects.drop i ++ s.fragQueue) :
    0 < n ∧ ∃ o, s.memory c.ptr = some (.object o) ∧ o.hasKind c.kind := by
  have hq : c ∈ s.queue i none := by
    rw [GcState.queue, Option.map_none, Option.toList_none, List.append_nil]
    exact hc
  constructor
  · have hlen : 0 < (s.copiedObjects.length - i) + s.fragQueue.length := by
      have := List.length_pos_of_mem hc
      rw [List.length_append, List.length_drop] at this
      exact this
    have := hg.budget_eq
    have := imaged_card_le h s
    omega
  · obtain ⟨a, o, him, ho, hk⟩ := hg.source c hq
    exact ⟨o, hg.pending a c.ptr o him ho (List.mem_map_of_mem hq), hk⟩

theorem Graph.scan (hg : Graph h n i none s) (hc : s.copiedObjects[i]? = some c) :
    Graph h (n - 1) (i + 1) (some (c, o)) s := by
  have hlt := (List.getElem?_eq_some_iff.mp hc).1
  have hperm := queue_scan o hc
  have hmem (d : Nat) : d ∈ (s.queue (i + 1) (some (c, o))).map CopiedObject.ptr ↔
      d ∈ (s.queue i none).map CopiedObject.ptr := (hperm.map CopiedObject.ptr).mem_iff
  refine
    { inj := hg.inj
      kept := hg.kept
      pending := fun a d o₁ him ho hd => hg.pending a d o₁ him ho ((hmem d).mp hd)
      done := fun a d o₁ him ho hd => hg.done a d o₁ him ho fun h' => hd ((hmem d).mpr h')
      source := fun c' hc' => hg.source c' (hperm.mem_iff.mp hc')
      budget_eq := ?_ }
  have := hg.budget_eq
  have := imaged_card_le h s
  omega

theorem Graph.pop (hg : Graph h n i none s) (hc : s.fragQueue.getLast? = some c) :
    Graph h (n - 1) i (some (c, o)) s.popFragment := by
  have hqueue := queue_pop (i := i) o hc
  refine
    { inj := hg.inj
      kept := hg.kept
      pending := fun a d o₁ him ho hd => hg.pending a d o₁ him ho (hqueue ▸ hd)
      done := fun a d o₁ him ho hd => hg.done a d o₁ him ho (hqueue ▸ hd)
      source := fun c' hc' => hg.source c' (hqueue ▸ hc')
      budget_eq := ?_ }
  show n - 1 + (imaged h s).card = _ + s.fragQueue.dropLast.length
  have hpos : 0 < s.fragQueue.length := List.length_pos_of_mem (List.mem_of_getLast? hc)
  have hset : imaged h s.popFragment = imaged h s := rfl
  have := hg.budget_eq
  have := imaged_card_le h s
  rw [List.length_dropLast]
  show _ = h.objects.toFinset.card + (s.copiedObjects.length - i) + (s.fragQueue.length - 1)
  omega

theorem image_put (h : Heap) (o' : Object) (hcell : s.memory c.ptr = some (.object o)) (a d : Nat) :
    Image h (s.put c.ptr o') a d ↔ Image h s a d := by
  have hfwd (o₁ : Object) : (s.put c.ptr o').memory a = some (.forwarded d o₁) ↔
      s.memory a = some (.forwarded d o₁) := by
    by_cases ha : a = c.ptr
    · rw [ha, put_memory_self, hcell]
      exact ⟨nofun, nofun⟩
    · rw [put_memory_ne ha]
  unfold Image
  simp only [hfwd]
  rfl

theorem Grows.put (hcell : s.memory c.ptr = some (.object o)) {kind : ValueKind}
    (hk : o.hasKind kind) : Grows h toStart s (s.put c.ptr o') := by
  refine ⟨fun a d him => (image_put h o' hcell a d).mpr him, ?_⟩
  rintro slot d ⟨word, hw, hd, h₁, h₂⟩
  refine ⟨word, hw, ?_, h₁, h₂⟩
  have hne : d ≠ c.ptr := by
    rintro rfl
    rw [hcell] at hd
    cases hd
    cases kind <;> exact Bool.false_ne_true hk
  rw [put_memory_ne hne, hd]

theorem Graph.put (hl : h.Layout) (hf : h.Fresh toStart (classSize h.toSpaceClass))
    (hi : Inv h toStart roots boxes i (some (c, o)) s) (hg : Graph h n i (some (c, o)) s)
    (hlike : o.Like (ValueAlong h (Image h s)) o') : Graph h n i none (s.put c.ptr o') := by
  have hcell := hi.hand_eq c o rfl
  have himage := image_put h o' hcell
  have hqueue (d : Nat) : d ∈ (s.queue i (some (c, o))).map CopiedObject.ptr ↔
      d = c.ptr ∨ d ∈ (s.queue i none).map CopiedObject.ptr := by
    simp only [GcState.queue, Option.map_some, Option.map_none, Option.toList_some,
      Option.toList_none, List.append_nil, List.map_append, List.mem_append, List.map_cons,
      List.map_nil, List.mem_singleton]
    exact or_comm
  have hne {d : Nat} (hd : d ∈ (s.queue i none).map CopiedObject.ptr) : d ≠ c.ptr := by
    obtain ⟨c', hc', rfl⟩ := List.mem_map.mp hd
    exact hi.queued_hand_ne hc'
  have hset : imaged h (s.put c.ptr o') = imaged h s := by
    refine Finset.filter_congr fun a _ => ?_
    have hfwd : (s.put c.ptr o').isForwarded a = s.isForwarded a := by
      by_cases ha : a = c.ptr
      · rw [ha, GcState.isForwarded, put_memory_self, GcState.isForwarded, hcell]
      · rw [GcState.isForwarded, put_memory_ne ha, GcState.isForwarded]
    rw [hfwd]
    exact Iff.rfl
  refine
    { inj := fun a b d ha hb => hg.inj a b d ((himage a d).mp ha) ((himage b d).mp hb)
      kept := fun a o₁ ho => ?_
      pending := fun a d o₁ him ho hd => ?_
      done := fun a d o₁ him ho hd => ?_
      source := fun c' hc' => ?_
      budget_eq := hset ▸ hg.budget_eq }
  · by_cases ha : a = c.ptr
    · refine .inr (.inr ?_)
      have hto := hf.not_mem (hl.active a o₁ ho)
      have hend := hi.free_le
      rcases hi.queued c (mem_hand rfl) with hin | hin
      · omega
      · rw [ha]
        exact hin
    · rw [put_memory_ne ha]
      exact hg.kept a o₁ ho
  · rw [put_memory_ne (hne hd)]
    exact hg.pending a d o₁ ((himage a d).mp him) ho ((hqueue d).mpr (.inr hd))
  · have him' := (himage a d).mp him
    by_cases hdc : d = c.ptr
    · -- The object in hand was still as it had been when its values were forwarded.
      subst hdc
      have horig := hg.pending a c.ptr o₁ him' ho ((hqueue _).mpr (.inl rfl))
      rw [hcell] at horig
      cases horig
      refine ⟨o', put_memory_self, hlike.mono fun _ _ hv => hv.mono fun a d him => ?_⟩
      exact (himage a d).mpr him
    · obtain ⟨o₂, ho₂, hlike₂⟩ := hg.done a d o₁ him' ho fun h' =>
        ((hqueue d).mp h').elim hdc hd
      rw [put_memory_ne hdc]
      exact ⟨o₂, ho₂, hlike₂.mono fun _ _ hv => hv.mono fun a d him => (himage a d).mpr him⟩
  · obtain ⟨a, o₁, him, ho, hk⟩ := hg.source c' (queue_none_subset hc')
    exact ⟨a, o₁, (himage a c'.ptr).mpr him, ho, hk⟩

end Trace

end Fz.Gc
