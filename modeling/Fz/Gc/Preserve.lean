import Fz.Base.List
import Fz.Gc.Graph

/-!
# A collection preserves the object graph

If no live object looks forwarded and to-space does not run out, a collection comes to an end, and
what the roots reach afterwards is a copy of what they reached before (`gc_preserves`): live objects
correspond one to one to their images, corresponding objects are the same up to the places of the
objects they hold, and so every root denotes the same term.  Everything reached is in to-space, in a
fragment that was kept, or off the heap where it was before.
-/

namespace Fz.Gc

open Fz.Base
open Fz.Terms (ValueKind AnyValue FieldSlot)

/-! ## Well-formed heaps -/

/-- The chain of stubs from a link, in blocks. -/
inductive Chain (h : Heap) : Nat → List Nat → Prop where
  | nil : Chain h 0 []
  | cons {current next o ps} : current ≠ 0 → h.memory (current / 16 * 16) = some o →
      h.inFragment (current / 16 * 16) = false → o.msoNext? = some next → o.Encoded →
      Chain h next ps → Chain h current (current / 16 * 16 :: ps)

/-- What the runtime keeps true of a heap and the roots into it: live pointers lead to objects of
their kind, references to scalars in the heap to boxes, and the chain of stubs goes through
distinct objects. -/
structure Heap.WellFormed (h : Heap) (roots : Roots) : Prop where
  typed : h.Typed roots
  boxes : ∀ kind slot, .scalar kind slot ∈ roots.refs → h.isActive slot → h.isBox slot
  chain : ∃ ps, Chain h h.msoHead ps ∧ ps.length ≤ h.objects.length

section Collect

variable {h : Heap} {toStart : Nat} {roots : Roots} {s : GcState}

variable {hand : Option (CopiedObject × Object)}

/-- Forwarding a live pointer gives its image. -/
theorem Graph.forward (hl : h.Layout) (hf : h.Fresh toStart (classSize h.toSpaceClass))
    (ht : h.Typed roots) (hnone : h.NoneLooksForwarded roots) {boxes i n : Nat}
    (hi : Inv h toStart roots boxes i hand s)
    (hg : Graph h n i hand s) {kind : ValueKind} {p : Nat} (hlive : Live h roots kind p) :
    wp (cheneyForwardObject (h.toEnv toStart) kind p)
      (fun d s' => Graph h n i hand s' ∧ Grows h toStart s s' ∧ Image h s' p d)
      (fun e => e = .toSpaceExhausted) s := by
  obtain ⟨o, hp, hk, henc⟩ := ht kind p hlive
  have hrefl : Grows h toStart s s := ⟨fun _ _ him => him, fun _ _ hb => hb⟩
  have hold {o' : Object} (hc : classifyFragment p s.fragments = none)
      (hcell : s.memory p = some (.object o')) : o' = o := by
    have := hi.old_of_active hf hlive.active hc hcell
    rw [hp] at this
    exact (Option.some.inj this).symm
  have hout := forwardOutcome (h.toEnv toStart) kind p s
  unfold wp
  generalize cheneyForwardObject (h.toEnv toStart) kind p s = result at hout
  cases hout with
  | known hc hget hm =>
    refine ⟨hg, hrefl, .inr ⟨rfl, ?_, o, hp⟩⟩
    rw [isMarked_of_classify hc hget, hm]
  | mark hc hget hm =>
    refine ⟨hg.mark hl hf hi hlive hp hk hc hget hm, .mark hl hi hc hget hp _, ?_⟩
    exact (image_marked hl hi hc hget hp _ p p).mpr (.inr ⟨rfl, rfl⟩)
  | @seen cell d hc hcell hfwd =>
    refine ⟨hg, hrefl, ?_⟩
    cases cell with
    | object o' =>
      cases hold hc hcell
      have hsome : (forwardedAs kind (.object o)).isSome := by rw [hfwd]; rfl
      exact absurd ((forwardedAs_object hk henc).mp hsome)
        (hnone kind p o hlive (hi.inFragment_of_none hc) hp)
    | forwarded d' o' =>
      obtain ⟨-, hmem, hstart, -, hdvd⟩ := hi.forwarded p d' o' hcell
      rw [hp] at hmem
      cases hmem
      have hpos := hf.pos
      rw [forwardedAs_forwarded hk (by omega) hdvd] at hfwd
      cases hfwd
      exact .inl ⟨o, hcell⟩
  | @copy o' hc hcell hfwd hk' hfit =>
    refine ⟨hg.copy hl hf hi hlive hc hcell hk' hfit, .copy hl hf hi hlive.active hc hcell hfit, ?_⟩
    exact (image_copied hl hf hi hlive.active hc hfit p s.free).mpr (.inr ⟨rfl, rfl⟩)
  | full => rfl
  | missing hc hcell =>
    rcases hg.cell hp with hcell' | ⟨d, him⟩
    · rw [hcell] at hcell'
      cases hcell'
    · rcases him with ⟨o', hfwd⟩ | ⟨-, hm, -⟩
      · rw [hcell] at hfwd
        cases hfwd
      · exact absurd ((isMarked_of_none hc).symm.trans hm) Bool.false_ne_true
  | mistyped hc hcell hk' =>
    rw [hold hc hcell, hk] at hk'
    exact absurd hk' Bool.noConfusion
  | @unread d o' hc hcell hfwd =>
    obtain ⟨-, hmem, hstart, -, hdvd⟩ := hi.forwarded p d o' hcell
    rw [hp] at hmem
    cases hmem
    have hpos := hf.pos
    rw [forwardedAs_forwarded hk (by omega) hdvd] at hfwd
    cases hfwd

/-- A root that refers to a box gets a copy of it. -/
theorem Graph.boxRoot (hl : h.Layout) (hf : h.Fresh toStart (classSize h.toSpaceClass))
    {boxes i n : Nat}
    (hi : Inv h toStart roots boxes i hand s) (hg : Graph h n i hand s) {slot : Nat}
    (hbox : h.isBox slot) : wp (copyScalarBoxToSpace (h.toEnv toStart) slot)
      (fun d s' => Graph h n i hand s' ∧ Grows h toStart s s' ∧ Boxed h toStart s' slot d)
      (fun e => e = .toSpaceExhausted) s := by
  obtain ⟨ha, hscalar⟩ := Bool.and_eq_true_iff.mp hbox
  obtain ⟨word, hw⟩ : ∃ word, h.memory slot = some (.scalar word) := by
    cases hm : h.memory slot with
    | none => simp [hm] at hscalar
    | some o =>
      cases o with
      | scalar word => exact ⟨word, rfl⟩
      | _ => simp [hm] at hscalar
  have hcell : s.memory slot = some (.object (.scalar word)) := by
    rcases hg.kept slot _ hw with hcell | ⟨d, hfwd⟩ | hm
    · exact hcell
    · obtain ⟨-, kind, o, -, hmem, hk⟩ := (hi.forwarded slot d _ hfwd).1
      rw [hw] at hmem
      cases hmem
      cases kind <;> exact absurd hk Bool.false_ne_true
    · have hfrag := inFragment_of_isMarked hi.fragments hm
      exact absurd ((hl.box_block slot word hw).symm.trans hfrag) Bool.false_ne_true
  have hout := boxOutcome (h.toEnv toStart) slot s
  unfold wp
  generalize copyScalarBoxToSpace (h.toEnv toStart) slot s = result at hout
  cases hout with
  | @copy word' hw' hfit =>
    rw [hcell] at hw'
    cases hw'
    refine ⟨hg.box hl hf hi hfit, .box hl hf hi hfit, word, hw, boxed_memory_free,
      hi.start_le_free, ?_⟩
    exact Nat.lt_add_of_pos_right (by omega)
  | full => rfl
  | missing hno => exact absurd hcell (hno word)

theorem Grows.refl (h : Heap) (toStart : Nat) (s : GcState) : Grows h toStart s s :=
  ⟨fun _ _ him => him, fun _ _ hb => hb⟩

theorem Grows.trans {s s' s'' : GcState} (h₁ : Grows h toStart s s') (h₂ : Grows h toStart s' s'') :
    Grows h toStart s s'' :=
  ⟨fun a d him => h₂.1 a d (h₁.1 a d him), fun a d hb => h₂.2 a d (h₁.2 a d hb)⟩

theorem graph_forwarding (hl : h.Layout) (hf : h.Fresh toStart (classSize h.toSpaceClass))
    (ht : h.Typed roots) (hnone : h.NoneLooksForwarded roots) (boxes n i : Nat)
    (hand : Option (CopiedObject × Object)) : Forwarding (h.toEnv toStart) h
      (fun s => Inv h toStart roots boxes i hand s ∧ Graph h n i hand s) (Grows h toStart)
      (Image h) (Live h roots) (fun e => e = .toSpaceExhausted) where
  ranges := rfl
  fragments := fun _ hs => hs.1.fragments
  refl := Grows.refl h toStart
  trans := fun _ _ _ => Grows.trans
  mono := fun _ _ a d hg => hg.1 a d
  forward := fun _ _ _ hs hlive _ =>
    ((hs.2.forward hl hf ht hnone hs.1 hlive).and (hs.1.forward hl hf hlive)).imp
      fun _ _ ⟨⟨hg, hgrow, him⟩, hi⟩ => ⟨⟨hi, hg⟩, hgrow, him⟩

theorem graph_rooting (hl : h.Layout) (hf : h.Fresh toStart (classSize h.toSpaceClass))
    (ht : h.Typed roots) (hnone : h.NoneLooksForwarded roots) (n : Nat) :
    Rooting (h.toEnv toStart) h
      (fun boxes s => Inv h toStart roots boxes 0 none s ∧ Graph h n 0 none s) (Grows h toStart)
      (Image h) (Boxed h toStart) (Live h roots) (fun slot => h.isBox slot)
      (fun e => e = .toSpaceExhausted) where
  forwarding := fun boxes => graph_forwarding hl hf ht hnone boxes n 0 none
  boxed_mono := fun _ _ a d hg => hg.2 a d
  box := fun _ _ _ hs hbox ha =>
    ((hs.2.boxRoot hl hf hs.1 hbox).and (hs.1.boxRoot hl hf ha)).imp
      fun _ _ ⟨⟨hg, hgrow, hb⟩, hi⟩ => ⟨⟨hi, hg⟩, hgrow, hb⟩

theorem graph_collecting (hl : h.Layout) (hf : h.Fresh toStart (classSize h.toSpaceClass))
    (ht : h.Typed roots) (hnone : h.NoneLooksForwarded roots) : Collecting (h.toEnv toStart) h
      (fun n i hand s => Inv h toStart roots 0 i hand s ∧ Graph h n i hand s) (Grows h toStart)
      (Image h) (Live h roots) (fun e => e = .toSpaceExhausted) where
  forwarding := fun n i hand => graph_forwarding hl hf ht hnone 0 n i hand
  values := fun _ _ c o _ hs => hs.1.live c (mem_hand rfl) o (hs.1.hand_eq c o rfl)
  busy := fun _ _ _ _ hs hc => .inl (hs.2.busy hc)
  scan := fun _ _ _ _ _ hs hc ho => ⟨hs.1.scan hc ho, hs.2.scan hc⟩
  pop := fun _ _ s _ _ hs hc ho => ⟨⟨hs.1.pop hc ho, hs.2.pop hc⟩, Grows.refl h toStart s⟩
  put := fun _ _ c o _ _ hs hlike => by
    have hcell := hs.1.hand_eq c o rfl
    obtain ⟨a, o₁, him, ho₁, hk⟩ := hs.2.source c (mem_hand rfl)
    have hsame := hs.2.pending a c.ptr o₁ him ho₁ (List.mem_map_of_mem (mem_hand rfl))
    rw [hcell] at hsame
    cases hsame
    exact ⟨⟨hs.1.put hlike, hs.2.put hl hf hs.1 hlike⟩, .put hcell hk⟩

theorem isMarked_start (p : Nat) : (h.startState toStart).isMarked p = false := by
  unfold GcState.isMarked
  split
  · next index hindex =>
    show ((h.fragments.map fun f => { f with mark := false })[index]?).any Fragment.mark = false
    rw [List.getElem?_map]
    cases h.fragments[index]? <;> rfl
  · rfl

theorem not_image_start (a d : Nat) : ¬ Image h (h.startState toStart) a d := by
  rintro (⟨o, hfwd⟩ | ⟨-, hm, -⟩)
  · obtain ⟨o', -, hcell⟩ := Option.map_eq_some_iff.mp hfwd
    cases hcell
  · exact Bool.false_ne_true ((isMarked_start a).symm.trans hm)

theorem graph_start (hl : h.Layout) (hf : h.Fresh toStart (classSize h.toSpaceClass)) :
    Graph h h.objects.toFinset.card 0 none (h.startState toStart) := by
  refine
    { inj := fun a _ d ha => absurd ha (not_image_start a d)
      kept := fun a o ha => .inl (by simp [Heap.startState, ha])
      pending := fun a d _ ha => absurd ha (not_image_start a d)
      done := fun a d _ ha => absurd ha (not_image_start a d)
      source := nofun
      budget_eq := ?_ }
  have hempty : imaged h (h.startState toStart) = ∅ := by
    refine Finset.eq_empty_of_forall_notMem fun a ha => ?_
    have hi : Inv h toStart ⟨.null, [], []⟩ _ 0 none (h.startState toStart) := inv_start hf
    obtain ⟨d, him⟩ := (mem_imaged_iff hl hi).mp ha
    exact not_image_start a d him
  rw [hempty]
  rfl

theorem copyLive_graph (hl : h.Layout) (hf : h.Fresh toStart (classSize h.toSpaceClass))
    (hwf : h.WellFormed roots) (hnone : h.NoneLooksForwarded roots) : wp (h.copyLive toStart roots)
      (fun roots' s => ∃ n i, (Inv h toStart roots 0 i none s ∧ Graph h n i none s) ∧
        s.queue i none = [] ∧ RootsAlong h (Image h s) (Boxed h toStart s) roots roots')
      (fun e => e = .toSpaceExhausted) (h.startState toStart) := by
  obtain ⟨hprimary, hvalues, hrefs⟩ := live_of_roots h roots
  simp only [Heap.copyLive, wp_bind, wp_pure]
  refine ((graph_rooting hl hf hwf.typed hnone _).roots ⟨inv_start hf, graph_start hl hf⟩ hprimary
    hvalues hrefs hwf.boxes).imp ?_
  rintro roots' s₁ ⟨hs₁, -, halong⟩
  have hfuel : h.objects.toFinset.card < h.objects.length + 1 :=
    Nat.lt_succ_of_le (List.toFinset_card_le _)
  refine ((graph_collecting hl hf hwf.typed hnone).drain hs₁ (.inl hfuel)).imp ?_
  rintro _ s₂ ⟨⟨n, i, hs₂, hcopied, hfrag⟩, hgrow⟩
  refine ⟨n, i, hs₂, ?_, halong.mono hgrow.1 hgrow.2⟩
  rw [GcState.queue, hcopied, hfrag]
  rfl

/-- Only live objects have images. -/
def ImagesLive (h : Heap) (roots : Roots) (s : GcState) : Prop :=
  ∀ a d, Image h s a d → ∃ kind, Live h roots kind a

theorem ImagesLive.forward (hl : h.Layout) (hf : h.Fresh toStart (classSize h.toSpaceClass))
    (ht : h.Typed roots) {boxes i : Nat}
    (hi : Inv h toStart roots boxes i hand s) (hd : ImagesLive h roots s) {kind : ValueKind}
    {p : Nat} (hlive : Live h roots kind p) :
    wp (cheneyForwardObject (h.toEnv toStart) kind p) (fun _ s' => ImagesLive h roots s')
      (fun _ => True) s := by
  obtain ⟨o, hp, -⟩ := ht kind p hlive
  have hout := forwardOutcome (h.toEnv toStart) kind p s
  unfold wp
  generalize cheneyForwardObject (h.toEnv toStart) kind p s = result at hout
  cases hout with
  | known | seen => exact hd
  | mark hc hget hm =>
    intro a d him
    rcases (image_marked hl hi hc hget hp _ a d).mp him with him | ⟨rfl, -⟩
    · exact hd a d him
    · exact ⟨kind, hlive⟩
  | copy hc hcell hfwd hk hfit =>
    intro a d him
    rcases (image_copied hl hf hi hlive.active hc hfit a d).mp him with ⟨him, -⟩ | ⟨rfl, -⟩
    · exact hd a d him
    · exact ⟨kind, hlive⟩
  | full | missing | mistyped | unread => trivial

theorem imagesLive_keeps (hl : h.Layout) (hf : h.Fresh toStart (classSize h.toSpaceClass))
    (ht : h.Typed roots) : Keeps h toStart roots (ImagesLive h roots) where
  forward := fun _ _ _ _ _ _ hi hd hlive => hd.forward hl hf ht hi hlive
  box := fun _ s slot hi hd _ => by
    have hout := boxOutcome (h.toEnv toStart) slot s
    unfold wp
    generalize copyScalarBoxToSpace (h.toEnv toStart) slot s = result at hout
    cases hout with
    | @copy word hw hfit =>
      exact fun a d him => hd a d ((image_boxed hl hf hi word hfit a d).mp him)
    | full | missing => trivial
  pop := fun _ hd => hd
  put := fun _ c o o' _ _ hi hd _ a d him =>
    hd a d ((image_put h o' (hi.hand_eq c o rfl) a d).mp him)

end Collect

/-! ## The sweep comes to an end -/

section Sweep

variable {h : Heap} {toStart size : Nat}

/-- The cells of stubs, as the copying loop left them. -/
def StubCells (h : Heap) (toStart size : Nat) (memory : Nat → Option Cell) : Prop :=
  ∀ p o, h.memory p = some o → h.inFragment p = false →
    memory p = some (.object o) ∨
      ∃ d, memory p = some (.forwarded d o) ∧ 16 ∣ d ∧ toStart ≤ d ∧ d < toStart + size

theorem StubCells.relink (hl : h.Layout) (hf : h.Fresh toStart size) {memory : Nat → Option Cell}
    (hm : StubCells h toStart size memory) {d : Nat} (h₁ : toStart ≤ d) (h₂ : d < toStart + size)
    (next : Nat) : StubCells h toStart size (setMsoNextAt memory d next) := by
  intro p o hp hfrag
  have hne : p ≠ d := by
    rintro rfl
    exact hf.not_mem (hl.active p o hp) ⟨h₁, h₂⟩
  have hsame : setMsoNextAt memory d next p = memory p := by
    unfold setMsoNextAt
    cases memory d with
    | none => rfl
    | some cell =>
      cases cell with
      | forwarded => rfl
      | object o' => exact Function.update_of_ne hne _ _
  rw [hsame]
  exact hm p o hp hfrag

theorem sharedOf_of_msoNext {o : Object} {next : Nat} (ho : o.msoNext? = some next) :
    ∃ shared, sharedOf o = some shared := by
  cases o with
  | procbin shared => exact ⟨shared, rfl⟩
  | resource shared => exact ⟨shared, rfl⟩
  | _ => cases ho

theorem msoSweep_ok (hl : h.Layout) (hf : h.Fresh toStart size) {current : Nat} {ps : List Nat}
    (hchain : Chain h current ps) {fuel : Nat} (hfuel : ps.length < fuel) {sweep : MsoSweep}
    (hm : StubCells h toStart size sweep.memory) :
    ∃ sweep', msoSweep fuel current sweep = .ok sweep' := by
  induction hchain generalizing fuel sweep with
  | nil =>
    cases fuel with
    | zero => cases hfuel
    | succ fuel => exact ⟨sweep, rfl⟩
  | @cons current next o ps hne hp hfrag hnext henc _ ih =>
    cases fuel with
    | zero => cases hfuel
    | succ fuel =>
      have hlt : ps.length < fuel := Nat.lt_of_succ_lt_succ hfuel
      obtain ⟨shared, hshared⟩ := sharedOf_of_msoNext hnext
      unfold msoSweep
      rw [if_neg hne]
      rcases hm _ o hp hfrag with hcell | ⟨d, hcell, hdvd, h₁, h₂⟩
      · simp only [hcell, Cell.content, hnext, hshared]
        split
        · next hfwd =>
          -- An owner is aligned, so an uncopied stub does not carry the tag.
          have : o.word0 % 16 = 0 := by
            cases o with
            | procbin shared' => exact Nat.mod_eq_zero_of_dvd henc
            | resource shared' => exact Nat.mod_eq_zero_of_dvd henc
            | _ => cases hnext
          have : (Cell.object o).word0 % 16 = 0 := this
          rw [this] at hfwd
          exact absurd hfwd (by decide)
        · exact ih hlt hm
      · have hdst : (Cell.forwarded d o).word0 / 16 * 16 = d := by
          show (d / 16 * 16 + tagFwd) / 16 * 16 = d
          unfold tagFwd
          omega
        have htag : (Cell.forwarded d o).word0 % 16 = tagFwd := by
          show (d / 16 * 16 + tagFwd) % 16 = tagFwd
          unfold tagFwd
          omega
        simp only [hcell, Cell.content, hnext, hshared]
        rw [if_pos htag, hdst]
        exact ih hlt (hm.relink hl hf h₁ h₂ _)

end Sweep

/-! ## Terms -/

namespace Object

/-- The object without its values and its link. -/
def shape : Object → Object
  | cons _ _ aliased => .cons .null 0 aliased
  | map entries => .map (entries.map fun _ => (.null, .null))
  | struct id slots => .struct id (slots.map fun slot =>
    match slot with
    | .value _ => .value .null
    | slot => slot)
  | closure denotationId arity haltKind code captures =>
    .closure denotationId arity haltKind code (captures.map fun _ => .null)
  | procbin shared _ byteOffset => .procbin shared 0 byteOffset
  | resource shared _ _ => .resource shared .null 0
  | o => o

variable {V : AnyValue → AnyValue → Prop} {o o' : Object}

theorem Like.values (ho : o.Like V o') : List.Forall₂ V o.values o'.values := by
  cases o with
  | cons =>
    cases o' with
    | cons => exact .cons ho.1 (.cons ho.2.1 .nil)
    | _ => exact absurd ho id
  | map entries =>
    cases o' with
    | map entries' =>
      have hes : List.Forall₂ (fun e e' => V e.1 e'.1 ∧ V e.2 e'.2) entries entries' := ho
      show List.Forall₂ V (entries.flatMap _) (entries'.flatMap _)
      induction hes with
      | nil => exact .nil
      | cons he hes ih => exact .cons he.1 (.cons he.2 (ih hes))
    | _ => exact absurd ho id
  | struct schemaId slots =>
    cases o' with
    | struct schemaId' slots' =>
      obtain ⟨-, hslots⟩ := ho
      show List.Forall₂ V (slots.filterMap slotValue?) (slots'.filterMap slotValue?)
      induction hslots with
      | nil => exact .nil
      | @cons slot slot' _ _ hslot _ ih =>
        cases slot with
        | value v =>
          cases slot' with
          | value v' => exact .cons hslot ih
          | rawI64 | rawF64 | rawBytes => exact absurd hslot id
        | rawI64 | rawF64 | rawBytes =>
          cases hslot
          exact ih
    | _ => exact absurd ho id
  | closure =>
    cases o' with
    | closure => exact ho.2
    | _ => exact absurd ho id
  | resource =>
    cases o' with
    | resource => exact .cons ho.2 .nil
    | _ => exact absurd ho id
  | bitstring | procbin | scalar => cases o' <;> first | exact absurd ho id | exact .nil

theorem map_const_of_forall₂ {α β : Type} {R : α → α → Prop} {xs ys : List α} (b : β)
    (hxs : List.Forall₂ R xs ys) : ys.map (fun _ => b) = xs.map fun _ => b := by
  rw [List.map_const', List.map_const', hxs.length_eq]

theorem Like.shape_eq (ho : o.Like V o') : o'.shape = o.shape := by
  cases o with
  | cons =>
    cases o' with
    | cons => rw [Object.shape, Object.shape, ho.2.2]
    | _ => exact absurd ho id
  | map =>
    cases o' with
    | map => rw [Object.shape, Object.shape, map_const_of_forall₂ _ ho]
    | _ => exact absurd ho id
  | struct schemaId slots =>
    cases o' with
    | struct schemaId' slots' =>
      obtain ⟨rfl, hslots⟩ := ho
      rw [Object.shape, Object.shape]
      congr 1
      induction hslots with
      | nil => rfl
      | @cons slot slot' _ _ hslot _ ih =>
        rw [List.map_cons, List.map_cons, ih]
        congr 1
        cases slot with
        | value v =>
          cases slot' with
          | value v' => rfl
          | rawI64 | rawF64 | rawBytes => exact absurd hslot id
        | rawI64 | rawF64 | rawBytes =>
          cases hslot
          rfl
    | _ => exact absurd ho id
  | closure =>
    cases o' with
    | closure =>
      obtain ⟨⟨rfl, rfl, rfl, rfl⟩, hcaptures⟩ := ho
      rw [Object.shape, Object.shape, map_const_of_forall₂ _ hcaptures]
    | _ => exact absurd ho id
  | bitstring =>
    cases o' with
    | bitstring =>
      obtain ⟨rfl, rfl⟩ := ho
      rfl
    | _ => exact absurd ho id
  | procbin =>
    cases o' with
    | procbin =>
      obtain ⟨rfl, rfl⟩ := ho
      rfl
    | _ => exact absurd ho id
  | resource =>
    cases o' with
    | resource => rw [Object.shape, Object.shape, ho.1]
    | _ => exact absurd ho id
  | scalar =>
    cases o' with
    | scalar => rw [show _ = _ from ho]
    | _ => exact absurd ho id

end Object

/-- What a root denotes, to a depth: pointers into the heap are followed, a box is the word it
holds, and everything else is what it is. -/
inductive Unfolding where
  | deep
  | leaf (v : AnyValue)
  | node (kind : ValueKind) (shape : Object) (parts : List Unfolding)
  | ref (r : AnyValueRef)
  | box (kind : ValueKind) (content : Object)

namespace Heap

def unfold (h : Heap) : Nat → AnyValue → Unfolding
  | 0, _ => .deep
  | depth + 1, .heapRef kind p =>
    match h.memory p with
    | some o => .node kind o.shape (o.values.map (h.unfold depth))
    | none => .leaf (.heapRef kind p)
  | _ + 1, v => .leaf v

def unfoldRef (h : Heap) (depth : Nat) : AnyValueRef → Unfolding
  | .heap kind p => h.unfold depth (.heapRef kind p)
  | .scalar kind slot =>
    match h.memory slot with
    | some o => .box kind o
    | none => .ref (.scalar kind slot)
  | r => .ref r

/-- What all the roots denote. -/
def unfoldRoots (h : Heap) (depth : Nat) (roots : Roots) : List Unfolding :=
  (h.unfold depth roots.primary :: roots.values.map (h.unfold depth)) ++
    roots.refs.map (h.unfoldRef depth)

end Heap

/-! ## What the roots reach -/

/-- The values the roots reach. -/
inductive Reached (h : Heap) (roots : Roots) : AnyValue → Prop where
  | primary : Reached h roots roots.primary
  | value {v} : v ∈ roots.values → Reached h roots v
  | ref {kind p} : .heap kind p ∈ roots.refs → Reached h roots (.heapRef kind p)
  | step {kind p o v} : Reached h roots (.heapRef kind p) → h.memory p = some o → v ∈ o.values →
      Reached h roots v

/-- What the roots reach off the heap is not in memory the allocator hands out. -/
def Heap.OffHeap (h : Heap) (roots : Roots) (start size : Nat) : Prop :=
  ∀ kind p, Reached h roots (.heapRef kind p) ∨ .scalar kind p ∈ roots.refs →
    h.isActive p = false → ¬ (start ≤ p ∧ p < start + size)

theorem Reached.live {h : Heap} {roots : Roots} (hl : h.Layout) {kind : ValueKind} {p : Nat}
    (hr : Reached h roots (.heapRef kind p)) (ha : h.isActive p) : Live h roots kind p := by
  generalize hv : AnyValue.heapRef kind p = v at hr
  induction hr generalizing kind p with
  | primary => exact .primary hv.symm ha
  | value hmem =>
    subst hv
    exact .value hmem ha
  | ref hmem =>
    cases hv
    exact .ref hmem ha
  | step _ hmem hval ih =>
    subst hv
    exact .step (ih (hl.active _ _ hmem) rfl) hmem hval ha

/-- After a collection a pointer leads to an object in to-space or in a fragment that was kept, and
not into the blocks that were freed; or it leads off the heap, as before. -/
def Placed (h h' : Heap) (d : Nat) : Prop :=
  (((h'.blockStart ≤ d ∧ d < h'.bumpTop) ∨ (h.inFragment d ∧ h'.inFragment d)) ∧
    ptrInFromSpace d h.fromRanges = false ∧ h'.memory d ≠ none) ∨
  (h.isActive d = false ∧ h'.isActive d = false)

/-- What the roots reached has moved along `move`, one to one. -/
structure Preserved (h h' : Heap) (roots roots' : Roots) (move : Nat → Nat → Prop) : Prop where
  unique : ∀ a d d', move a d → move a d' → d = d'
  inj : ∀ a b d, move a d → move b d → a = b
  along : RootsAlong h move
    (fun slot d => ∃ word, h.memory slot = some (.scalar word) ∧
      h'.memory d = some (.scalar word)) roots roots'
  objects : ∀ kind a, Live h roots kind a → ∃ d o o', move a d ∧ h.memory a = some o ∧
    h'.memory d = some o' ∧ o.Like (ValueAlong h move) o'
  terms : ∀ depth, h'.unfoldRoots depth roots' = h.unfoldRoots depth roots
  placed : ∀ kind d, Reached h' roots' (.heapRef kind d) ∨ .scalar kind d ∈ roots'.refs →
    Placed h h' d

/-! ## The end of a collection -/

/-- A collection that has come to its end: nothing is left to trace, and the chain of stubs has been
swept. -/
structure Finished (h : Heap) (toStart : Nat) (roots roots' : Roots) (n i : Nat) (s : GcState)
    (sweep : MsoSweep) : Prop where
  layout : h.Layout
  fresh : h.Fresh toStart (classSize h.toSpaceClass)
  offHeap : h.OffHeap roots toStart (classSize h.toSpaceClass)
  inv : Inv h toStart roots 0 i none s
  graph : Graph h n i none s
  empty : s.queue i none = []
  along : RootsAlong h (Image h s) (Boxed h toStart s) roots roots'
  imagesLive : ImagesLive h roots s
  relinked : ∀ a, Relinked (s.memory a) (sweep.memory a)
  layout' : (h.install toStart s sweep).Layout

theorem kept_of_isMarked {s : GcState} {p : Nat} (hm : s.isMarked p) :
    ∃ f ∈ s.kept, f.contains p := by
  unfold GcState.isMarked at hm
  split at hm
  · next index hindex =>
    obtain ⟨f, hget, hc⟩ := classifyFragment_get hindex
    rw [hget] at hm
    exact ⟨f, List.mem_filter.mpr ⟨List.mem_of_getElem? hget, hm⟩, hc⟩
  · exact absurd hm Bool.false_ne_true

theorem memory_of_not_active {h : Heap} (hl : h.Layout) {p : Nat} (ha : h.isActive p = false) :
    h.memory p = none := by
  cases hp : h.memory p with
  | none => rfl
  | some o => exact absurd (ha.symm.trans (hl.active p o hp)) Bool.false_ne_true

namespace Finished

variable {h : Heap} {toStart n i : Nat} {roots roots' : Roots} {s : GcState} {sweep : MsoSweep}

theorem memory (F : Finished h toStart roots roots' n i s sweep) {d : Nat} {o : Object}
    (hd : (toStart ≤ d ∧ d < s.free) ∨ ∃ f ∈ s.kept, f.contains d)
    (hcell : s.memory d = some (.object o)) : ∃ o', (h.install toStart s sweep).memory d = some o' ∧
      (o' = o ∨ ∃ next, o' = o.setMsoNext next) := by
  have hin : (toStart ≤ d ∧ d < s.free) ∨ s.kept.any (·.contains d) :=
    hd.imp id List.any_eq_true.mpr
  have hmem : (h.install toStart s sweep).memory d = (sweep.memory d).bind Heap.cellObject? :=
    if_pos hin
  rw [hmem]
  rcases F.relinked d with heq | ⟨o₁, next, h₁, h₂⟩
  · exact ⟨o, by rw [heq, hcell]; rfl, .inl rfl⟩
  · rw [hcell] at h₁
    cases h₁
    exact ⟨o.setMsoNext next, by rw [h₂]; rfl, .inr ⟨next, rfl⟩⟩

theorem image_in (F : Finished h toStart roots roots' n i s sweep) {a d : Nat}
    (him : Image h s a d) : (toStart ≤ d ∧ d < s.free) ∨ ∃ f ∈ s.kept, f.contains d := by
  rcases F.inv.image_place him with hin | ⟨rfl, hm⟩
  · exact .inl hin
  · exact .inr (kept_of_isMarked hm)

theorem object (F : Finished h toStart roots roots' n i s sweep) {a d : Nat} {o : Object}
    (him : Image h s a d) (ha : h.memory a = some o) :
    ∃ o', (h.install toStart s sweep).memory d = some o' ∧
      o.Like (ValueAlong h (Image h s)) o' := by
  obtain ⟨o₁, hcell, hlike⟩ := F.graph.done a d o him ha (by rw [F.empty]; exact List.not_mem_nil)
  obtain ⟨o', ho', hset⟩ := F.memory (F.image_in him) hcell
  refine ⟨o', ho', ?_⟩
  rcases hset with rfl | ⟨next, rfl⟩
  · exact hlike
  · exact hlike.setMsoNext next

theorem box (F : Finished h toStart roots roots' n i s sweep) {slot d : Nat}
    (hb : Boxed h toStart s slot d) : ∃ word, h.memory slot = some (.scalar word) ∧
      (h.install toStart s sweep).memory d = some (.scalar word) := by
  obtain ⟨word, hslot, hcell, hin⟩ := hb
  obtain ⟨o', ho', hset⟩ := F.memory (.inl hin) hcell
  refine ⟨word, hslot, ?_⟩
  rcases hset with rfl | ⟨next, rfl⟩
  · exact ho'
  · exact ho'

theorem not_active_of_off (F : Finished h toStart roots roots' n i s sweep) {p : Nat}
    (hoff : ¬ (toStart ≤ p ∧ p < toStart + classSize h.toSpaceClass))
    (ha : h.isActive p = false) : (h.install toStart s sweep).isActive p = false := by
  rw [Heap.isActive, Bool.and_eq_false_iff, decide_eq_false_iff_not, not_not] at ha ⊢
  refine ha.imp id fun ha => ?_
  obtain ⟨-, hfrag⟩ := Bool.or_eq_false_iff.mp ha
  refine Bool.or_eq_false_iff.mpr ⟨?_, ?_⟩
  · show ([(toStart, toStart + classSize h.toSpaceClass)].any fun r => r.1 ≤ p && p < r.2) = false
    simpa using hoff
  · rw [inFragment_install, List.any_eq_false]
    intro f hk hc
    obtain ⟨f₀, hf₀, hreg⟩ := F.inv.kept_region hk
    rw [← contains_congr hreg] at hc
    exact List.any_eq_false.mp hfrag f₀ hf₀ hc

theorem not_active (F : Finished h toStart roots roots' n i s sweep) {kind : ValueKind} {p : Nat}
    (hr : Reached h roots (.heapRef kind p) ∨ .scalar kind p ∈ roots.refs)
    (ha : h.isActive p = false) : (h.install toStart s sweep).isActive p = false :=
  F.not_active_of_off (F.offHeap kind p hr ha) ha

end Finished

/-! ## Images of what is reached -/

section Along

variable {h : Heap} {move boxed : Nat → Nat → Prop} {kind : ValueKind} {p : Nat}

theorem ValueAlong.image {v : AnyValue} (hv : ValueAlong h move (.heapRef kind p) v)
    (ha : h.isActive p) : ∃ d, move p d ∧ v = .heapRef kind d := by
  rw [ValueAlong, if_pos ha] at hv
  exact hv

theorem ValueAlong.eq_of_not_active {v : AnyValue} (hv : ValueAlong h move (.heapRef kind p) v)
    (ha : h.isActive p = false) : v = .heapRef kind p := by
  rw [ValueAlong, if_neg (by rw [ha]; exact Bool.false_ne_true)] at hv
  exact hv

theorem ValueAlong.source {v : AnyValue} {d : Nat} (hv : ValueAlong h move v (.heapRef kind d)) :
    ∃ p, v = .heapRef kind p ∧ ((h.isActive p ∧ move p d) ∨ (h.isActive p = false ∧ d = p)) := by
  cases v with
  | heapRef kind' p =>
    cases ha : h.isActive p with
    | true =>
      obtain ⟨d', hd', heq⟩ := hv.image ha
      cases heq
      exact ⟨p, rfl, .inl ⟨ha, hd'⟩⟩
    | false =>
      cases hv.eq_of_not_active ha
      exact ⟨_, rfl, .inr ⟨ha, rfl⟩⟩
  | null | emptyList | int | float | atom => cases hv

theorem RefAlong.value {r : AnyValueRef} (hr : RefAlong h move boxed (.heap kind p) r) :
    ∃ d, r = .heap kind d ∧ ValueAlong h move (.heapRef kind p) (.heapRef kind d) := by
  rw [RefAlong] at hr
  cases ha : h.isActive p with
  | true =>
    rw [ha] at hr
    obtain ⟨d, hd, rfl⟩ := hr
    exact ⟨d, rfl, .of_active ha hd⟩
  | false =>
    rw [ha] at hr
    exact ⟨p, hr, .of_not_active ha⟩

theorem RefAlong.source {r : AnyValueRef} {d : Nat} (hr : RefAlong h move boxed r (.heap kind d)) :
    ∃ p, r = .heap kind p ∧ ValueAlong h move (.heapRef kind p) (.heapRef kind d) := by
  cases r with
  | heap kind' p =>
    obtain ⟨d', heq, hv⟩ := hr.value
    cases heq
    exact ⟨p, rfl, hv⟩
  | scalar kind' slot =>
    rw [RefAlong] at hr
    split at hr
    · obtain ⟨d', -, heq⟩ := hr
      cases heq
    · cases hr
  | null | emptyList => cases hr

theorem RefAlong.source_scalar {r : AnyValueRef} {d : Nat}
    (hr : RefAlong h move boxed r (.scalar kind d)) : ∃ p, r = .scalar kind p ∧
      ((h.isActive p ∧ boxed p d) ∨ (h.isActive p = false ∧ d = p)) := by
  cases r with
  | heap kind' p =>
    obtain ⟨d', heq, hv⟩ := hr.value
    cases heq
  | scalar kind' slot =>
    rw [RefAlong] at hr
    cases ha : h.isActive slot with
    | true =>
      rw [ha] at hr
      obtain ⟨d', hd', heq⟩ := hr
      cases heq
      exact ⟨slot, rfl, .inl ⟨ha, hd'⟩⟩
    | false =>
      rw [ha] at hr
      cases hr
      exact ⟨_, rfl, .inr ⟨ha, rfl⟩⟩
  | null | emptyList => cases hr

end Along

namespace Finished

variable {h : Heap} {toStart n i : Nat} {roots roots' : Roots} {s : GcState} {sweep : MsoSweep}

theorem image_of_live (F : Finished h toStart roots roots' n i s sweep) {kind : ValueKind} {p : Nat}
    (hlive : Live h roots kind p) : ∃ d, Image h s p d := by
  have himage {kind : ValueKind} {p : Nat} {v : AnyValue} (ha : h.isActive p)
      (hv : ValueAlong h (Image h s) (.heapRef kind p) v) : ∃ d, Image h s p d := by
    obtain ⟨d, him, -⟩ := hv.image ha
    exact ⟨d, him⟩
  induction hlive with
  | primary hr ha => exact himage ha (hr ▸ F.along.primary)
  | value hr ha =>
    obtain ⟨v, -, hv⟩ := exists_of_forall₂_left F.along.values hr
    exact himage ha hv
  | ref hr ha =>
    obtain ⟨r, -, hr'⟩ := exists_of_forall₂_left F.along.refs hr
    obtain ⟨d, -, hv⟩ := hr'.value
    exact himage ha hv
  | step _ hmem hval ha ih =>
    obtain ⟨d, him⟩ := ih
    obtain ⟨o', -, hlike⟩ := F.object him hmem
    obtain ⟨v, -, hv⟩ := exists_of_forall₂_left hlike.values hval
    exact himage ha hv

theorem unfold (F : Finished h toStart roots roots' n i s sweep) (depth : Nat) {v v' : AnyValue}
    (hr : Reached h roots v) (hv : ValueAlong h (Image h s) v v') :
    (h.install toStart s sweep).unfold depth v' = h.unfold depth v := by
  induction depth generalizing v v' with
  | zero => rfl
  | succ depth ih =>
    cases v with
    | heapRef kind p =>
      cases ha : h.isActive p with
      | true =>
        obtain ⟨d, him, rfl⟩ := hv.image ha
        obtain ⟨o, ho⟩ := F.inv.image_source him
        obtain ⟨o', ho', hlike⟩ := F.object him ho
        have hparts : o'.values.map ((h.install toStart s sweep).unfold depth) =
            o.values.map (h.unfold depth) :=
          map_eq_of_forall₂ hlike.values fun w hw w' hww' => ih (.step hr ho hw) hww'
        simp only [Heap.unfold, ho, ho', hlike.shape_eq, hparts]
      | false =>
        cases hv.eq_of_not_active ha
        have ha' := F.not_active (.inl hr) ha
        simp only [Heap.unfold, memory_of_not_active F.layout ha,
          memory_of_not_active F.layout' ha']
    | null | emptyList | int | float | atom => rw [show v' = _ from hv]; rfl

theorem unfoldRef (F : Finished h toStart roots roots' n i s sweep) (depth : Nat)
    {r r' : AnyValueRef} (hmem : r ∈ roots.refs)
    (hr : RefAlong h (Image h s) (Boxed h toStart s) r r') :
    (h.install toStart s sweep).unfoldRef depth r' = h.unfoldRef depth r := by
  cases r with
  | heap kind p =>
    obtain ⟨d, rfl, hv⟩ := hr.value
    exact F.unfold depth (.ref hmem) hv
  | scalar kind slot =>
    rw [RefAlong] at hr
    cases ha : h.isActive slot with
    | true =>
      rw [ha] at hr
      obtain ⟨d, hb, rfl⟩ := hr
      obtain ⟨word, hslot, hd⟩ := F.box hb
      simp only [Heap.unfoldRef, hslot, hd]
    | false =>
      rw [ha] at hr
      cases hr
      have ha' := F.not_active (.inr hmem) ha
      simp only [Heap.unfoldRef, memory_of_not_active F.layout ha,
        memory_of_not_active F.layout' ha']
  | null | emptyList =>
    cases hr
    rfl

theorem reached (F : Finished h toStart roots roots' n i s sweep) {v' : AnyValue}
    (hr : Reached (h.install toStart s sweep) roots' v') :
    ∃ v, Reached h roots v ∧ ValueAlong h (Image h s) v v' := by
  induction hr with
  | primary => exact ⟨_, .primary, F.along.primary⟩
  | value hmem =>
    obtain ⟨v, hv, halong⟩ := exists_of_forall₂_right F.along.values hmem
    exact ⟨v, .value hv, halong⟩
  | ref hmem =>
    obtain ⟨r, hr, halong⟩ := exists_of_forall₂_right F.along.refs hmem
    obtain ⟨p, rfl, hv⟩ := halong.source
    exact ⟨_, .ref hr, hv⟩
  | @step kind d o' w _ hmem hval ih =>
    obtain ⟨v, hv, halong⟩ := ih
    obtain ⟨p, rfl, ⟨ha, him⟩ | ⟨ha, rfl⟩⟩ := halong.source
    · obtain ⟨o, ho⟩ := F.inv.image_source him
      obtain ⟨o₁, ho₁, hlike⟩ := F.object him ho
      rw [hmem] at ho₁
      cases ho₁
      obtain ⟨u, hu, huw⟩ := exists_of_forall₂_right hlike.values hval
      exact ⟨u, .step hv ho hu, huw⟩
    · have ha' := F.not_active (.inl hv) ha
      rw [memory_of_not_active F.layout' ha'] at hmem
      cases hmem

theorem placed_of_in (F : Finished h toStart roots roots' n i s sweep) {d : Nat}
    (hd : (toStart ≤ d ∧ d < s.free) ∨ ∃ f ∈ s.kept, f.contains d)
    (hmem : (h.install toStart s sweep).memory d ≠ none) :
    Placed h (h.install toStart s sweep) d := by
  have hle := F.inv.free_le
  rcases hd with hin | ⟨f, hk, hc⟩
  · refine .inl ⟨.inl hin, List.any_eq_false.mpr fun r hr hr' => ?_, hmem⟩
    simp only [Bool.and_eq_true, decide_eq_true_eq] at hr'
    rcases F.fresh.apart r (List.mem_append_left _ hr) with h₁ | h₁ <;> simp only at h₁ <;> omega
  · obtain ⟨f₀, hf₀, hreg⟩ := F.inv.kept_region hk
    have hc₀ : f₀.contains d := (contains_congr hreg d).trans hc
    have hfrag : h.inFragment d := List.any_eq_true.mpr ⟨f₀, hf₀, hc₀⟩
    have hfrag' : (h.install toStart s sweep).inFragment d := by
      rw [inFragment_install]
      exact List.any_eq_true.mpr ⟨f, hk, hc⟩
    refine .inl ⟨.inr ⟨hfrag, hfrag'⟩, List.any_eq_false.mpr fun r hr hr' => ?_, hmem⟩
    simp only [Bool.and_eq_true, decide_eq_true_eq] at hr'
    have happ := (List.pairwise_append.mp F.layout.apart).2.2 r hr _ (List.mem_map_of_mem hf₀)
    have hc₀ := contains_iff.mp hc₀
    rcases happ with h₁ | h₁ <;> simp only at h₁ <;> omega

theorem placed (F : Finished h toStart roots roots' n i s sweep) {kind : ValueKind} {d : Nat}
    (hr : Reached (h.install toStart s sweep) roots' (.heapRef kind d) ∨
      .scalar kind d ∈ roots'.refs) : Placed h (h.install toStart s sweep) d := by
  rcases hr with hr | hr
  · obtain ⟨v, hv, halong⟩ := F.reached hr
    obtain ⟨p, rfl, ⟨-, him⟩ | ⟨ha, rfl⟩⟩ := halong.source
    · obtain ⟨o, ho⟩ := F.inv.image_source him
      obtain ⟨o', ho', -⟩ := F.object him ho
      exact F.placed_of_in (F.image_in him) (by rw [ho']; exact Option.some_ne_none o')
    · exact .inr ⟨ha, F.not_active (.inl hv) ha⟩
  · obtain ⟨r, hmem, halong⟩ := exists_of_forall₂_right F.along.refs hr
    obtain ⟨p, rfl, ⟨-, hb⟩ | ⟨ha, rfl⟩⟩ := halong.source_scalar
    · obtain ⟨word, -, hd⟩ := F.box hb
      obtain ⟨-, -, -, hin⟩ := hb
      exact F.placed_of_in (.inl hin) (by rw [hd]; exact Option.some_ne_none _)
    · exact .inr ⟨ha, F.not_active (.inr hmem) ha⟩

theorem preserved (F : Finished h toStart roots roots' n i s sweep) (ht : h.Typed roots) :
    Preserved h (h.install toStart s sweep) roots roots' (Image h s) where
  unique := fun _ _ _ => F.inv.image_unique
  inj := F.graph.inj
  along := F.along.mono (fun _ _ him => him) fun _ _ => F.box
  objects := fun kind a hlive => by
    obtain ⟨d, him⟩ := F.image_of_live hlive
    obtain ⟨o, ho, -⟩ := ht kind a hlive
    obtain ⟨o', ho', hlike⟩ := F.object him ho
    exact ⟨d, o, o', him, ho, ho', hlike⟩
  terms := fun depth => by
    have hvalues := map_eq_of_forall₂ F.along.values fun v hv v' => F.unfold depth (.value hv)
    have hrefs := map_eq_of_forall₂ F.along.refs fun r hr r' => F.unfoldRef depth hr
    rw [Heap.unfoldRoots, Heap.unfoldRoots, F.unfold depth .primary F.along.primary, hvalues, hrefs]
  placed := fun _ _ => F.placed

end Finished

theorem Graph.stubCells {h : Heap} {toStart n i : Nat} {roots : Roots} {s : GcState}
    (hi : Inv h toStart roots 0 i none s) (hg : Graph h n i none s) :
    StubCells h toStart (classSize h.toSpaceClass) s.memory := by
  intro p o hp hfrag
  rcases hg.kept p o hp with hcell | ⟨d, hfwd⟩ | hm
  · exact .inl hcell
  · obtain ⟨-, -, h₁, h₂, hdvd⟩ := hi.forwarded p d o hfwd
    exact .inr ⟨d, hfwd, hdvd, h₁, Nat.lt_of_lt_of_le h₂ hi.free_le⟩
  · exact absurd (hfrag.symm.trans (inFragment_of_isMarked hi.fragments hm)) Bool.false_ne_true

theorem gc_finished {h : Heap} {toStart : Nat} {roots : Roots} (hl : h.Layout)
    (hf : h.Fresh toStart (classSize h.toSpaceClass))
    (hoff : h.OffHeap roots toStart (classSize h.toSpaceClass)) (hwf : h.WellFormed roots)
    (hnone : h.NoneLooksForwarded roots) (hgc : h.gc toStart roots ≠ .error .toSpaceExhausted) :
    ∃ roots' n i s sweep, h.gc toStart roots = .ok (h.install toStart s sweep, roots') ∧
      Finished h toStart roots roots' n i s sweep := by
  have hgraph := copyLive_graph hl hf hwf hnone
  cases hcopy : h.copyLive toStart roots (h.startState toStart) with
  | error e =>
    cases hgraph.error hcopy
    refine absurd ?_ hgc
    unfold Heap.gc
    rw [hcopy]
    rfl
  | ok r =>
    obtain ⟨roots', s⟩ := r
    obtain ⟨n, i, ⟨hi, hg⟩, hq, halong⟩ := hgraph.ok hcopy
    obtain ⟨ps, hchain, hlen⟩ := hwf.chain
    have hcells : StubCells h toStart _ (MsoSweep.mk 0 s.memory []).memory := hg.stubCells hi
    obtain ⟨sweep, hsweep⟩ := msoSweep_ok hl hf hchain (Nat.lt_succ_of_le hlen) hcells
    have hok : h.gc toStart roots = .ok (h.install toStart s sweep, roots') := by
      unfold Heap.gc
      rw [hcopy]
      show (msoSweep _ _ _ >>= _) = _
      rw [hsweep]
      rfl
    obtain ⟨-, -, himages⟩ := ((imagesLive_keeps hl hf hwf.typed).copyLive hl hf
      fun a d him => absurd him (not_image_start a d)).ok hcopy
    exact ⟨roots', n, i, s, sweep, hok,
      { layout := hl, fresh := hf, offHeap := hoff, inv := hi, graph := hg, empty := hq,
        along := halong, imagesLive := himages, relinked := msoSweep_relinked hsweep,
        layout' := gc_layout hl hf hok }⟩

/-- A collection that takes no object for a forwarded one and does not run out of to-space
preserves the object graph. -/
theorem gc_preserves {h : Heap} {toStart : Nat} {roots : Roots} (hl : h.Layout)
    (hf : h.Fresh toStart (classSize h.toSpaceClass))
    (hoff : h.OffHeap roots toStart (classSize h.toSpaceClass)) (hwf : h.WellFormed roots)
    (hnone : h.NoneLooksForwarded roots) (hgc : h.gc toStart roots ≠ .error .toSpaceExhausted) :
    ∃ h' roots' move, h.gc toStart roots = .ok (h', roots') ∧ Preserved h h' roots roots' move := by
  obtain ⟨roots', n, i, s, sweep, hok, F⟩ := gc_finished hl hf hoff hwf hnone hgc
  exact ⟨_, roots', Image h s, hok, F.preserved hwf.typed⟩

theorem oneCell_wellFormed : oneCell.WellFormed (valueRoots [.heapRef .list 65536]) where
  typed := oneCell_typed
  boxes := nofun
  chain := ⟨[], .nil, Nat.zero_le _⟩

theorem oneCell_offHeap (size : Nat) :
    oneCell.OffHeap (valueRoots [.heapRef .list 65536]) 131072 size := by
  rintro kind p (hr | hr) ha hin
  · generalize hv : AnyValue.heapRef kind p = v at hr
    -- Only the cell and the empty tail are reached.
    have hp : v = .null ∨ v = .heapRef .list 65536 ∨ v = .int 1 ∨ v = .heapRef .list 0 := by
      clear hv
      induction hr with
      | primary => exact .inl rfl
      | value hmem => exact .inr (.inl (List.mem_singleton.mp hmem))
      | ref hmem => cases hmem
      | step _ hmem hval ih =>
        rcases ih with heq | heq | heq | heq <;> cases heq
        · rw [oneCell_memory] at hmem
          cases hmem
          exact .inr (.inr (by simpa [Object.values] using hval))
        · cases hmem
    subst hv
    rcases hp with heq | heq | heq | heq <;> cases heq <;> omega
  · cases hr

theorem oneCell_gc_ne : oneCell.gc 131072 (valueRoots [.heapRef .list 65536]) ≠
    .error .toSpaceExhausted := by
  intro hgc
  have hok : (oneCell.gc 131072 (valueRoots [.heapRef .list 65536])).isOk = true := by decide
  rw [hgc] at hok
  cases hok

/-- The collection of a list cell. -/
theorem cell_preserved : ∃ h' roots' move,
    oneCell.gc 131072 (valueRoots [.heapRef .list 65536]) = .ok (h', roots') ∧
      Preserved oneCell h' (valueRoots [.heapRef .list 65536]) roots' move :=
  gc_preserves (oneObject_layout (by decide)) (by decide) (oneCell_offHeap _) oneCell_wellFormed
    oneCell_noneLooksForwarded oneCell_gc_ne

/-- At the end the objects that were copied are those that the roots reach. -/
theorem Finished.copiedSet_eq {h : Heap} {toStart n i : Nat} {roots roots' : Roots} {s : GcState}
    {sweep : MsoSweep} (F : Finished h toStart roots roots' n i s sweep) :
    copiedSet h s = h.liveSet roots := by
  refine Finset.Subset.antisymm F.inv.copiedSet_subset fun p hp => ?_
  classical
  obtain ⟨hmem, hfrag, kind, o, hlive, -, -⟩ := Finset.mem_filter.mp hp
  obtain ⟨d, ⟨o', hfwd⟩ | ⟨-, hm, -⟩⟩ := F.image_of_live hlive
  · exact mem_copiedSet.mpr ⟨List.mem_toFinset.mp hmem, d, o', hfwd⟩
  · exact absurd (hfrag.symm.trans (inFragment_of_isMarked F.inv.fragments hm)) Bool.false_ne_true

end Fz.Gc
