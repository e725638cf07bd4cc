import Fz.Base.Except
import Fz.Base.Wp
import Fz.Gc.Live

/-!
# Proof rules for the collector

`ForwardOutcome` says once what forwarding a pointer can do.  A property of collector states that
forwarding keeps, together with the pointers it relates to their images, is a `Forwarding`; the
rules below carry it through the lists of values, the slots of an object and the roots.
`Collecting` adds what is needed to go through the loop of `drain`: the object in hand is taken
from a queue, its values are forwarded, and the result is put back.
-/

namespace Fz.Gc

open Fz.Base Fz.Terms
open Fz.Terms (ValueKind AnyValue FieldSlot)

/-! ## What forwarding a pointer can do -/

/-- The state after a fragment is marked and its object queued. -/
def GcState.marked (s : GcState) (index : Nat) (f : Fragment) (c : CopiedObject) : GcState :=
  { s with
    fragments := s.fragments.set index { f with mark := true }
    fragQueue := s.fragQueue ++ [c] }

/-- The state after the object at `p` is copied. -/
def GcState.copied (s : GcState) (p : Nat) (o : Object) (kind : ValueKind) : GcState :=
  { s with
    free := s.free + o.size
    memory := Function.update (Function.update s.memory s.free (some (.object o))) p
      (some (.forwarded s.free o))
    copiedObjects := s.copiedObjects ++ [⟨s.free, kind⟩] }

inductive ForwardOutcome (env : GcEnv) (kind : ValueKind) (p : Nat) (s : GcState) :
    Except GcStop (Nat × GcState) → Prop where
  | known {index f} : classifyFragment p s.fragments = some index →
      s.fragments[index]? = some f → f.mark = true → ForwardOutcome env kind p s (.ok (p, s))
  | mark {index f} : classifyFragment p s.fragments = some index →
      s.fragments[index]? = some f → f.mark = false →
      ForwardOutcome env kind p s (.ok (p, s.marked index f ⟨p, kind⟩))
  | seen {cell d} : classifyFragment p s.fragments = none → s.memory p = some cell →
      forwardedAs kind cell = some d → ForwardOutcome env kind p s (.ok (d, s))
  | copy {o} : classifyFragment p s.fragments = none → s.memory p = some (.object o) →
      forwardedAs kind (.object o) = none → o.hasKind kind → s.free + o.size ≤ env.toEnd →
      ForwardOutcome env kind p s (.ok (s.free, s.copied p o kind))
  | full {o} : classifyFragment p s.fragments = none → s.memory p = some (.object o) →
      forwardedAs kind (.object o) = none → o.hasKind kind → env.toEnd < s.free + o.size →
      ForwardOutcome env kind p s (.error .toSpaceExhausted)
  | missing : classifyFragment p s.fragments = none → s.memory p = none →
      ForwardOutcome env kind p s (.error .broken)
  | mistyped {o} : classifyFragment p s.fragments = none → s.memory p = some (.object o) →
      o.hasKind kind = false → ForwardOutcome env kind p s (.error .broken)
  | unread {d o} : classifyFragment p s.fragments = none → s.memory p = some (.forwarded d o) →
      forwardedAs kind (.forwarded d o) = none → ForwardOutcome env kind p s (.error .broken)

variable {s : GcState}

theorem markFragmentForTracing_none {p : Nat} (kind : ValueKind)
    (hc : classifyFragment p s.fragments = none) :
    markFragmentForTracing p kind s = .ok (false, s) := by
  rw [markFragmentForTracing, StateT.get_bind_run, hc]
  rfl

theorem markFragmentForTracing_some {p : Nat} {index : Nat} {f : Fragment}
    (kind : ValueKind) (hc : classifyFragment p s.fragments = some index)
    (hf : s.fragments[index]? = some f) : markFragmentForTracing p kind s =
      .ok (true, if f.mark then s else s.marked index f ⟨p, kind⟩) := by
  rw [markFragmentForTracing, StateT.get_bind_run, hc]
  dsimp only
  rw [hf]
  obtain ⟨ptr, size, mark⟩ := f
  cases mark with
  | true => rfl
  | false => rfl

theorem classifyFragment_get {p : Nat} {fs : List Fragment} {index : Nat}
    (hc : classifyFragment p fs = some index) : ∃ f, fs[index]? = some f ∧ f.contains p = true := by
  obtain ⟨hlt, hp, -⟩ := List.findIdx?_eq_some_iff_getElem.mp hc
  exact ⟨fs[index], List.getElem?_eq_getElem hlt, hp⟩

theorem copyObjectToSpace_ok {env : GcEnv} {size : Nat}
    (hfit : s.free + size ≤ env.toEnd) :
    copyObjectToSpace env size s = .ok (s.free, { s with free := s.free + size }) := by
  show (if s.free + size ≤ env.toEnd then _ else _ : GcM Nat) s = _
  rw [if_pos hfit]
  rfl

theorem copyObjectToSpace_full {env : GcEnv} {size : Nat} (hfull : env.toEnd < s.free + size) :
    copyObjectToSpace env size s = .error .toSpaceExhausted := by
  show (if s.free + size ≤ env.toEnd then _ else _ : GcM Nat) s = _
  rw [if_neg (Nat.not_le.mpr hfull)]
  rfl

theorem copyWithForwarding_ok {env : GcEnv} {p : Nat} {o : Object}
    {kind : ValueKind} (hfit : s.free + o.size ≤ env.toEnd) :
    copyWithForwarding env p o kind s = .ok (s.free, s.copied p o kind) := by
  show (copyObjectToSpace env o.size s >>= _ : Except GcStop (Nat × GcState)) = _
  rw [copyObjectToSpace_ok hfit]
  rfl

theorem copyWithForwarding_full {env : GcEnv} {p : Nat} {o : Object}
    {kind : ValueKind} (hfull : env.toEnd < s.free + o.size) :
    copyWithForwarding env p o kind s = .error .toSpaceExhausted := by
  show (copyObjectToSpace env o.size s >>= _ : Except GcStop (Nat × GcState)) = _
  rw [copyObjectToSpace_full hfull]
  rfl

theorem forwardOutcome (env : GcEnv) (kind : ValueKind) (p : Nat) (s : GcState) :
    ForwardOutcome env kind p s (cheneyForwardObject env kind p s) := by
  show ForwardOutcome env kind p s (markFragmentForTracing p kind s >>= fun r => _)
  cases hc : classifyFragment p s.fragments with
  | some index =>
    obtain ⟨f, hf, -⟩ := classifyFragment_get hc
    rw [markFragmentForTracing_some kind hc hf]
    cases hm : f.mark with
    | true => exact .known hc hf hm
    | false => exact .mark hc hf hm
  | none =>
    rw [markFragmentForTracing_none kind hc]
    show ForwardOutcome env kind p s ((get >>= fun s => _ : GcM Nat) s)
    rw [StateT.get_bind_run]
    cases hcell : s.memory p with
    | none => exact .missing hc hcell
    | some cell =>
      dsimp only
      cases hfwd : forwardedAs kind cell with
      | some d => exact .seen hc hcell hfwd
      | none =>
        cases cell with
        | forwarded d o => exact .unread hc hcell hfwd
        | object o =>
          dsimp only
          by_cases hk : o.hasKind kind
          · rw [if_pos hk]
            by_cases hfit : s.free + o.size ≤ env.toEnd
            · rw [copyWithForwarding_ok hfit]
              exact .copy hc hcell hfwd hk hfit
            · rw [copyWithForwarding_full (Nat.lt_of_not_le hfit)]
              exact .full hc hcell hfwd hk (Nat.lt_of_not_le hfit)
          · rw [if_neg hk]
            exact .mistyped hc hcell (Bool.eq_false_iff.mpr hk)

/-! ## Properties that forwarding keeps -/

/-- A property `P` of states that forwarding keeps for the pointers in `L`, where `image` relates
a pointer to what it became.  `grows` orders the states of a collection. -/
structure Forwarding (env : GcEnv) (h : Heap) (P : GcState → Prop)
    (grows : GcState → GcState → Prop) (image : GcState → Nat → Nat → Prop)
    (L : ValueKind → Nat → Prop) (E : GcStop → Prop) : Prop where
  ranges : env.fromRanges = h.fromRanges
  fragments : ∀ s, P s → s.fragments.map Fragment.region = h.fragments.map Fragment.region
  refl : ∀ s, grows s s
  trans : ∀ s s' s'', grows s s' → grows s' s'' → grows s s''
  mono : ∀ s s' a b, grows s s' → image s a b → image s' a b
  forward : ∀ s kind p, P s → L kind p → h.isActive p →
    wp (cheneyForwardObject env kind p) (fun d s' => P s' ∧ grows s s' ∧ image s' p d) E s

/-- The pointers into the heap among some values. -/
def PointersIn (h : Heap) (L : ValueKind → Nat → Prop) (vs : List AnyValue) : Prop :=
  ∀ kind p, .heapRef kind p ∈ vs → h.isActive p → L kind p

theorem PointersIn.of_subset {h : Heap} {L : ValueKind → Nat → Prop} {vs ws : List AnyValue}
    (hws : PointersIn h L ws) (hsub : ∀ v ∈ vs, v ∈ ws) : PointersIn h L vs :=
  fun kind p hp => hws kind p (hsub _ hp)

namespace Forwarding

variable {env : GcEnv} {h : Heap} {P : GcState → Prop} {grows : GcState → GcState → Prop}
  {image : GcState → Nat → Nat → Prop} {L : ValueKind → Nat → Prop} {E : GcStop → Prop}
  (F : Forwarding env h P grows image L E) {s : GcState}

include F

theorem along {s' : GcState} (hg : grows s s') {v v' : AnyValue}
    (hv : ValueAlong h (image s) v v') : ValueAlong h (image s') v v' :=
  hv.mono fun a b => F.mono s s' a b hg

theorem active_eq (hs : P s) (p : Nat) : isActiveFromSpaceObject env p s.fragments = h.isActive p :=
  isActive_eq F.ranges (F.fragments s hs) p

theorem heapValue {v : AnyValue} (hs : P s) (hv : PointersIn h L [v]) : wp (forwardHeapValue env v)
      (fun v' s' => P s' ∧ grows s s' ∧ ValueAlong h (image s') v v') E s := by
  cases v with
  | null | emptyList | int | float | atom => exact ⟨hs, F.refl s, rfl⟩
  | heapRef kind p =>
    simp only [forwardHeapValue, wp_bind, wp_get]
    rw [F.active_eq hs]
    cases ha : h.isActive p with
    | false =>
      exact ⟨hs, F.refl s, ValueAlong.of_not_active ha⟩
    | true =>
      rw [if_pos rfl]
      simp only [wp_bind, wp_pure]
      refine (F.forward s kind p hs (hv kind p (List.mem_singleton.mpr rfl) ha) ha).imp ?_
      rintro d s' ⟨hP, hgrow, hd⟩
      exact ⟨hP, hgrow, ValueAlong.of_active ha hd⟩

theorem all {vs : List AnyValue} (hs : P s) (hvs : PointersIn h L vs) : wp (forwardAll env vs)
      (fun vs' s' => P s' ∧ grows s s' ∧ List.Forall₂ (ValueAlong h (image s')) vs vs') E s := by
  induction vs generalizing s with
  | nil => exact ⟨hs, F.refl s, .nil⟩
  | cons v vs ih =>
    simp only [forwardAll, wp_bind, wp_pure]
    have hv : PointersIn h L [v] := hvs.of_subset (by simp)
    have hrest : PointersIn h L vs := hvs.of_subset (by simp +contextual)
    refine (F.heapValue hs hv).imp ?_
    rintro v' s₁ ⟨hs₁, hg₁, hv'⟩
    refine (ih hs₁ hrest).imp ?_
    rintro vs' s₂ ⟨hs₂, hg₂, hvs'⟩
    exact ⟨hs₂, F.trans _ _ _ hg₁ hg₂, .cons (F.along hg₂ hv') hvs'⟩

theorem entries {es : List (AnyValue × AnyValue)} (hs : P s)
    (hes : PointersIn h L (es.flatMap fun e => [e.1, e.2])) : wp (forwardEntries env es)
      (fun es' s' => P s' ∧ grows s s' ∧ List.Forall₂ (fun e e' =>
        ValueAlong h (image s') e.1 e'.1 ∧ ValueAlong h (image s') e.2 e'.2) es es') E s := by
  induction es generalizing s with
  | nil => exact ⟨hs, F.refl s, .nil⟩
  | cons e es ih =>
    obtain ⟨key, value⟩ := e
    simp only [forwardEntries, wp_bind, wp_pure]
    have hkey : PointersIn h L [key] := hes.of_subset (by simp)
    have hvalue : PointersIn h L [value] := hes.of_subset (by simp)
    have hrest : PointersIn h L (es.flatMap fun e => [e.1, e.2]) :=
      hes.of_subset fun v hv => by
        rw [List.flatMap_cons]
        exact List.mem_append_right _ hv
    refine (F.heapValue hs hkey).imp ?_
    rintro key' s₁ ⟨hs₁, hg₁, hkey'⟩
    refine (F.heapValue hs₁ hvalue).imp ?_
    rintro value' s₂ ⟨hs₂, hg₂, hvalue'⟩
    refine (ih hs₂ hrest).imp ?_
    rintro es' s₃ ⟨hs₃, hg₃, hes'⟩
    have hg := F.trans _ _ _ hg₂ hg₃
    exact ⟨hs₃, F.trans _ _ _ hg₁ hg, .cons ⟨F.along hg hkey', F.along hg₃ hvalue'⟩ hes'⟩

theorem slots {slots : List FieldSlot} (hs : P s)
    (hslots : PointersIn h L (slots.filterMap slotValue?)) : wp (forwardSlots env slots)
      (fun slots' s' => P s' ∧ grows s s' ∧
        List.Forall₂ (SlotLike (ValueAlong h (image s'))) slots slots') E s := by
  induction slots generalizing s with
  | nil => exact ⟨hs, F.refl s, .nil⟩
  | cons slot slots ih =>
    cases slot with
    | value v =>
      simp only [forwardSlots, wp_bind, wp_pure]
      have hv : PointersIn h L [v] := hslots.of_subset (by simp [slotValue?])
      have hrest : PointersIn h L (slots.filterMap slotValue?) :=
        hslots.of_subset fun w hw => List.mem_cons_of_mem v hw
      refine (F.heapValue hs hv).imp ?_
      rintro v' s₁ ⟨hs₁, hg₁, hv'⟩
      refine (ih hs₁ hrest).imp ?_
      rintro slots' s₂ ⟨hs₂, hg₂, hslots'⟩
      exact ⟨hs₂, F.trans _ _ _ hg₁ hg₂, .cons (F.along hg₂ hv') hslots'⟩
    | rawI64 | rawF64 | rawBytes =>
      simp only [forwardSlots, wp_bind, wp_pure]
      refine (ih hs hslots).imp ?_
      rintro slots' s₁ ⟨hs₁, hg₁, hslots'⟩
      exact ⟨hs₁, hg₁, .cons rfl hslots'⟩

/-- The values of an object are forwarded, each to its own place. -/
theorem object {o : Object} {kind : ValueKind} (hs : P s) (hk : o.hasKind kind)
    (ho : PointersIn h L o.values) : wp (traced env o)
      (fun o' s' => P s' ∧ grows s s' ∧ o.Like (ValueAlong h (image s')) o') E s := by
  cases o with
  | cons head tail aliased =>
    have hhead : PointersIn h L [head] := ho.of_subset (by simp [Object.values])
    have htail : PointersIn h L [.heapRef .list tail] := ho.of_subset (by simp [Object.values])
    simp only [traced, cheneyTraceList, wp_bind]
    refine (F.heapValue hs hhead).imp ?_
    rintro head' s₁ ⟨hs₁, hg₁, hhead'⟩
    by_cases hz : tail = 0
    · subst hz
      rw [if_pos rfl]
      exact ⟨hs₁, hg₁, hhead', ValueAlong.of_not_active (by simp [Heap.isActive]), rfl⟩
    · rw [if_neg hz]
      simp only [wp_bind, wp_pure]
      refine (F.heapValue hs₁ htail).imp ?_
      rintro tail' s₂ ⟨hs₂, hg₂, htail'⟩
      refine ⟨hs₂, F.trans _ _ _ hg₁ hg₂, F.along hg₂ hhead', ?_, rfl⟩
      rw [ValueAlong] at htail' ⊢
      split at htail'
      · next ha =>
        obtain ⟨d, hd, rfl⟩ := htail'
        rw [if_pos ha]
        exact ⟨d, hd, rfl⟩
      · next ha =>
        subst htail'
        rw [if_neg ha]
        rfl
  | map es =>
    simp only [traced, wp_bind, wp_pure]
    exact (F.entries hs ho).imp fun es' s' h' => h'
  | struct id slots =>
    simp only [traced, wp_bind, wp_pure]
    refine (F.slots hs ho).imp ?_
    rintro slots' s' ⟨hs', hg', hl⟩
    exact ⟨hs', hg', rfl, hl⟩
  | closure denotationId arity haltKind code captures =>
    simp only [traced, wp_bind, wp_pure]
    refine (F.all hs ho).imp ?_
    rintro vs' s' ⟨hs', hg', hl⟩
    exact ⟨hs', hg', ⟨rfl, rfl, rfl, rfl⟩, hl⟩
  | resource shared dtor msoNext =>
    simp only [traced, wp_bind, wp_pure]
    refine (F.heapValue hs ho).imp ?_
    rintro v' s' ⟨hs', hg', hl⟩
    exact ⟨hs', hg', rfl, hl⟩
  | bitstring | procbin => exact ⟨hs, F.refl s, rfl, rfl⟩
  | scalar => cases kind <;> exact absurd hk Bool.false_ne_true

end Forwarding

/-! ## Roots -/

/-- A root and what it became.  `boxed` relates the box of a scalar to its copy. -/
def RefAlong (h : Heap) (move boxed : Nat → Nat → Prop) : AnyValueRef → AnyValueRef → Prop
  | .heap kind p, r =>
    if h.isActive p then ∃ d, move p d ∧ r = .heap kind d else r = .heap kind p
  | .scalar kind slot, r =>
    if h.isActive slot then ∃ d, boxed slot d ∧ r = .scalar kind d else r = .scalar kind slot
  | r, r' => r' = r

theorem RefAlong.mono {h : Heap} {move move' boxed boxed' : Nat → Nat → Prop}
    (hm : ∀ a d, move a d → move' a d) (hb : ∀ a d, boxed a d → boxed' a d) {r r' : AnyValueRef}
    (hr : RefAlong h move boxed r r') : RefAlong h move' boxed' r r' := by
  cases r with
  | null | emptyList => exact hr
  | scalar kind slot =>
    rw [RefAlong] at hr ⊢
    split at hr
    · next ha =>
      obtain ⟨d, hd, rfl⟩ := hr
      rw [if_pos ha]
      exact ⟨d, hb _ _ hd, rfl⟩
    · next ha =>
      rw [if_neg ha]
      exact hr
  | heap kind p =>
    rw [RefAlong] at hr ⊢
    split at hr
    · next ha =>
      obtain ⟨d, hd, rfl⟩ := hr
      rw [if_pos ha]
      exact ⟨d, hm _ _ hd, rfl⟩
    · next ha =>
      rw [if_neg ha]
      exact hr

structure RootsAlong (h : Heap) (move boxed : Nat → Nat → Prop) (roots roots' : Roots) : Prop where
  primary : ValueAlong h move roots.primary roots'.primary
  values : List.Forall₂ (ValueAlong h move) roots.values roots'.values
  refs : List.Forall₂ (RefAlong h move boxed) roots.refs roots'.refs

theorem RootsAlong.mono {h : Heap} {move move' boxed boxed' : Nat → Nat → Prop}
    {roots roots' : Roots} (hm : ∀ a d, move a d → move' a d)
    (hb : ∀ a d, boxed a d → boxed' a d) (hr : RootsAlong h move boxed roots roots') :
    RootsAlong h move' boxed' roots roots' :=
  ⟨hr.primary.mono hm, hr.values.imp fun _ _ hv => hv.mono hm,
    hr.refs.imp fun _ _ hr => hr.mono hm hb⟩

/-- How many boxes some roots still ask for. -/
def Heap.boxCount (h : Heap) (refs : List AnyValueRef) : Nat :=
  ((refs.filterMap AnyValueRef.slot?).filter h.isBox).length

/-- A property that forwarding the roots keeps, with the number of boxes still to be copied. -/
structure Rooting (env : GcEnv) (h : Heap) (P : Nat → GcState → Prop)
    (grows : GcState → GcState → Prop) (image boxed : GcState → Nat → Nat → Prop)
    (L : ValueKind → Nat → Prop) (B : Nat → Prop) (E : GcStop → Prop) : Prop where
  forwarding : ∀ n, Forwarding env h (P n) grows image L E
  boxed_mono : ∀ s s' a b, grows s s' → boxed s a b → boxed s' a b
  box : ∀ n s slot, P (n + (h.isBox slot).toNat) s → B slot → h.isActive slot →
    wp (copyScalarBoxToSpace env slot) (fun d s' => P n s' ∧ grows s s' ∧ boxed s' slot d) E s

namespace Rooting

variable {env : GcEnv} {h : Heap} {P : Nat → GcState → Prop} {grows : GcState → GcState → Prop}
  {image boxed : GcState → Nat → Nat → Prop} {L : ValueKind → Nat → Prop} {B : Nat → Prop}
  {E : GcStop → Prop} (F : Rooting env h P grows image boxed L B E) {s : GcState}

include F

theorem along {s' : GcState} (hg : grows s s') {r r' : AnyValueRef}
    (hr : RefAlong h (image s) (boxed s) r r') : RefAlong h (image s') (boxed s') r r' :=
  hr.mono (fun a b => (F.forwarding 0).mono s s' a b hg) fun a b => F.boxed_mono s s' a b hg

theorem ref {r : AnyValueRef} {n : Nat} (hs : P (n + h.boxCount [r]) s)
    (hheap : ∀ kind p, r = .heap kind p → h.isActive p → L kind p)
    (hbox : ∀ kind slot, r = .scalar kind slot → h.isActive slot → B slot) :
    wp (forwardAnyValueRefRoot env r)
      (fun r' s' => P n s' ∧ grows s s' ∧ RefAlong h (image s') (boxed s') r r') E s := by
  cases r with
  | null | emptyList => exact ⟨hs, (F.forwarding n).refl s, rfl⟩
  | scalar kind slot =>
    simp only [forwardAnyValueRefRoot, wp_bind, wp_get]
    rw [(F.forwarding _).active_eq hs]
    have hcount : h.boxCount [.scalar kind slot] = (h.isBox slot).toNat := by
      cases hb : h.isBox slot <;> simp [Heap.boxCount, AnyValueRef.slot?, hb]
    rw [hcount] at hs
    cases ha : h.isActive slot with
    | false =>
      have hb : h.isBox slot = false := by simp [Heap.isBox, ha]
      rw [hb] at hs
      refine ⟨hs, (F.forwarding n).refl s, ?_⟩
      rw [RefAlong, if_neg (by simp [ha])]
    | true =>
      rw [if_pos rfl]
      simp only [wp_bind, wp_pure]
      refine (F.box n s slot hs (hbox kind slot rfl ha) ha).imp ?_
      rintro d s' ⟨hs', hg, hd⟩
      refine ⟨hs', hg, ?_⟩
      rw [RefAlong, if_pos ha]
      exact ⟨d, hd, rfl⟩
  | heap kind p =>
    simp only [forwardAnyValueRefRoot, wp_bind, wp_get]
    rw [(F.forwarding _).active_eq hs]
    cases ha : h.isActive p with
    | false =>
      refine ⟨hs, (F.forwarding n).refl s, ?_⟩
      rw [RefAlong, if_neg (by simp [ha])]
    | true =>
      rw [if_pos rfl]
      simp only [wp_bind, wp_pure]
      refine ((F.forwarding n).forward s kind p hs (hheap kind p rfl ha) ha).imp ?_
      rintro d s' ⟨hs', hg, hd⟩
      refine ⟨hs', hg, ?_⟩
      rw [RefAlong, if_pos ha]
      exact ⟨d, hd, rfl⟩

theorem refs {rs : List AnyValueRef} {n : Nat} (hs : P (n + h.boxCount rs) s)
    (hheap : ∀ kind p, .heap kind p ∈ rs → h.isActive p → L kind p)
    (hbox : ∀ kind slot, .scalar kind slot ∈ rs → h.isActive slot → B slot) :
    wp (forwardRefs env rs) (fun rs' s' => P n s' ∧ grows s s' ∧
        List.Forall₂ (RefAlong h (image s') (boxed s')) rs rs') E s := by
  induction rs generalizing s with
  | nil => exact ⟨hs, (F.forwarding n).refl s, .nil⟩
  | cons r rs ih =>
    have hcount : h.boxCount (r :: rs) = h.boxCount rs + h.boxCount [r] := by
      rw [Heap.boxCount, ← List.singleton_append, List.filterMap_append, List.filter_append,
        List.length_append, Nat.add_comm]
      rfl
    rw [hcount, ← Nat.add_assoc] at hs
    simp only [forwardRefs, wp_bind, wp_pure]
    refine (F.ref hs (fun kind p hr => hheap kind p (hr ▸ List.mem_cons_self))
      fun kind slot hr => hbox kind slot (hr ▸ List.mem_cons_self)).imp fun r' s₁ h₁ => ?_
    obtain ⟨hs₁, hg₁, hr'⟩ := h₁
    refine (ih hs₁ (fun kind p hp => hheap kind p (List.mem_cons_of_mem _ hp))
      fun kind slot hp => hbox kind slot (List.mem_cons_of_mem _ hp)).imp fun rs' s₂ h₂ => ?_
    obtain ⟨hs₂, hg₂, hrs'⟩ := h₂
    exact ⟨hs₂, (F.forwarding n).trans _ _ _ hg₁ hg₂, .cons (F.along hg₂ hr') hrs'⟩

theorem roots {roots : Roots} (hs : P (h.boxRoots roots).length s)
    (hprimary : PointersIn h L [roots.primary]) (hvalues : PointersIn h L roots.values)
    (hheap : ∀ kind p, .heap kind p ∈ roots.refs → h.isActive p → L kind p)
    (hbox : ∀ kind slot, .scalar kind slot ∈ roots.refs → h.isActive slot → B slot) :
    wp (forwardRoots env roots) (fun roots' s' => P 0 s' ∧ grows s s' ∧
        RootsAlong h (image s') (boxed s') roots roots') E s := by
  have F' := F.forwarding (h.boxRoots roots).length
  simp only [forwardRoots, wp_bind, wp_pure]
  refine (F'.heapValue hs hprimary).imp ?_
  rintro primary' s₁ ⟨hs₁, hg₁, hprimary'⟩
  refine (F'.all hs₁ hvalues).imp ?_
  rintro values' s₂ ⟨hs₂, hg₂, hvalues'⟩
  have hs₂' : P (0 + h.boxCount roots.refs) s₂ := by
    rw [Nat.zero_add]
    exact hs₂
  refine (F.refs hs₂' hheap hbox).imp ?_
  rintro refs' s₃ ⟨hs₃, hg₃, hrefs'⟩
  have hg₂₃ := F'.trans _ _ _ hg₂ hg₃
  exact ⟨hs₃, F'.trans _ _ _ hg₁ hg₂₃, F'.along hg₂₃ hprimary',
    hvalues'.imp fun _ _ => F'.along hg₃, hrefs'⟩

end Rooting

/-! ## The loop -/

def GcState.put (s : GcState) (p : Nat) (o : Object) : GcState :=
  { s with memory := Function.update s.memory p (some (.object o)) }

def GcState.popFragment (s : GcState) : GcState := { s with fragQueue := s.fragQueue.dropLast }

/-- An invariant of the loop.  `I budget scanIdx hand` speaks of the states in which `hand` has
been taken from its queue and not put back, and `budget` objects can still be taken. -/
structure Collecting (env : GcEnv) (h : Heap)
    (I : Nat → Nat → Option (CopiedObject × Object) → GcState → Prop)
    (grows : GcState → GcState → Prop) (image : GcState → Nat → Nat → Prop)
    (L : ValueKind → Nat → Prop) (E : GcStop → Prop) : Prop where
  forwarding : ∀ n i hand, Forwarding env h (I n i hand) grows image L E
  values : ∀ n i c o s, I n i (some (c, o)) s → PointersIn h L o.values
  busy : ∀ n i s c, I n i none s → c ∈ s.copiedObjects.drop i ++ s.fragQueue →
    0 < n ∧ (∃ o, s.memory c.ptr = some (.object o) ∧ o.hasKind c.kind) ∨ E .broken
  scan : ∀ n i s c o, I n i none s → s.copiedObjects[i]? = some c →
    s.memory c.ptr = some (.object o) → I (n - 1) (i + 1) (some (c, o)) s
  pop : ∀ n i s c o, I n i none s → s.fragQueue.getLast? = some c →
    s.memory c.ptr = some (.object o) →
    I (n - 1) i (some (c, o)) s.popFragment ∧ grows s s.popFragment
  put : ∀ n i c o o' s, I n i (some (c, o)) s → o.Like (ValueAlong h (image s)) o' →
    I n i none (s.put c.ptr o') ∧ grows s (s.put c.ptr o')

theorem trace_broken {env : GcEnv} {c : CopiedObject} {E : GcStop → Prop}
    (hE : E .broken) {Q : Unit → GcState → Prop}
    (hcell : ¬ ∃ o, s.memory c.ptr = some (.object o) ∧ o.hasKind c.kind) :
    wp (trace env c) Q E s := by
  simp only [trace, wp_bind, wp_get]
  split
  · next o ho =>
    rw [if_neg fun hk => hcell ⟨o, ho, hk⟩]
    exact hE
  · exact hE

namespace Collecting

variable {env : GcEnv} {h : Heap}
  {I : Nat → Nat → Option (CopiedObject × Object) → GcState → Prop}
  {grows : GcState → GcState → Prop} {image : GcState → Nat → Nat → Prop}
  {L : ValueKind → Nat → Prop} {E : GcStop → Prop} (C : Collecting env h I grows image L E)
  {s : GcState}

include C

theorem trace {n i : Nat} {c : CopiedObject} {o : Object} (hs : I n i (some (c, o)) s)
    (hcell : s.memory c.ptr = some (.object o)) (hk : o.hasKind c.kind) :
    wp (Gc.trace env c) (fun _ s' => I n i none s' ∧ grows s s') E s := by
  have F := C.forwarding n i (some (c, o))
  simp only [Gc.trace, wp_bind, wp_get, hcell]
  rw [if_pos hk]
  simp only [wp_bind, wp_modify]
  refine (F.object hs hk (C.values n i c o s hs)).imp ?_
  rintro o' s' ⟨hs', hg, hlike⟩
  obtain ⟨hput, hg'⟩ := C.put n i c o o' s' hs' hlike
  exact ⟨hput, F.trans _ _ _ hg hg'⟩

theorem cell_or_broken {n i : Nat} {c : CopiedObject} (hs : I n i none s)
    (hmem : c ∈ s.copiedObjects.drop i ++ s.fragQueue) :
    (∃ o, s.memory c.ptr = some (.object o) ∧ o.hasKind c.kind ∧ (0 < n ∨ E .broken)) ∨
      E .broken ∧ ¬ ∃ o, s.memory c.ptr = some (.object o) ∧ o.hasKind c.kind := by
  by_cases hcell : ∃ o, s.memory c.ptr = some (.object o) ∧ o.hasKind c.kind
  · obtain ⟨o, ho, hk⟩ := hcell
    exact .inl ⟨o, ho, hk, (C.busy n i s c hs hmem).imp And.left id⟩
  · exact .inr ⟨(C.busy n i s c hs hmem).resolve_left fun hok => hcell hok.2, hcell⟩

/-- The loop ends with both queues done. -/
theorem drain {fuel n i : Nat} (hs : I n i none s) (hfuel : n < fuel ∨ E .broken) :
    wp (Gc.drain env fuel i)
      (fun _ s' => (∃ n i, I n i none s' ∧ s'.copiedObjects.drop i = [] ∧ s'.fragQueue = []) ∧
        grows s s') E s := by
  induction fuel generalizing n i s with
  | zero => exact hfuel.resolve_left (Nat.not_lt_zero n)
  | succ fuel ih =>
    have F := C.forwarding n i none
    have hless : 0 < n ∨ E .broken → n - 1 < fuel ∨ E .broken := by
      intro hn
      rcases hn with hn | hE
      · exact hfuel.imp (by omega) id
      · exact .inr hE
    simp only [Gc.drain, wp_bind, wp_get]
    cases hc : s.copiedObjects[i]? with
    | some c =>
      have hmem : c ∈ s.copiedObjects.drop i ++ s.fragQueue := by
        refine List.mem_append_left _ (List.mem_of_getElem? (i := 0) ?_)
        rw [List.getElem?_drop, Nat.add_zero, hc]
      simp only [wp_bind]
      rcases C.cell_or_broken hs hmem with ⟨o, ho, hk, hn⟩ | ⟨hE, hcell⟩
      · refine (C.trace (C.scan n i s c o hs hc ho) ho hk).imp ?_
        rintro _ s₁ ⟨hs₁, hg₁⟩
        refine (ih hs₁ (hless hn)).imp ?_
        rintro _ s₂ ⟨hend, hg₂⟩
        exact ⟨hend, F.trans _ _ _ hg₁ hg₂⟩
      · exact trace_broken hE hcell
    | none =>
      have hdone : s.copiedObjects.drop i = [] :=
        List.drop_eq_nil_of_le (List.getElem?_eq_none_iff.mp hc)
      cases hq : s.fragQueue.getLast? with
      | none => exact ⟨⟨n, i, hs, hdone, List.getLast?_eq_none_iff.mp hq⟩, F.refl s⟩
      | some c =>
        have hmem : c ∈ s.copiedObjects.drop i ++ s.fragQueue :=
          List.mem_append_right _ (List.mem_of_getLast? hq)
        simp only [wp_bind, wp_modify]
        rcases C.cell_or_broken hs hmem with ⟨o, ho, hk, hn⟩ | ⟨hE, hcell⟩
        · obtain ⟨hpop, hg₀⟩ := C.pop n i s c o hs hq ho
          refine (C.trace hpop ho hk).imp ?_
          rintro _ s₁ ⟨hs₁, hg₁⟩
          refine (ih hs₁ (hless hn)).imp ?_
          rintro _ s₂ ⟨hend, hg₂⟩
          exact ⟨hend, F.trans _ _ _ hg₀ (F.trans _ _ _ hg₁ hg₂)⟩
        · exact trace_broken hE hcell

end Collecting

end Fz.Gc
