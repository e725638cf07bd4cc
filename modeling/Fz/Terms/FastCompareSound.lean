import Fz.Base.Except
import Fz.Terms.FastCompare

/-!
# Fast comparisons agree with the comparator

Every entry point returns what the term comparator returns on the boxed operands, in the widening
mode for `==` and the orderings and in the strict mode for identity
(`fast_comparisons_agree`).

A reference stands for a value when its box holds the raw word of it (`Process.Refers`), and an
operand denotes a term when the value it would be boxed to does (`InterpValue.Denotes`).  Boxing
keeps the term (`exists_asRefWord`), so the comparator returns on the boxes the order of the terms
in the mode (`compare_eq_cmpIn`), and each shortcut is compared with that order.
-/

namespace Fz.Terms

open Std Fz.Base TermComparator

/-! ## Raw words -/

theorem F64.magnitude_lt (x : F64) : x.magnitude < 2 ^ 63 := by
  have he := x.exponent_lt
  have hf := x.fraction_lt
  rw [magnitude]
  omega

theorem F64.toNat_toBits (x : F64) :
    x.toBits.toNat = if x.negative then 2 ^ 63 + x.magnitude else x.magnitude := by
  have h := x.magnitude_lt
  rw [toBits, UInt64.toNat_ofNat']
  split <;> omega

theorem F64.ofBits_toBits (x : F64) : F64.ofBits x.toBits = x := by
  have h := x.magnitude_lt
  have he := x.exponent_lt
  have hf := x.fraction_lt
  obtain ⟨negative, exponent, fraction, _, _⟩ := x
  rw [ofBits, toNat_toBits]
  simp only [magnitude] at h ⊢
  cases negative with
  | false =>
    simp only [Bool.false_eq_true, ↓reduceIte, ofMagnitude, mk.injEq, decide_eq_false_iff_not]
    omega
  | true =>
    simp only [↓reduceIte, ofMagnitude, mk.injEq, decide_eq_true_eq]
    omega

theorem F64.toBits_inj {x y : F64} : x.toBits = y.toBits ↔ x = y := by
  constructor
  · intro h
    rw [← x.ofBits_toBits, h, ofBits_toBits]
  · exact congrArg _

theorem isEq_toUInt64_ne_zero (b : Bool) : (b.toUInt64 != 0) = b := by cases b <;> rfl

/-! ## Growing processes -/

namespace Process

/-- Finished objects and scalar boxes stay where they are. -/
structure Grows (p p' : Process) : Prop where
  terms : p.heap.terms.Grows p'.heap.terms
  boxes : p.boxes <+: p'.boxes

variable {p p' p'' : Process} {r : AnyValueRef} {a : AnyValue}

theorem Grows.refl (p : Process) : Grows p p := ⟨.refl _, List.prefix_rfl⟩

theorem grows_box (p : Process) (raw : UInt64) : Grows p (p.box raw) :=
  ⟨.refl _, List.prefix_append _ _⟩

theorem grows_extend (p : Process) (o : Object) : Grows p (p.extend o) where
  terms := by
    refine ⟨rfl, rfl, fun a o' ho _ => ?_⟩
    show Function.update p.heap.terms.memory p.heap.next (some o) a = some o'
    rwa [Function.update_of_ne]
    rintro rfl
    rw [p.heap.free _ le_rfl] at ho
    exact nomatch ho
  boxes := List.prefix_rfl

theorem Grows.load (h : Grows p p') {addr : Addr} {raw : UInt64} (hload : p.load addr = .ok raw) :
    p'.load addr = .ok raw := by
  obtain ⟨rest, hrest⟩ := h.boxes
  cases addr with
  | zero => exact nomatch hload
  | succ i =>
    rw [Process.load] at hload ⊢
    split at hload
    · rename_i w hw
      obtain ⟨hi, -⟩ := List.getElem?_eq_some_iff.mp hw
      rw [← hrest, List.getElem?_append_left hi, hw]
      exact hload
    · exact nomatch hload

theorem load_box (p : Process) (raw : UInt64) :
    (p.box raw).load (p.box raw).boxes.length = .ok raw := by
  show Process.load _ (p.boxes ++ [raw]).length = _
  rw [List.length_append, List.length_singleton, Process.load]
  rw [Process.box, List.getElem?_concat_length]

/-! ## References to values -/

/-- The reference is what boxing the value returns: the box of a scalar holds its raw word. -/
inductive Refers (p : Process) : AnyValueRef → AnyValue → Prop where
  | int {addr : Addr} {n : Int64} (h : p.load addr = .ok n.toUInt64) :
    Refers p ⟨.int, addr⟩ (.int n)
  | float {addr : Addr} {x : F64} (hx : x.isFinite) (h : p.load addr = .ok x.toBits) :
    Refers p ⟨.float, addr⟩ (.float x)
  | atom {addr : Addr} {id : UInt32} (h : p.load addr = .ok id.toUInt64) :
    Refers p ⟨.atom, addr⟩ (.atom id.toNat)
  | emptyList : Refers p ⟨.list, 0⟩ .emptyList
  | heap {kind : ValueKind} {addr : Addr} (hk : kind.isHeap) (ha : addr ≠ 0) :
    Refers p ⟨kind, addr⟩ (.heapRef kind addr)

theorem Refers.mono (h : Refers p r a) (hp : Grows p p') : Refers p' r a := by
  cases h with
  | int h => exact .int (hp.load h)
  | float hx h => exact .float hx (hp.load h)
  | atom h => exact .atom (hp.load h)
  | emptyList => exact .emptyList
  | heap hk ha => exact .heap hk ha

theorem Refers.read (h : Refers p r a) : p.anyValueFromRefWord r = .ok a := by
  cases h with
  | @int addr n h =>
    show (do return AnyValue.int (← p.load addr).toInt64) = _
    rw [h]
    rfl
  | @float addr x hx h =>
    show (do AnyValue.ofFloat (F64.ofBits (← p.load addr))) = _
    rw [h]
    show AnyValue.ofFloat (F64.ofBits x.toBits) = _
    rw [F64.ofBits_toBits, AnyValue.ofFloat, if_pos hx]
  | @atom addr id h =>
    show (do return AnyValue.atom (← p.load addr).toUInt32.toNat) = _
    rw [h]
    show Except.ok (AnyValue.atom id.toUInt64.toUInt32.toNat) = _
    rw [UInt32.toUInt32_toUInt64]
  | emptyList => rfl
  | @heap kind addr hk ha =>
    have hne : AnyValueRef.isEmptyList ⟨kind, addr⟩ = false := by
      simp only [AnyValueRef.isEmptyList, Bool.and_eq_false_iff, beq_eq_false_iff_ne]
      exact .inr ha
    rw [anyValueFromRefWord, hne]
    have hptr : AnyValue.heapPtr addr kind = .ok (.heapRef kind addr) :=
      if_neg (not_and_of_not_left _ ha)
    cases kind <;> first
      | exact hptr
      | exact absurd hk (by decide)

end Process

/-! ## Lanes and boxes -/

/-- A scalar in a register, as its kind and its raw word. -/
inductive RawLane where
  | int (n : Int64)
  | float (x : F64)
  | atom (id : UInt32)
  deriving DecidableEq

namespace RawLane

def kind : RawLane → ValueKind
  | int _ => .int
  | float _ => .float
  | atom _ => .atom

def raw : RawLane → UInt64
  | int n => n.toUInt64
  | float x => x.toBits
  | atom id => id.toUInt64

def value : RawLane → AnyValue
  | int n => .int n
  | float x => .float x
  | atom id => .atom id.toNat

/-- Only finite floats are values. -/
def IsValue : RawLane → Prop
  | float x => x.isFinite
  | _ => True

theorem decodeParts_raw {lane : RawLane} (h : lane.IsValue) :
    AnyValue.decodeParts lane.raw lane.kind = .ok lane.value := by
  cases lane with
  | int n => rfl
  | float x =>
    show AnyValue.ofFloat (F64.ofBits x.toBits) = _
    rw [F64.ofBits_toBits]
    exact if_pos h
  | atom id =>
    show Except.ok (AnyValue.atom id.toUInt64.toUInt32.toNat) = _
    rw [UInt32.toUInt32_toUInt64]
    rfl

theorem boxScalarForAny_eq {lane : RawLane} (h : lane.IsValue) (p : Process) :
    boxScalarForAny lane.raw lane.kind p =
      .ok (⟨lane.kind, (p.box lane.raw).boxes.length⟩, p.box lane.raw) := by
  rw [boxScalarForAny, StateT.liftM_bind_run_ok (decodeParts_raw h)]
  cases lane with
  | int n => rfl
  | float x =>
    have hx : AnyValue.ofFloat x = .ok (.float x) := if_pos h
    show boxAnyValueRef (.float x) p = _
    rw [boxAnyValueRef, StateT.liftM_bind_run_ok hx]
    rfl
  | atom id =>
    show allocBox .atom (UInt64.ofNat id.toNat) p = _
    rw [UInt64.ofNat_uInt32ToNat]
    rfl

theorem refers_box {lane : RawLane} (h : lane.IsValue) (p : Process) :
    (p.box lane.raw).Refers ⟨lane.kind, (p.box lane.raw).boxes.length⟩ lane.value := by
  cases lane with
  | int n => exact .int (p.load_box _)
  | float x => exact .float h (p.load_box _)
  | atom id => exact .atom (p.load_box _)

theorem exists_box {lane : RawLane} (h : lane.IsValue) (p : Process) {t : Term}
    (ht : p.heap.Pub lane.value t) : ∃ r p',
    boxScalarForAny lane.raw lane.kind p = .ok (r, p') ∧ p.Grows p' ∧
      ∃ a, p'.Refers r a ∧ p'.heap.Pub a t :=
  ⟨_, _, boxScalarForAny_eq h p, p.grows_box _, _, refers_box h p, ht⟩

end RawLane

/-! ## Operands -/

section Operands

variable {p p' : Process} {v w : InterpValue} {s t : Term}

/-- The term an operand of the interpreter stands for. -/
inductive InterpValue.Denotes (p : Process) : InterpValue → Term → Prop where
  | int (n : Int64) : Denotes p (.int n) (.node (.int n) [])
  | float {x : F64} (hx : x.isFinite) : Denotes p (.float x) (.node (.float x) [])
  | atom {id : UInt32} {name : String} (hname : p.heap.terms.node.atoms[id.toNat]? = some name) :
    Denotes p (.atom id) (.node (.atom name) [])
  | emptyList : Denotes p .emptyList (.node .list [])
  | fnRef (fnId arity : Nat) {denotationId : Nat} {origin : FunctionDenotation}
    (hd : p.heap.terms.node.closureDenotations denotationId = some origin) :
    Denotes p (.fnRef fnId arity denotationId) (.node (.closure origin 0) [])
  | ref {r : AnyValueRef} {a : AnyValue} {t : Term} (hr : p.Refers r a) (ht : p.heap.Pub a t) :
    Denotes p (.ref r) t

theorem InterpValue.Denotes.mono (h : v.Denotes p t) (hp : p.Grows p') : v.Denotes p' t := by
  cases h with
  | int n => exact .int n
  | float hx => exact .float hx
  | atom hname => exact .atom (by rw [hp.terms.node]; exact hname)
  | emptyList => exact .emptyList
  | fnRef fnId arity hd => exact .fnRef fnId arity (by rw [hp.terms.node]; exact hd)
  | ref hr ht => exact .ref (hr.mono hp) (hp.terms.published ht)

theorem InterpValue.Denotes.exists_asRefWord (h : v.Denotes p t) : ∃ r p',
    v.asRefWord p = .ok (r, p') ∧ p.Grows p' ∧ ∃ a, p'.Refers r a ∧ p'.heap.Pub a t := by
  cases h with
  | int n => exact RawLane.exists_box (show (RawLane.int n).IsValue from trivial) p ⟨1, rfl⟩
  | @float x hx =>
    exact RawLane.exists_box (show (RawLane.float x).IsValue from hx) p ⟨1, if_pos hx⟩
  | @atom id name hname =>
    refine RawLane.exists_box (show (RawLane.atom id).IsValue from trivial) p ⟨1, ?_⟩
    show (p.heap.terms.node.atoms[id.toNat]?).map _ = _
    rw [hname]
    rfl
  | emptyList => exact ⟨_, _, rfl, .refl p, .emptyList, .emptyList, 1, rfl⟩
  | @fnRef fnId arity d origin hd =>
    refine ⟨_, _, rfl, p.grows_extend (.closure d []), .heapRef .closure p.heap.next,
      .heap rfl p.heap.next_pos.ne', 1, ?_⟩
    have hmem : (p.extend (.closure d [])).heap.terms.memory p.heap.next =
        some (.closure d []) := Function.update_self ..
    exact term?_of_reads (.closure hmem hd rfl)
  | ref hr ht => exact ⟨_, _, rfl, .refl p, _, hr, ht⟩

theorem exists_boxed (hv : v.Denotes p s) (hw : w.Denotes p t) : ∃ p' l r a b,
    (∀ {α : Type} (ask : Process → AnyValueRef → AnyValueRef → Except Failure α),
      onRefWords ask v w p = (ask p' l r).map fun x => (x, p')) ∧
    p'.Refers l a ∧ p'.Refers r b ∧ p'.heap.Pub a s ∧ p'.heap.Pub b t := by
  obtain ⟨l, p₁, hl, hgrows₁, a, hla, has⟩ := hv.exists_asRefWord
  obtain ⟨r, p₂, hr, hgrows₂, b, hrb, hbt⟩ := (hw.mono hgrows₁).exists_asRefWord
  refine ⟨p₂, l, r, a, b, fun ask => ?_, hla.mono hgrows₂, hrb, hgrows₂.terms.published has, hbt⟩
  rw [onRefWords, StateT.bind_run_ok hl, StateT.bind_run_ok hr, StateT.get_bind_run]
  cases h : ask p₂ l r with
  | ok x => rfl
  | error e => rfl

end Operands

/-! ## The comparator on references -/

section Runtime

variable {p : Process} {l r : AnyValueRef} {a b : AnyValue} {s t : Term} {n : Nat}

theorem exists_compare (ha : p.heap.Pub a s) (hb : p.heap.Pub b t) : ∃ n, ∀ m ≥ n, ∀ mode,
    p.heap.terms.compare m a b mode = .ok (Term.cmpIn mode s t) := by
  obtain ⟨i, hi⟩ := ha
  obtain ⟨j, hj⟩ := hb
  refine ⟨max i j, fun m hm mode => ?_⟩
  exact compare_eq_cmpIn m mode a b s t (term?_mono (by omega) hi) (term?_mono (by omega) hj)

theorem compareRefWords_eq (hl : p.Refers l a) (hr : p.Refers r b) {mode : NumericMode}
    {o : Ordering} (h : p.heap.terms.compare n a b mode = .ok o) :
    compareRefWords n p l r mode = .ok o := by
  rw [compareRefWords, hl.read, hr.read]
  show (p.heap.terms.compare n a b mode).mapError Failure.panic = _
  rw [h]
  rfl

theorem fzValueEqWideningRef_eq (hl : p.Refers l a) (hr : p.Refers r b) {o : Ordering}
    (h : p.heap.terms.compare n a b .widening = .ok o) :
    fzValueEqWideningRef n p l r = .ok o.isEq.toUInt64 := by
  rw [fzValueEqWideningRef, compareRefWords_eq hl hr h]
  rfl

theorem fzValueEqRef_eq (hl : p.Refers l a) (hr : p.Refers r b) {o : Ordering}
    (h : p.heap.terms.compare n a b .strict = .ok o) :
    fzValueEqRef n p l r = .ok o.isEq.toUInt64 := by
  rw [fzValueEqRef, compareRefWords_eq hl hr h]
  rfl

theorem fzValueCmpRef_eq (hl : p.Refers l a) (hr : p.Refers r b) {o : Ordering}
    (h : p.heap.terms.compare n a b .widening = .ok o) :
    fzValueCmpRef n p l r = .ok (orderingToI64 o) := by
  rw [fzValueCmpRef, compareRefWords_eq hl hr h]
  rfl

theorem new_tag_lane (lane : RawLane) :
    ValueKind.new lane.kind.tag.toUInt32.toUInt8 = some lane.kind := by
  cases lane <;> rfl

theorem fzValueCmpRawConst_eq {lane : RawLane} (hl : p.Refers l a) (hlane : lane.IsValue)
    (swap : UInt32) {o : Ordering}
    (h : (if swap = 0 then p.heap.terms.compare n a lane.value .widening
      else p.heap.terms.compare n lane.value a .widening) = .ok o) :
    fzValueCmpRawConst n p l lane.kind.tag.toUInt32 lane.raw swap = .ok (orderingToI64 o) := by
  simp only [fzValueCmpRawConst, hl.read, new_tag_lane, lane.decodeParts_raw hlane]
  by_cases hswap : swap = 0
  · rw [if_pos hswap] at h
    simp only [hswap]
    show ((p.heap.terms.compare n a lane.value .widening).mapError Failure.panic).bind _ = _
    rw [h]
    rfl
  · rw [if_neg hswap] at h
    simp only [hswap]
    show ((p.heap.terms.compare n lane.value a .widening).mapError Failure.panic).bind _ = _
    rw [h]
    rfl

theorem isEq_cmpIn_strict (s t : Term) : (Term.cmpIn .strict s t).isEq = decide (s = t) := by
  rw [Term.cmpIn_strict, Bool.eq_iff_iff, Ordering.isEq_iff_eq_eq, decide_eq_true_eq]
  exact LawfulEqCmp.compare_eq_iff_eq

theorem rank_of_published (h : p.heap.Pub a s) : ∃ k ts, s = .node k ts ∧
    rank a.kind = .ok k.rank := by
  obtain ⟨n, hn⟩ := h
  obtain ⟨k, ts⟩ := s
  cases n with
  | zero => exact nomatch hn
  | succ n => exact ⟨k, ts, rfl, (reads_of_term? hn).checked.2⟩

/-! ## Scalars -/

/-- The label of a scalar. -/
def RawLane.label? (node : Node) : RawLane → Option Label
  | .int n => some (.int n)
  | .float x => if x.isFinite then some (.float x) else none
  | .atom id => (node.atoms[id.toNat]?).map .atom

theorem published_lane {lane : RawLane} (h : p.heap.Pub lane.value t) :
    ∃ k, lane.label? p.heap.terms.node = some k ∧ t = .node k [] := by
  obtain ⟨n, hn⟩ := h
  cases n with
  | zero => exact nomatch hn
  | succ n =>
    cases lane with
    | int m => exact ⟨_, rfl, (Option.some.inj hn).symm⟩
    | float x =>
      simp only [RawLane.value, term?, Option.ite_none_right_eq_some, Option.some.injEq] at hn
      exact ⟨_, if_pos hn.1, hn.2.symm⟩
    | atom id =>
      obtain ⟨name, hname, rfl⟩ := Option.map_eq_some_iff.mp hn
      exact ⟨_, congrArg (Option.map Label.atom) hname, rfl⟩

theorem isValue_of_label? {lane : RawLane} {node : Node} {k : Label}
    (h : lane.label? node = some k) : lane.IsValue := by
  cases lane with
  | float x =>
    simp only [RawLane.label?, Option.ite_none_right_eq_some] at h
    exact h.1
  | _ => trivial

theorem RawLane.label?_inj {lane lane' : RawLane} {node : Node} (hnode : node.atoms.Nodup)
    {k : Label} (h : lane.label? node = some k) (h' : lane'.label? node = some k) :
    lane = lane' := by
  cases lane <;> cases lane' <;>
    simp only [label?, Option.some.injEq, Option.ite_none_right_eq_some, Option.map_eq_some_iff]
      at h h'
  case int.int => exact congrArg _ (Label.int.inj (h.trans h'.symm))
  case float.float => exact congrArg _ (Label.float.inj (h.2.trans h'.2.symm))
  case atom.atom id id' =>
    obtain ⟨name, hname, rfl⟩ := h
    obtain ⟨name', hname', heq⟩ := h'
    obtain rfl := Label.atom.inj heq
    obtain ⟨hi, hget⟩ := List.getElem?_eq_some_iff.mp hname
    obtain ⟨hj, hget'⟩ := List.getElem?_eq_some_iff.mp hname'
    exact congrArg _ (UInt32.toNat_inj.mp (hnode.getElem_inj_iff.mp (hget.trans hget'.symm)))
  case int.float => exact nomatch h.trans h'.2.symm
  case float.int => exact nomatch h.2.trans h'.symm
  case int.atom =>
    obtain ⟨_, -, rfl⟩ := h'
    exact nomatch h
  case atom.int =>
    obtain ⟨_, -, rfl⟩ := h
    exact nomatch h'
  case float.atom =>
    obtain ⟨_, -, rfl⟩ := h'
    exact nomatch h.2
  case atom.float =>
    obtain ⟨_, -, rfl⟩ := h
    exact nomatch h'.2

theorem lane_inj {lane lane' : RawLane} (hs : p.heap.Pub lane.value s)
    (ht : p.heap.Pub lane'.value t) : s = t ↔ lane = lane' := by
  constructor
  · rintro rfl
    obtain ⟨k, hk, rfl⟩ := published_lane hs
    obtain ⟨k', hk', heq⟩ := published_lane ht
    obtain ⟨rfl, -⟩ := Rose.node.inj heq
    exact RawLane.label?_inj p.atoms_nodup hk hk'
  · rintro rfl
    exact hs.unique ht

theorem RawLane.raw_inj {lane lane' : RawLane} (h : lane.kind = lane'.kind) :
    lane.raw = lane'.raw ↔ lane = lane' := by
  cases lane <;> cases lane' <;> simp only [RawLane.kind, reduceCtorEq] at h
  case int.int n m =>
    rw [RawLane.int.injEq]
    refine ⟨fun h => ?_, fun h => by rw [h]⟩
    have hraw : n.toUInt64 = m.toUInt64 := h
    rw [← n.toInt64_toUInt64, hraw, m.toInt64_toUInt64]
  case float.float x y => simp only [raw, F64.toBits_inj, RawLane.float.injEq]
  case atom.atom id id' => simp only [raw, UInt32.toUInt64_inj, RawLane.atom.injEq]

theorem Process.Refers.scalar_or_heap (h : p.Refers l a) :
    (∃ lane : RawLane, l.tag = lane.kind ∧ p.storageRaw l = .ok lane.raw ∧ a = lane.value) ∨
      l.tag.isHeap ∧ a.kind = l.tag := by
  cases h with
  | @int addr n h => exact .inl ⟨.int n, rfl, h, rfl⟩
  | @float addr x hx h => exact .inl ⟨.float x, rfl, h, rfl⟩
  | @atom addr id h => exact .inl ⟨.atom id, rfl, h, rfl⟩
  | emptyList => exact .inr ⟨rfl, rfl⟩
  | heap hk ha => exact .inr ⟨hk, rfl⟩

theorem rank_heap {kind : ValueKind} (h : kind.isHeap) : ∃ i, rank kind = .ok i ∧ 2 ≤ i := by
  cases kind <;> first
    | exact ⟨_, rfl, by decide⟩
    | exact nomatch h

theorem rank_lane (lane : RawLane) : ∃ i, rank lane.value.kind = .ok i ∧ i ≤ 1 := by
  cases lane <;> exact ⟨_, rfl, by decide⟩

theorem fzValueEqRawConst_eq {lane : RawLane} (hl : p.Refers l a) (ha : p.heap.Pub a s)
    (hb : p.heap.Pub lane.value t) :
    fzValueEqRawConst p l lane.kind.tag.toUInt32 lane.raw = .ok (decide (s = t)).toUInt64 := by
  rw [fzValueEqRawConst, new_tag_lane]
  show (if l.tag = lane.kind then _ else _) = _
  rcases hl.scalar_or_heap with ⟨lane', htag, hraw, rfl⟩ | ⟨hheap, hkind⟩
  · rw [htag]
    by_cases hk : lane'.kind = lane.kind
    · have hiff : decide (s = t) = (lane'.raw == lane.raw) := by
        rw [Bool.eq_iff_iff, decide_eq_true_eq, beq_iff_eq, lane_inj ha hb, RawLane.raw_inj hk]
      rw [if_pos hk, hraw, hiff]
      rfl
    · have hne : s ≠ t := fun h => hk (congrArg RawLane.kind ((lane_inj ha hb).mp h))
      rw [if_neg hk, decide_eq_false hne]
      rfl
  · -- a heap word has another rank than a scalar
    have hk : l.tag ≠ lane.kind := by
      intro h
      rw [h] at hheap
      cases lane <;> exact nomatch hheap
    have hne : s ≠ t := by
      rintro rfl
      obtain ⟨k, ts, rfl, hrank⟩ := rank_of_published ha
      obtain ⟨_, _, heq, hrank'⟩ := rank_of_published hb
      obtain ⟨rfl, -⟩ := Rose.node.inj heq
      obtain ⟨i, hi, hle⟩ := rank_heap hheap
      obtain ⟨j, hj, hle'⟩ := rank_lane lane
      rw [hkind, hi] at hrank
      rw [hj] at hrank'
      have hij := Except.ok.inj (hrank.trans hrank'.symm)
      omega
    rw [if_neg hk, decide_eq_false hne]
    rfl

end Runtime

/-! ## The order of numbers -/

theorem compareIntFloat_eq_cmpIn (n : Int64) {x : F64} (hx : x.isFinite) : compareIntFloat n x =
    .ok (Term.cmpIn .widening (.node (.int n) []) (.node (.float x) [])) := by
  rw [compareIntFloat_eq n hx, Term.cmpIn_leaf, Label.widening_int_float]

theorem cmpIn_int_int (mode : NumericMode) (n m : Int64) :
    Term.cmpIn mode (.node (.int n) []) (.node (.int m) []) = compare n.toInt m.toInt := by
  rw [Term.cmpIn_leaf, Label.cmpIn_eq_cmp (by simp) (by simp), Label.cmp_int_int]

theorem isEq_compare_int (n m : Int64) : (compare n.toInt m.toInt).isEq = (n == m) := by
  rw [Bool.eq_iff_iff, Ordering.isEq_iff_eq_eq, Int.compare_eq_eq, Int64.toInt_inj, beq_iff_eq]

theorem partialCmp_eq_cmpIn {x y : F64} (hx : x.isFinite) (hy : y.isFinite) : x.partialCmp y =
    some (Term.cmpIn .widening (.node (.float x) []) (.node (.float y) [])) := by
  rw [Term.cmpIn_leaf, Label.widening_float_float, F64.partialCmp, F64.isNan_of_isFinite hx,
    F64.isNan_of_isFinite hy]
  rfl

theorem cmpIn_swap (mode : NumericMode) (s t : Term) :
    Term.cmpIn mode t s = (Term.cmpIn mode s t).swap := OrientedCmp.eq_swap

/-! ## The entry points of the interpreter -/

section Interp

variable {p p' : Process} {v w : InterpValue} {s t : Term} {l r : AnyValueRef} {a b : AnyValue}
  {n : Nat}

/-- The computation answers `x`. -/
def Returns {α : Type} (op : ProcessM α) (p : Process) (x : α) : Prop := ∃ p', op p = .ok (x, p')

theorem Returns.pure {α : Type} (x : α) : Returns (return x) p x := ⟨p, rfl⟩

theorem interpOperatorEq_returns (hv : v.Denotes p s) (hw : w.Denotes p t)
    (hbox : Returns (do return (← onRefWords (fzValueEqWideningRef n) v w) != 0) p
      (Term.cmpIn .widening s t).isEq) :
    Returns (interpOperatorEq n v w) p (Term.cmpIn .widening s t).isEq := by
  cases hv with
  | int n =>
    cases hw with
    | int m =>
      rw [cmpIn_int_int, isEq_compare_int]
      exact .pure _
    | @float y hy =>
      refine ⟨p, ?_⟩
      rw [interpOperatorEq, StateT.liftM_bind_run_ok (by rw [compareIntFloat_eq_cmpIn n hy]; rfl)]
      rfl
    | _ => exact hbox
  | @float x hx =>
    cases hw with
    | int m =>
      refine ⟨p, ?_⟩
      rw [interpOperatorEq, StateT.liftM_bind_run_ok (by rw [compareIntFloat_eq_cmpIn m hx]; rfl),
        cmpIn_swap, Ordering.isEq_swap]
      rfl
    | @float y hy =>
      have heq : x.ieeeEq y =
          (Term.cmpIn .widening (.node (.float x) []) (.node (.float y) [])).isEq := by
        rw [F64.ieeeEq, partialCmp_eq_cmpIn hx hy]
        cases Term.cmpIn .widening (.node (.float x) []) (.node (.float y) []) <;> rfl
      rw [← heq]
      exact .pure _
    | _ => exact hbox
  | _ => cases hw <;> exact hbox

theorem interpCmp_returns (hv : v.Denotes p s) (hw : w.Denotes p t)
    (hbox : Returns (onRefWords (fzValueCmpRef n) v w) p
      (orderingToI64 (Term.cmpIn .widening s t))) :
    Returns (interpCmp n v w) p (orderingToI64 (Term.cmpIn .widening s t)) := by
  cases hv with
  | int n =>
    cases hw with
    | int m =>
      rw [cmpIn_int_int]
      exact .pure _
    | @float y hy =>
      refine ⟨p, ?_⟩
      rw [interpCmp, StateT.liftM_bind_run_ok (by rw [compareIntFloat_eq_cmpIn n hy]; rfl)]
      rfl
    | _ => exact hbox
  | @float x hx =>
    cases hw with
    | int m =>
      refine ⟨p, ?_⟩
      rw [interpCmp, StateT.liftM_bind_run_ok (by rw [compareIntFloat_eq_cmpIn m hx]; rfl),
        cmpIn_swap, Ordering.swap_swap]
      rfl
    | @float y hy =>
      refine ⟨p, ?_⟩
      simp only [interpCmp, partialCmp_eq_cmpIn hx hy]
      rfl
    | _ => exact hbox
  | _ => cases hw <;> exact hbox

/-- The scalar an operand holds unboxed. -/
def InterpValue.lane? : InterpValue → Option RawLane
  | .int n => some (.int n)
  | .float x => some (.float x)
  | .atom id => some (.atom id)
  | _ => none

theorem InterpValue.Denotes.lane (h : v.Denotes p s) {lane : RawLane}
    (hlane : v.lane? = some lane) : p.heap.Pub lane.value s := by
  cases h with
  | int n =>
    obtain rfl := Option.some.inj hlane
    exact ⟨1, rfl⟩
  | float hx =>
    obtain rfl := Option.some.inj hlane
    exact ⟨1, if_pos hx⟩
  | @atom id name hname =>
    obtain rfl := Option.some.inj hlane
    refine ⟨1, ?_⟩
    show (p.heap.terms.node.atoms[id.toNat]?).map _ = _
    rw [hname]
    rfl
  | _ => exact nomatch hlane

theorem interpValueEq_returns (hv : v.Denotes p s) (hw : w.Denotes p t)
    (hbox : Returns (do return (← onRefWords (fzValueEqRef n) v w) != 0) p (decide (s = t))) :
    Returns (interpValueEq n v w) p (decide (s = t)) := by
  -- two unboxed scalars are compared by kind and payload
  have hlanes : ∀ lane lane', v.lane? = some lane → w.lane? = some lane' → ∀ answer,
      (answer = true ↔ lane = lane') → interpValueEq n v w = (return answer) →
      Returns (interpValueEq n v w) p (decide (s = t)) := by
    intro lane lane' hlane hlane' answer hiff heq
    have hdec : decide (s = t) = answer := by
      rw [Bool.eq_iff_iff, decide_eq_true_eq, lane_inj (hv.lane hlane) (hw.lane hlane'), hiff]
    rw [heq, hdec]
    exact .pure _
  cases v with
  | null => exact nomatch hv
  | int n =>
    cases w with
    | int m => exact hlanes _ _ rfl rfl _ (by rw [beq_iff_eq, RawLane.int.injEq]) rfl
    | float y => exact hlanes _ _ rfl rfl false (by simp) rfl
    | _ => exact hbox
  | float x =>
    cases w with
    | int m => exact hlanes _ _ rfl rfl false (by simp) rfl
    | float y =>
      exact hlanes _ _ rfl rfl _ (by rw [beq_iff_eq, F64.toBits_inj, RawLane.float.injEq]) rfl
    | _ => exact hbox
  | atom id =>
    cases w with
    | atom id' => exact hlanes _ _ rfl rfl _ (by rw [beq_iff_eq, RawLane.atom.injEq]) rfl
    | _ => exact hbox
  | emptyList =>
    cases w with
    | emptyList =>
      cases hv
      cases hw
      exact ⟨p, by rw [decide_eq_true rfl]; rfl⟩
    | _ => exact hbox
  | fnRef fnId arity d => cases w <;> exact hbox
  | ref l => cases w <;> exact hbox

end Interp

/-! ## Numeric lanes -/

theorem fzOpIi_eq (left right : Int64) (op : CompareOp) :
    fzOpIi left right op = op.holds (compare left.toInt right.toInt) := by
  cases op with
  | lt =>
    rw [fzOpIi, CompareOp.holds, Bool.eq_iff_iff, decide_eq_true_eq, Int64.lt_iff_toInt_lt,
      Ordering.isLT_iff_eq_lt, Int.compare_eq_lt]
  | lte =>
    rw [fzOpIi, CompareOp.holds, Bool.eq_iff_iff, decide_eq_true_eq, Int64.le_iff_toInt_le]
    exact Int.isLE_compare.symm
  | gt =>
    rw [fzOpIi, CompareOp.holds, Bool.eq_iff_iff, decide_eq_true_eq, Int64.lt_iff_toInt_lt,
      Ordering.isGT_iff_eq_gt, Int.compare_eq_gt]
  | gte =>
    rw [fzOpIi, CompareOp.holds, Bool.eq_iff_iff, decide_eq_true_eq, Int64.le_iff_toInt_le]
    exact Int.isGE_compare.symm
  | eq => exact (isEq_compare_int left right).symm
  | neq =>
    rw [fzOpIi, CompareOp.holds, bne, ← isEq_compare_int]
    cases compare left.toInt right.toInt <;> rfl

theorem fzOpFf_eq {left right : F64} {o : Ordering} (h : left.partialCmp right = some o)
    (op : CompareOp) : fzOpFf left right op = op.holds o := by
  cases op <;> simp only [fzOpFf, F64.lt, F64.le, F64.gt, F64.ge, F64.ieeeEq, h, Option.any_some]
  case eq => cases o <;> rfl
  case neq => cases o <;> rfl
  all_goals rfl

theorem CompareOp.flip_holds (op : CompareOp) (o : Ordering) :
    op.flip.holds o = op.holds o.swap := by
  cases op <;> cases o <;> rfl

/-! ## Agreement -/

/-- The interpreter answers what the comparator does on the boxed operands. -/
def InterpAgrees (p : Process) (v w : InterpValue) : Prop :=
  ∃ a b p', onRefWords (fun p l r => do
      return (← p.anyValueFromRefWord l, ← p.anyValueFromRefWord r)) v w p = .ok ((a, b), p') ∧
    ∃ n, ∀ m ≥ n, ∃ ow os, p'.heap.terms.compare m a b .widening = .ok ow ∧
      p'.heap.terms.compare m a b .strict = .ok os ∧
      Returns (interpOperatorEq m v w) p ow.isEq ∧
      Returns (interpCmp m v w) p (orderingToI64 ow) ∧
      Returns (interpValueEq m v w) p os.isEq

/-- The runtime answers on references what the comparator does on their values. -/
def RefsAgree (p : Process) (l r : AnyValueRef) (a b : AnyValue) : Prop :=
  ∃ n, ∀ m ≥ n, ∃ ow os, p.heap.terms.compare m a b .widening = .ok ow ∧
    p.heap.terms.compare m a b .strict = .ok os ∧
    fzValueEqWideningRef m p l r = .ok ow.isEq.toUInt64 ∧
    fzValueCmpRef m p l r = .ok (orderingToI64 ow) ∧
    fzValueEqRef m p l r = .ok os.isEq.toUInt64

/-- The runtime answers on a reference and a raw lane what the comparator does on their values, in
the order of the operands.  Equality with a lane is strict; for an atom that is `==` too. -/
def LaneAgrees (p : Process) (l : AnyValueRef) (a : AnyValue) (lane : RawLane) : Prop :=
  ∃ n, ∀ m ≥ n, ∃ ow ow' os, p.heap.terms.compare m a lane.value .widening = .ok ow ∧
    p.heap.terms.compare m lane.value a .widening = .ok ow' ∧
    p.heap.terms.compare m a lane.value .strict = .ok os ∧
    fzValueCmpRawConst m p l lane.kind.tag.toUInt32 lane.raw 0 = .ok (orderingToI64 ow) ∧
    (∀ swap ≠ 0, fzValueCmpRawConst m p l lane.kind.tag.toUInt32 lane.raw swap =
      .ok (orderingToI64 ow')) ∧
    fzValueEqRawConst p l lane.kind.tag.toUInt32 lane.raw = .ok os.isEq.toUInt64 ∧
    (lane.kind = .atom → os.isEq = ow.isEq)

/-- The numeric entry points answer what the comparator does on the numbers. -/
def NumbersAgree (c : TermComparator) : Prop :=
  ∀ m, (∀ x y : Int64, ∃ ow os, c.compare (m + 1) (.int x) (.int y) .widening = .ok ow ∧
      c.compare (m + 1) (.int x) (.int y) .strict = .ok os ∧
      (∀ op, fzOpIi x y op = op.holds ow) ∧ fzOpIdenticalIi x y = os.isEq) ∧
    (∀ x y : F64, x.isFinite → y.isFinite →
      ∃ ow os, c.compare (m + 1) (.float x) (.float y) .widening = .ok ow ∧
      c.compare (m + 1) (.float x) (.float y) .strict = .ok os ∧
      (∀ op, fzOpFf x y op = op.holds ow) ∧ fzOpIdenticalFf x y = os.isEq) ∧
    ∀ (x : Int64) (y : F64), y.isFinite →
      ∃ o o', c.compare (m + 1) (.int x) (.float y) .widening = .ok o ∧
      c.compare (m + 1) (.float y) (.int x) .widening = .ok o' ∧
      (∀ op, fzOpIf x y op = .ok (op.holds o)) ∧ (∀ op, fzOpFi y x op = .ok (op.holds o')) ∧
      fzIntFloatCmp x y = .ok (orderingToI64 o)

section Agreement

variable {p : Process} {v w : InterpValue} {l r : AnyValueRef} {a b : AnyValue} {s t : Term}

theorem interpAgrees (hv : v.Denotes p s) (hw : w.Denotes p t) : InterpAgrees p v w := by
  obtain ⟨p', l, r, a, b, hask, hla, hrb, has, hbt⟩ := exists_boxed hv hw
  obtain ⟨n, hn⟩ := exists_compare has hbt
  refine ⟨a, b, p', ?_, n, fun m hm => ⟨_, _, hn m hm _, hn m hm _, ?_, ?_, ?_⟩⟩
  · rw [hask, hla.read, hrb.read]
    rfl
  · refine interpOperatorEq_returns hv hw ⟨p', ?_⟩
    have hrun := hask (fzValueEqWideningRef m)
    rw [fzValueEqWideningRef_eq hla hrb (hn m hm _)] at hrun
    rw [StateT.bind_run_ok hrun, isEq_toUInt64_ne_zero]
    rfl
  · refine interpCmp_returns hv hw ⟨p', ?_⟩
    rw [hask, fzValueCmpRef_eq hla hrb (hn m hm _)]
    rfl
  · rw [isEq_cmpIn_strict]
    refine interpValueEq_returns hv hw ⟨p', ?_⟩
    have hrun := hask (fzValueEqRef m)
    rw [fzValueEqRef_eq hla hrb (hn m hm _)] at hrun
    rw [StateT.bind_run_ok hrun, isEq_toUInt64_ne_zero, isEq_cmpIn_strict]
    rfl

theorem refsAgree (hl : p.Refers l a) (hr : p.Refers r b) (ha : p.heap.Pub a s)
    (hb : p.heap.Pub b t) : RefsAgree p l r a b := by
  obtain ⟨n, hn⟩ := exists_compare ha hb
  refine ⟨n, fun m hm => ⟨_, _, hn m hm _, hn m hm _, ?_, ?_, ?_⟩⟩
  · exact fzValueEqWideningRef_eq hl hr (hn m hm _)
  · exact fzValueCmpRef_eq hl hr (hn m hm _)
  · exact fzValueEqRef_eq hl hr (hn m hm _)

theorem isEq_cmpIn_atom (s : Term) (name : String) :
    (Term.cmpIn .strict s (.node (.atom name) [])).isEq =
      (Term.cmpIn .widening s (.node (.atom name) [])).isEq := by
  obtain ⟨k, ts⟩ := s
  rw [Term.cmpIn_node, Term.cmpIn_node]
  by_cases hk : ∃ x, k = .float x
  · obtain ⟨x, rfl⟩ := hk
    have hrank : (Label.float x).rank ≠ (Label.atom name).rank := Nat.zero_ne_one
    rw [Label.cmpIn_of_rank_ne hrank, Label.cmpIn_of_rank_ne hrank]
    rfl
  · have hk' : ∀ x, k ≠ .float x := fun x hx => hk ⟨x, hx⟩
    rw [Label.cmpIn_eq_cmp hk' (by simp), Label.cmpIn_eq_cmp hk' (by simp)]
    cases ts with
    | nil => rfl
    | cons t ts => rfl

theorem laneAgrees {lane : RawLane} (hl : p.Refers l a) (ha : p.heap.Pub a s)
    (hb : p.heap.Pub lane.value t) : LaneAgrees p l a lane := by
  obtain ⟨k, hk, rfl⟩ := published_lane hb
  have hlane := isValue_of_label? hk
  obtain ⟨i, hi⟩ := exists_compare ha hb
  obtain ⟨j, hj⟩ := exists_compare hb ha
  refine ⟨max i j, fun m hm => ⟨_, _, _, hi m (by omega) _, hj m (by omega) _,
    hi m (by omega) _, ?_, fun swap hswap => ?_, ?_, ?_⟩⟩
  · exact fzValueCmpRawConst_eq hl hlane 0 (by rw [if_pos rfl, hi m (by omega)])
  · exact fzValueCmpRawConst_eq hl hlane swap (by rw [if_neg hswap, hj m (by omega)])
  · rw [fzValueEqRawConst_eq hl ha hb, isEq_cmpIn_strict]
  · intro hatom
    cases lane <;> simp only [RawLane.kind, reduceCtorEq] at hatom
    obtain ⟨name, -, rfl⟩ := Option.map_eq_some_iff.mp hk
    exact isEq_cmpIn_atom s name

theorem numbersAgree (c : TermComparator) : NumbersAgree c := by
  have hcompare : ∀ (m : Nat) (mode : NumericMode) (a b : AnyValue) (k l : Label),
      c.term? (m + 1) a = some (.node k []) → c.term? (m + 1) b = some (.node l []) →
      c.compare (m + 1) a b mode = .ok (Term.cmpIn mode (.node k []) (.node l [])) :=
    fun m mode a b k l ha hb => compare_eq_cmpIn (m + 1) mode a b _ _ ha hb
  refine fun m => ⟨fun x y => ?_, fun x y hx hy => ?_, fun x y hy => ?_⟩
  · refine ⟨_, _, hcompare m _ _ _ _ _ rfl rfl, hcompare m _ _ _ _ _ rfl rfl, fun op => ?_, ?_⟩
    · rw [cmpIn_int_int, fzOpIi_eq]
    · rw [cmpIn_int_int, isEq_compare_int, fzOpIdenticalIi]
  · have hfx : c.term? (m + 1) (.float x) = some (.node (.float x) []) := if_pos hx
    have hfy : c.term? (m + 1) (.float y) = some (.node (.float y) []) := if_pos hy
    refine ⟨_, _, hcompare m _ _ _ _ _ hfx hfy, hcompare m _ _ _ _ _ hfx hfy, fun op => ?_, ?_⟩
    · exact fzOpFf_eq (partialCmp_eq_cmpIn hx hy) op
    · rw [Term.cmpIn_leaf, Label.cmpIn_strict, Label.cmp_float_float, fzOpIdenticalFf]
  · have hfy : c.term? (m + 1) (.float y) = some (.node (.float y) []) := if_pos hy
    have hmixed := compareIntFloat_eq_cmpIn x hy
    refine ⟨_, _, hcompare m _ _ _ _ _ rfl hfy, hcompare m _ _ _ _ _ hfy rfl, fun op => ?_,
      fun op => ?_, ?_⟩
    · rw [fzOpIf, hmixed]
      rfl
    · rw [fzOpFi, hmixed, cmpIn_swap]
      show Except.ok (op.flip.holds _) = _
      rw [CompareOp.flip_holds, Ordering.swap_swap]
    · rw [fzIntFloatCmp, hmixed]
      rfl

end Agreement

/-- Every fast comparison agrees with the comparator: on operands of the interpreter, on
references, on a reference and a raw lane, and on two numeric lanes. -/
theorem fast_comparisons_agree (p : Process) :
    (∀ v w s t, InterpValue.Denotes p v s → InterpValue.Denotes p w t → InterpAgrees p v w) ∧
    (∀ l r a b s t, p.Refers l a → p.Refers r b → p.heap.Pub a s → p.heap.Pub b t →
      RefsAgree p l r a b) ∧
    (∀ l a lane s t, p.Refers l a → p.heap.Pub a s → p.heap.Pub (RawLane.value lane) t →
      LaneAgrees p l a lane) ∧ NumbersAgree p.heap.terms :=
  ⟨fun _ _ _ _ hv hw => interpAgrees hv hw, fun _ _ _ _ _ _ hl hr ha hb => refsAgree hl hr ha hb,
    fun _ _ _ _ _ hl ha hb => laneAgrees hl ha hb, numbersAgree p.heap.terms⟩

end Fz.Terms
