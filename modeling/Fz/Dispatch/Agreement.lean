import Fz.Dispatch.Exec

/-!
# What a demand observes

Two values agree on a demand when nothing the demand asks about tells them apart.  `whole` tells any
two values apart and `ignore` none.  A tuple demand sees the form a value is delivered in, how many
fields it has, and of each field it names what it asks of that field.  A list demand sees the form,
whether there is a cell, and of its head what it asks of the elements.

One demand is below another when agreeing on the other is agreeing on it.  A join is above what was
joined, so an input charged with many questions observes at least what each of them does.
-/

namespace Fz.Dispatch

open Fz.Base

/-! ## Views of a value -/

/-- The form a value is delivered in. -/
inductive Form where
  | word
  | absent
  | lanes
  | callable
  | bare
deriving DecidableEq, Repr

inductive ListKind where
  | empty
  | cell
  | other
deriving DecidableEq, Repr

namespace Value

/-- The fields of a value by position, and whether it is a tuple.  A tuple is a struct. -/
def positions : Value → Option (Bool × List Value)
  | .tuple fields => some (true, fields)
  | .struct _ fields => some (false, fields.map Prod.snd)
  | _ => none

def listKind : Value → ListKind
  | .emptyList => .empty
  | .cons _ _ => .cell
  | _ => .other

def head? : Value → Option Value
  | .cons head _ => some head
  | _ => none

end Value

namespace Bound

def form : Bound → Form
  | .runtime _ => .word
  | .absent => .absent
  | .tuple _ => .lanes
  | .callable (some _) => .callable
  | .callable none => .bare

/-- The word a value is delivered with. -/
def given : Bound → Option Value
  | .runtime value => some value
  | .callable word => word
  | .absent | .tuple _ => none

def positions : Bound → Option (Bool × List Bound)
  | .tuple lanes => some (true, lanes)
  | b => (b.given.bind Value.positions).map fun p => (p.1, p.2.map .runtime)

def arity (b : Bound) : Option (Bool × Nat) := b.positions.map fun p => (p.1, p.2.length)

def part (b : Bound) (index : Nat) : Option Bound := b.positions.bind fun p => p.2[index]?

/-- What a question about lists sees.  Lanes are built to answer it. -/
def listSeen (b : Bound) : Except Broken ListKind := Value.listKind <$> b.word

def head (b : Bound) : Option Bound := (b.given.bind Value.head?).map .runtime

end Bound

/-! ## Agreement -/

mutual
/-- Nothing the demand asks about tells the two values apart. -/
def DispatchDemand.Agree : DispatchDemand → Bound → Bound → Prop
  | .ignore, _, _ => True
  | .whole, b, c => b = c
  | .tupleFields fields, b, c => b.form = c.form ∧ b.arity = c.arity ∧ fields.Agree b c
  | .listShape elem, b, c => b.form = c.form ∧ b.listSeen = c.listSeen ∧
      ∀ x y, b.head = some x → c.head = some y → elem.Agree x y

def DemandFields.Agree : DemandFields → Bound → Bound → Prop
  | .nil, _, _ => True
  | .cons field demand rest, b, c =>
    (∀ x y, b.part field = some x → c.part field = some y → demand.Agree x y) ∧ rest.Agree b c
end

/-- Agreement of two inputs.  One that nothing is asked of need not be there. -/
def DispatchDemand.AgreeInput (d : DispatchDemand) : Option Bound → Option Bound → Prop
  | some b, some c => d.Agree b c
  | none, none => True
  | _, _ => d = .ignore

/-- Agreeing on `e` is agreeing on `d`. -/
def DispatchDemand.Below (d e : DispatchDemand) : Prop :=
  ∀ b c, e.AgreeInput b c → d.AgreeInput b c

section Agreement

variable {b c : Bound} {d e : DispatchDemand}

mutual
theorem DispatchDemand.Agree.refl (d : DispatchDemand) (b : Bound) : d.Agree b b := by
  cases d with
  | ignore => trivial
  | whole => rfl
  | tupleFields fields => exact ⟨rfl, rfl, DemandFields.Agree.refl fields b⟩
  | listShape elem =>
    refine ⟨rfl, rfl, fun x y hx hy => ?_⟩
    cases hx.symm.trans hy
    exact DispatchDemand.Agree.refl elem x

theorem DemandFields.Agree.refl (fields : DemandFields) (b : Bound) : fields.Agree b b := by
  cases fields with
  | nil => trivial
  | cons field demand rest =>
    refine ⟨fun x y hx hy => ?_, DemandFields.Agree.refl rest b⟩
    cases hx.symm.trans hy
    exact DispatchDemand.Agree.refl demand x
end

theorem DemandFields.Agree.of_upsert {fields : DemandFields} {field : Nat}
    {update : DispatchDemand → DispatchDemand} (hup : ∀ d x y, (update d).Agree x y → d.Agree x y)
    (h : (fields.upsert field update).Agree b c) :
    fields.Agree b c ∧ ∃ d, ∀ x y, b.part field = some x → c.part field = some y →
      (update d).Agree x y := by
  cases fields with
  | nil => exact ⟨trivial, _, h.1⟩
  | cons k d rest =>
    rw [DemandFields.upsert] at h
    split at h
    · exact ⟨h.2, _, h.1⟩
    · split at h
      next heq =>
        subst heq
        exact ⟨⟨fun x y hx hy => hup d x y (h.1 x y hx hy), h.2⟩, d, h.1⟩
      next =>
        obtain ⟨hrest, hat⟩ := DemandFields.Agree.of_upsert hup h.2
        exact ⟨⟨h.1, hrest⟩, hat⟩

mutual
theorem DispatchDemand.Agree.of_join {d e : DispatchDemand} {b c : Bound}
    (h : (d.join e).Agree b c) : d.Agree b c ∧ e.Agree b c := by
  have hwhole : ∀ d e : DispatchDemand, DispatchDemand.whole.Agree b c →
      d.Agree b c ∧ e.Agree b c := by
    rintro d e (rfl : b = c)
    exact ⟨.refl d b, .refl e b⟩
  cases e with
  | ignore => cases d <;> exact ⟨h, trivial⟩
  | whole => cases d <;> exact hwhole _ _ h
  | tupleFields next =>
    cases d with
    | ignore => exact ⟨trivial, h⟩
    | whole => exact hwhole _ _ h
    | listShape elem => exact hwhole _ _ h
    | tupleFields current =>
      obtain ⟨hcurrent, hnext⟩ := DemandFields.Agree.of_join h.2.2
      exact ⟨⟨h.1, h.2.1, hcurrent⟩, ⟨h.1, h.2.1, hnext⟩⟩
  | listShape next =>
    cases d with
    | ignore => exact ⟨trivial, h⟩
    | whole => exact hwhole _ _ h
    | tupleFields fields => exact hwhole _ _ h
    | listShape current =>
      exact ⟨⟨h.1, h.2.1, fun x y hx hy => (DispatchDemand.Agree.of_join (h.2.2 x y hx hy)).1⟩,
        ⟨h.1, h.2.1, fun x y hx hy => (DispatchDemand.Agree.of_join (h.2.2 x y hx hy)).2⟩⟩

theorem DemandFields.Agree.of_join {current next : DemandFields} {b c : Bound}
    (h : (current.join next).Agree b c) : current.Agree b c ∧ next.Agree b c := by
  cases next with
  | nil => exact ⟨h, trivial⟩
  | cons field demand rest =>
    rw [DemandFields.join] at h
    obtain ⟨hup, hrest⟩ := DemandFields.Agree.of_join h
    obtain ⟨hcurrent, slot, hat⟩ := DemandFields.Agree.of_upsert
      (fun d x y hd => (DispatchDemand.Agree.of_join (e := demand) hd).1) hup
    exact ⟨hcurrent, fun x y hx hy => (DispatchDemand.Agree.of_join (hat x y hx hy)).2, hrest⟩
end

/-! ## The order -/

namespace DispatchDemand

theorem join_eq_ignore (h : d.join e = .ignore) : d = .ignore ∧ e = .ignore := by
  cases d <;> cases e <;> simp_all [join]

theorem below_iff : d.Below e ↔ (e = .ignore → d = .ignore) ∧ ∀ b c, e.Agree b c → d.Agree b c := by
  constructor
  · intro h
    exact ⟨fun he => h none (some .absent) he, fun b c => h (some b) (some c)⟩
  · rintro ⟨hignore, hagree⟩ b c h
    cases b with
    | none =>
      cases c with
      | none => trivial
      | some c => exact hignore h
    | some b =>
      cases c with
      | none => exact hignore h
      | some c => exact hagree b c h

theorem Below.agree (h : d.Below e) (he : e.Agree b c) : d.Agree b c := (below_iff.mp h).2 b c he

theorem Below.refl (d : DispatchDemand) : d.Below d := fun _ _ h => h

theorem Below.trans {f : DispatchDemand} (h : d.Below e) (h' : e.Below f) : d.Below f :=
  fun b c hf => h b c (h' b c hf)

theorem below_join_left (d e : DispatchDemand) : d.Below (d.join e) :=
  below_iff.mpr ⟨fun h => (join_eq_ignore h).1, fun _ _ h => h.of_join.1⟩

theorem below_join_right (d e : DispatchDemand) : e.Below (d.join e) :=
  below_iff.mpr ⟨fun h => (join_eq_ignore h).2, fun _ _ h => h.of_join.2⟩

theorem below_whole (d : DispatchDemand) : d.Below .whole := by
  refine below_iff.mpr ⟨fun h => (nomatch h), ?_⟩
  rintro b c (rfl : b = c)
  exact .refl d b

theorem Below.atStep (h : d.Below e) (step : DemandPathStep) :
    (demandAtStep step d).Below (demandAtStep step e) := by
  cases step with
  | tupleField index =>
    exact below_iff.mpr ⟨fun he => (nomatch he), fun b c he =>
      ⟨he.1, he.2.1, fun x y hx hy => h.agree (he.2.2.1 x y hx hy), trivial⟩⟩
  | listHead =>
    exact below_iff.mpr ⟨fun he => (nomatch he), fun b c he =>
      ⟨he.1, he.2.1, fun x y hx hy => h.agree (he.2.2 x y hx hy)⟩⟩
  | structField => exact .refl _
  | listTail => exact .refl _
  | mapValue => exact .refl _
  | bitstringField => exact .refl _

end DispatchDemand

/-! ## Building lanes -/

theorem Bound.arity_of_word {v : Value} (h : b.word = .ok v) :
    (Bound.runtime v).arity = b.arity := by
  cases b with
  | runtime u =>
    cases h
    rfl
  | absent => cases h
  | tuple lanes =>
    obtain ⟨vs, hvs, rfl⟩ := Except.map_eq_ok.mp h
    simp [Bound.arity, Bound.positions, Bound.given, Value.positions, Bound.length_words hvs]
  | callable word =>
    cases word with
    | none => cases h
    | some u =>
      cases h
      rfl

theorem Bound.part_of_word {v : Value} {i : Nat} {x : Bound} (h : b.word = .ok v)
    (hx : (Bound.runtime v).part i = some x) :
    ∃ y u, b.part i = some y ∧ y.word = .ok u ∧ x = .runtime u := by
  have hgiven : ∀ w : Value, (Bound.runtime w).part i = some x →
      ∃ u, x.word = .ok u ∧ x = .runtime u := by
    intro w hw
    obtain ⟨p, hp, hi⟩ := Option.bind_eq_some_iff.mp hw
    obtain ⟨q, _, rfl⟩ := Option.map_eq_some_iff.mp hp
    rw [List.getElem?_map] at hi
    obtain ⟨u, _, rfl⟩ := Option.map_eq_some_iff.mp hi
    exact ⟨u, rfl, rfl⟩
  cases b with
  | runtime u =>
    cases h
    obtain ⟨u, hu, hxu⟩ := hgiven _ hx
    exact ⟨x, u, hx, hu, hxu⟩
  | absent => cases h
  | tuple lanes =>
    obtain ⟨vs, hvs, rfl⟩ := Except.map_eq_ok.mp h
    have hx' : (vs.map Bound.runtime)[i]? = some x := hx
    rw [List.getElem?_map] at hx'
    obtain ⟨u, hu, rfl⟩ := Option.map_eq_some_iff.mp hx'
    rcases Bound.words_getElem? hvs i with ⟨y, w, hy, hw, hword⟩ | ⟨_, hnone⟩
    · cases hu.symm.trans hw
      exact ⟨y, u, hy, hword, rfl⟩
    · cases hu.symm.trans hnone
  | callable word =>
    cases word with
    | none => cases h
    | some u =>
      cases h
      obtain ⟨u, hu, hxu⟩ := hgiven _ hx
      exact ⟨x, u, hx, hu, hxu⟩

theorem Bound.head_of_word {v : Value} (h : b.word = .ok v) (x : Bound)
    (hx : (Bound.runtime v).head = some x) : b.head = some x := by
  cases b with
  | runtime u =>
    cases h
    exact hx
  | absent => cases h
  | tuple lanes =>
    obtain ⟨vs, _, rfl⟩ := Except.map_eq_ok.mp h
    cases hx
  | callable word =>
    cases word with
    | none => cases h
    | some u =>
      cases h
      exact hx

mutual
theorem DispatchDemand.Agree.built {d : DispatchDemand} {b c : Bound} {v w : Value}
    (h : d.Agree b c) (hv : b.word = .ok v) (hw : c.word = .ok w) :
    d.Agree (.runtime v) (.runtime w) := by
  cases d with
  | ignore => trivial
  | whole =>
    obtain rfl : b = c := h
    cases hv.symm.trans hw
    rfl
  | tupleFields fields =>
    refine ⟨rfl, ?_, DemandFields.Agree.built h.2.2 hv hw⟩
    rw [Bound.arity_of_word hv, Bound.arity_of_word hw]
    exact h.2.1
  | listShape elem =>
    refine ⟨rfl, ?_, fun x y hx hy =>
      h.2.2 x y (Bound.head_of_word hv x hx) (Bound.head_of_word hw y hy)⟩
    have hseen := h.2.1
    rw [Bound.listSeen, Bound.listSeen, hv, hw] at hseen
    exact hseen

theorem DemandFields.Agree.built {fields : DemandFields} {b c : Bound} {v w : Value}
    (h : fields.Agree b c) (hv : b.word = .ok v) (hw : c.word = .ok w) :
    fields.Agree (.runtime v) (.runtime w) := by
  cases fields with
  | nil => trivial
  | cons field demand rest =>
    refine ⟨fun x y hx hy => ?_, DemandFields.Agree.built h.2 hv hw⟩
    obtain ⟨x', u, hx', hu, rfl⟩ := Bound.part_of_word hv hx
    obtain ⟨y', u', hy', hu', rfl⟩ := Bound.part_of_word hw hy
    exact DispatchDemand.Agree.built (h.1 x' y' hx' hy') hu hu'
end

end Agreement

end Fz.Dispatch
