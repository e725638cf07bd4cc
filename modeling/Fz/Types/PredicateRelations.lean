import Fz.Base.List
import Fz.Types.RuntimePredicateSound

/-!
# Comparing runtime tests

`containedIn` and `overlaps` compare two tests axis by axis, as if the axes were independent.  They
are not quite: the other-structs axis admits the unnamed structs of every arity that the tuple axis
does not name, so naming one more arity takes tuples away from it.  A test that admits other structs
is then contained in one that names more arities, and does not overlap a test for tuples of an arity
it does not name, though it admits such tuples.

Everywhere else the comparisons are sound (`comparisons_sound`): where no sub-question is of that
kind (`Agree`), containment of tests is containment of what they admit, and tests that do not
overlap admit no common value.
-/

namespace Fz.Types

open Fz.Base

namespace RuntimeTypePredicate

/-! ## The comparisons as relations -/

theorem positionsContainedIn_iff {ps qs : List RuntimeTypePredicate} (h : ps.length = qs.length) :
    positionsContainedIn ps qs = true ↔ List.Forall₂ (fun p q => p.containedIn q = true) ps qs := by
  induction ps generalizing qs with
  | nil =>
    obtain rfl := List.eq_nil_of_length_eq_zero h.symm
    simp [positionsContainedIn]
  | cons p ps ih =>
    cases qs with
    | nil => cases h
    | cons q qs =>
      rw [positionsContainedIn, Bool.and_eq_true, List.forall₂_cons, ih (Nat.succ.inj h)]

theorem headsContainedIn_iff {heads heads' : List RuntimeTypePredicate} :
    headsContainedIn heads heads' = true ↔ ∀ p ∈ heads, ∃ q ∈ heads', p.containedIn q = true := by
  induction heads with
  | nil => simp [headsContainedIn]
  | cons p heads ih =>
    rw [headsContainedIn, Bool.and_eq_true, ih, List.any_eq_true, List.forall_mem_cons]

/-- One shape lies inside another, position by position. -/
def ShapeInside (s s' : List RuntimeTypePredicate) : Prop :=
  List.Forall₂ (fun p q => p.containedIn q = true) s s'

theorem shapesContainedIn_iff {shapes shapes' : List (List RuntimeTypePredicate)} :
    shapesContainedIn shapes shapes' = true ↔ ∀ s ∈ shapes, ∃ s' ∈ shapes', ShapeInside s s' := by
  induction shapes with
  | nil => simp [shapesContainedIn]
  | cons s shapes ih =>
    rw [shapesContainedIn, Bool.and_eq_true, ih, List.any_eq_true, List.forall_mem_cons]
    refine and_congr_left fun _ => exists_congr fun s' => and_congr_right fun _ => ?_
    rw [Bool.and_eq_true, decide_eq_true_eq]
    constructor
    · rintro ⟨hlen, hpos⟩
      exact (positionsContainedIn_iff hlen.symm).mp hpos
    · intro h
      exact ⟨h.length_eq.symm, (positionsContainedIn_iff h.length_eq).mpr h⟩

end RuntimeTypePredicate

namespace CallableShape

theorem inside_iff {s o : CallableShape RuntimeTypePredicate} : s.inside o = true ↔
      s.target = o.target ∧ RuntimeTypePredicate.ShapeInside s.captures o.captures := by
  rw [inside, Bool.and_eq_true, Bool.and_eq_true, decide_eq_true_eq, decide_eq_true_eq, and_assoc]
  refine and_congr_right fun _ => ?_
  constructor
  · rintro ⟨hlen, hpos⟩
    exact (RuntimeTypePredicate.positionsContainedIn_iff hlen).mp hpos
  · intro h
    exact ⟨h.length_eq, (RuntimeTypePredicate.positionsContainedIn_iff h.length_eq).mpr h⟩

end CallableShape

namespace RuntimeTypePredicate

theorem callablesContainedIn_iff {shapes shapes' : List (CallableShape RuntimeTypePredicate)} :
    callablesContainedIn shapes shapes' = true ↔
      ∀ s ∈ shapes, ∃ s' ∈ shapes', s.inside s' = true := by
  induction shapes with
  | nil => simp [callablesContainedIn]
  | cons s shapes ih =>
    rw [callablesContainedIn, Bool.and_eq_true, ih, List.any_eq_true, List.forall_mem_cons]
    rfl

/-- What `containedIn` says of each axis. -/
structure ContainedIn (p q : RuntimeTypePredicate) : Prop where
  ints : q.ints.containsAll p.ints = true
  floats : q.floats.containsAll p.floats = true
  atoms : q.atoms.containsAll p.atoms = true
  listShapes : q.lists.shapes.containsAll p.lists.shapes = true
  heads : q.lists.isExact = true → p.lists.isExact = true ∧
    ∀ h ∈ p.lists.heads, ∃ h' ∈ q.lists.heads, h.containedIn h' = true
  arities : q.tuples.arities.containsAll p.tuples.arities = true
  tuples : q.tuples.isExact = true → p.tuples.isExact = true ∧
    ∀ s ∈ p.tuples.shapes, ∃ s' ∈ q.tuples.shapes, ShapeInside s s'
  namedStructs : q.namedStructs.containsAll p.namedStructs = true
  otherStructs : p.allowOtherStructs = true → q.allowOtherStructs = true
  maps : p.maps = true → q.maps = true
  binaries : p.binaries = true → q.binaries = true
  targets : q.callables.targets.containsAll p.callables.targets = true
  callables : q.callables.isExact = true → p.callables.isExact = true ∧
    ∀ s ∈ p.callables.shapes, ∃ s' ∈ q.callables.shapes, s.inside s' = true
  resources : p.resources = true → q.resources = true

variable {p q : RuntimeTypePredicate}

theorem containedIn_iff : p.containedIn q = true ↔ ContainedIn p q := by
  obtain ⟨_, _, _, ⟨_, _, _⟩, ⟨_, _, _⟩, _, _, _, _, ⟨_, _, _⟩, _⟩ := p
  have himp : ∀ a b : Bool, (a || !b) = true ↔ (b = true → a = true) := by decide
  have hexact : ∀ a b c : Bool, (!a || b && c) = true ↔ (a = true → b = true ∧ c = true) := by
    decide
  simp only [containedIn, Bool.and_eq_true, himp, hexact, headsContainedIn_iff,
    shapesContainedIn_iff, callablesContainedIn_iff]
  constructor
  · rintro ⟨⟨⟨⟨⟨⟨⟨⟨⟨⟨h1, h2⟩, h3⟩, h4, h5⟩, h6, h7⟩, h8⟩, h9⟩, h10⟩, h11⟩, h12, h13⟩, h14⟩
    exact ⟨h1, h2, h3, h4, h5, h6, h7, h8, h9, h10, h11, h12, h13, h14⟩
  · rintro ⟨h1, h2, h3, h4, h5, h6, h7, h8, h9, h10, h11, h12, h13, h14⟩
    exact ⟨⟨⟨⟨⟨⟨⟨⟨⟨⟨h1, h2⟩, h3⟩, h4, h5⟩, h6, h7⟩, h8⟩, h9⟩, h10⟩, h11⟩, h12, h13⟩, h14⟩

theorem positionsOverlap_iff {ps qs : List RuntimeTypePredicate} (h : ps.length = qs.length) :
    positionsOverlap ps qs = true ↔ List.Forall₂ (fun p q => p.overlaps q = true) ps qs := by
  induction ps generalizing qs with
  | nil =>
    obtain rfl := List.eq_nil_of_length_eq_zero h.symm
    simp [positionsOverlap]
  | cons p ps ih =>
    cases qs with
    | nil => cases h
    | cons q qs => rw [positionsOverlap, Bool.and_eq_true, List.forall₂_cons, ih (Nat.succ.inj h)]

/-- Two shapes overlap at every position. -/
def ShapesMeet (s s' : List RuntimeTypePredicate) : Prop :=
  List.Forall₂ (fun p q => p.overlaps q = true) s s'

theorem length_and_positionsOverlap_iff {s s' : List RuntimeTypePredicate} :
    s.length = s'.length ∧ positionsOverlap s s' = true ↔ ShapesMeet s s' := by
  constructor
  · rintro ⟨hlen, hpos⟩
    exact (positionsOverlap_iff hlen).mp hpos
  · intro h
    exact ⟨h.length_eq, (positionsOverlap_iff h.length_eq).mpr h⟩

theorem headsOverlap_iff {heads heads' : List RuntimeTypePredicate} :
    headsOverlap heads heads' = true ↔ ∃ p ∈ heads, ∃ q ∈ heads', p.overlaps q = true := by
  induction heads with
  | nil => simp [headsOverlap]
  | cons p heads ih =>
    rw [headsOverlap, Bool.or_eq_true, ih, List.any_eq_true]
    simp only [List.mem_cons, exists_eq_or_imp]

theorem someShapesOverlap_iff {shapes shapes' : List (List RuntimeTypePredicate)} :
    someShapesOverlap shapes shapes' = true ↔ ∃ s ∈ shapes, ∃ s' ∈ shapes', ShapesMeet s s' := by
  induction shapes with
  | nil => simp [someShapesOverlap]
  | cons s shapes ih =>
    rw [someShapesOverlap, Bool.or_eq_true, ih, List.any_eq_true]
    simp only [List.mem_cons, exists_eq_or_imp, Bool.and_eq_true, decide_eq_true_eq,
      length_and_positionsOverlap_iff]

theorem callablesOverlap_iff {shapes shapes' : List (CallableShape RuntimeTypePredicate)} :
    callablesOverlap shapes shapes' = true ↔
      ∃ s ∈ shapes, ∃ s' ∈ shapes', s.target = s'.target ∧ ShapesMeet s.captures s'.captures := by
  induction shapes with
  | nil => simp [callablesOverlap]
  | cons s shapes ih =>
    rw [callablesOverlap, Bool.or_eq_true, ih, List.any_eq_true]
    simp only [List.mem_cons, exists_eq_or_imp, Bool.and_eq_true, decide_eq_true_eq, and_assoc,
      length_and_positionsOverlap_iff]

/-- What it takes for two list axes to overlap: `[]`, or a head. -/
def ListsMeet (l l' : ListShapes RuntimeTypePredicate) : Prop :=
  (l.shapes.contains .empty = true ∧ l'.shapes.contains .empty = true) ∨
    (l.asksTheHead = true → l'.asksTheHead = true →
      ∃ p ∈ l.heads, ∃ q ∈ l'.heads, p.overlaps q = true)

/-- The axis two tests overlap on. -/
inductive Overlaps (p q : RuntimeTypePredicate) : Prop where
  | ints (h : p.ints.overlaps q.ints = true)
  | floats (h : p.floats.overlaps q.floats = true)
  | atoms (h : p.atoms.overlaps q.atoms = true)
  | lists (h : p.lists.shapes.overlaps q.lists.shapes = true) (hmeet : ListsMeet p.lists q.lists)
  | tuples (h : p.tuples.arities.overlaps q.tuples.arities = true)
      (hmeet : p.tuples.isExact = true → q.tuples.isExact = true →
        ∃ s ∈ p.tuples.shapes, ∃ s' ∈ q.tuples.shapes, ShapesMeet s s')
  | namedStructs (h : p.namedStructs.overlaps q.namedStructs = true)
  | otherStructs (h : p.allowOtherStructs = true ∧ q.allowOtherStructs = true)
  | maps (h : p.maps = true ∧ q.maps = true)
  | binaries (h : p.binaries = true ∧ q.binaries = true)
  | callables (h : p.callables.targets.overlaps q.callables.targets = true)
      (hmeet : p.callables.isExact = true → q.callables.isExact = true →
        ∃ s ∈ p.callables.shapes, ∃ s' ∈ q.callables.shapes,
          s.target = s'.target ∧ ShapesMeet s.captures s'.captures)
  | resources (h : p.resources = true ∧ q.resources = true)

theorem overlaps_iff : p.overlaps q = true ↔ Overlaps p q := by
  obtain ⟨_, _, _, ⟨_, _, _⟩, ⟨_, _, _⟩, _, _, _, _, ⟨_, _, _⟩, _⟩ := p
  have hexact : ∀ (a b : Bool) (C : Prop),
      (a = false ∨ b = false) ∨ C ↔ (a = true → b = true → C) := by
    intro a b C
    cases a <;> cases b <;> simp
  simp only [overlaps, Bool.or_eq_true, Bool.and_eq_true, Bool.not_eq_true', hexact,
    headsOverlap_iff, someShapesOverlap_iff, callablesOverlap_iff]
  constructor
  · rintro ((((((((((h | h) | h) | ⟨h, h'⟩) | ⟨h, h'⟩) | h) | h) | h) | h) | ⟨h, h'⟩) | h)
    · exact .ints h
    · exact .floats h
    · exact .atoms h
    · exact .lists h h'
    · exact .tuples h h'
    · exact .namedStructs h
    · exact .otherStructs h
    · exact .maps h
    · exact .binaries h
    · exact .callables h h'
    · exact .resources h
  · intro h
    cases h with
    | ints h => exact .inl (.inl (.inl (.inl (.inl (.inl (.inl (.inl (.inl (.inl h)))))))))
    | floats h => exact .inl (.inl (.inl (.inl (.inl (.inl (.inl (.inl (.inl (.inr h)))))))))
    | atoms h => exact .inl (.inl (.inl (.inl (.inl (.inl (.inl (.inl (.inr h))))))))
    | lists h hmeet => exact .inl (.inl (.inl (.inl (.inl (.inl (.inl (.inr ⟨h, hmeet⟩)))))))
    | tuples h hmeet => exact .inl (.inl (.inl (.inl (.inl (.inl (.inr ⟨h, hmeet⟩))))))
    | namedStructs h => exact .inl (.inl (.inl (.inl (.inl (.inr h)))))
    | otherStructs h => exact .inl (.inl (.inl (.inl (.inr h))))
    | maps h => exact .inl (.inl (.inl (.inr h)))
    | binaries h => exact .inl (.inl (.inr h))
    | callables h hmeet => exact .inl (.inr ⟨h, hmeet⟩)
    | resources h => exact .inr h

/-! ## Sub-questions -/

/-- A question a test puts to something inside the value, or to a capture. -/
inductive Sub (p : RuntimeTypePredicate) : RuntimeTypePredicate → Prop where
  | head {h : RuntimeTypePredicate} (hh : h ∈ p.lists.heads) : Sub p h
  | position {s : List RuntimeTypePredicate} {h : RuntimeTypePredicate} (hs : s ∈ p.tuples.shapes)
      (hh : h ∈ s) : Sub p h
  | capture {s : CallableShape RuntimeTypePredicate} {h : RuntimeTypePredicate}
      (hs : s ∈ p.callables.shapes) (hh : h ∈ s.captures) : Sub p h

theorem Sub.sizeOf_lt (h : Sub p q) : sizeOf q < sizeOf p := by
  obtain ⟨_, _, _, ⟨_, heads, _⟩, ⟨_, tuples, _⟩, _, _, _, _, ⟨_, callables, _⟩, _⟩ := p
  cases h with
  | head hh =>
    have : sizeOf q < sizeOf heads := List.sizeOf_lt_of_mem hh
    simp only [mk.sizeOf_spec, ListShapes.mk.sizeOf_spec]
    omega
  | @position s _ hs hh =>
    have : sizeOf s < sizeOf tuples := List.sizeOf_lt_of_mem hs
    have : sizeOf q < sizeOf s := List.sizeOf_lt_of_mem hh
    simp only [mk.sizeOf_spec, TupleShapes.mk.sizeOf_spec]
    omega
  | @capture s _ hs hh =>
    obtain ⟨target, captures⟩ := s
    have hs : sizeOf (CallableShape.mk target captures) < sizeOf callables :=
      List.sizeOf_lt_of_mem hs
    have : sizeOf q < sizeOf captures := List.sizeOf_lt_of_mem hh
    rw [CallableShape.mk.sizeOf_spec] at hs
    simp only [mk.sizeOf_spec, CallableShapes.mk.sizeOf_spec]
    omega

theorem sub_induction {M : RuntimeTypePredicate → Prop}
    (step : ∀ p, (∀ q, Sub p q → M q) → M p) (p : RuntimeTypePredicate) : M p :=
  step p fun q _ => sub_induction step q
termination_by sizeOf p
decreasing_by
  rename_i h
  exact h.sizeOf_lt

/-! ## Containment is transitive -/

theorem ShapeInside.trans_of {s s' s'' : List RuntimeTypePredicate}
    (ih : ∀ p ∈ s, ∀ q r : RuntimeTypePredicate, p.containedIn q = true → q.containedIn r = true →
      p.containedIn r = true) (h : ShapeInside s s') (h' : ShapeInside s' s'') :
    ShapeInside s s'' := by
  induction h generalizing s'' with
  | nil => exact h'
  | @cons p q s s' hpq _ ihs =>
    cases h' with
    | cons hqr hrest =>
      exact .cons (ih p (.head _) q _ hpq hqr) (ihs (fun x hx => ih x (.tail _ hx)) hrest)

theorem containedIn_trans {p q r : RuntimeTypePredicate} (h : p.containedIn q = true)
    (h' : q.containedIn r = true) : p.containedIn r = true := by
  induction p using sub_induction generalizing q r with
  | step p ih =>
    have hpq := containedIn_iff.mp h
    have hqr := containedIn_iff.mp h'
    refine containedIn_iff.mpr ?_
    refine ⟨FiniteSet.containsAll_trans hqr.ints hpq.ints,
      FiniteSet.containsAll_trans hqr.floats hpq.floats,
      FiniteSet.containsAll_trans hqr.atoms hpq.atoms,
      FiniteSet.containsAll_trans hqr.listShapes hpq.listShapes, fun hexact => ?_,
      FiniteSet.containsAll_trans hqr.arities hpq.arities, fun hexact => ?_,
      FiniteSet.containsAll_trans hqr.namedStructs hpq.namedStructs,
      fun ho => hqr.otherStructs (hpq.otherStructs ho), fun hm => hqr.maps (hpq.maps hm),
      fun hb => hqr.binaries (hpq.binaries hb),
      FiniteSet.containsAll_trans hqr.targets hpq.targets, fun hexact => ?_,
      fun hr => hqr.resources (hpq.resources hr)⟩
    · obtain ⟨hq, hqheads⟩ := hqr.heads hexact
      obtain ⟨hp, hpheads⟩ := hpq.heads hq
      refine ⟨hp, fun x hx => ?_⟩
      obtain ⟨y, hy, hxy⟩ := hpheads x hx
      obtain ⟨z, hz, hyz⟩ := hqheads y hy
      exact ⟨z, hz, ih x (.head hx) hxy hyz⟩
    · obtain ⟨hq, hqshapes⟩ := hqr.tuples hexact
      obtain ⟨hp, hpshapes⟩ := hpq.tuples hq
      refine ⟨hp, fun s hs => ?_⟩
      obtain ⟨s', hs', hin⟩ := hpshapes s hs
      obtain ⟨s'', hs'', hin'⟩ := hqshapes s' hs'
      exact ⟨s'', hs'', hin.trans_of (fun x hx _ _ => ih x (.position hs hx)) hin'⟩
    · obtain ⟨hq, hqshapes⟩ := hqr.callables hexact
      obtain ⟨hp, hpshapes⟩ := hpq.callables hq
      refine ⟨hp, fun s hs => ?_⟩
      obtain ⟨s', hs', hin⟩ := hpshapes s hs
      obtain ⟨s'', hs'', hin'⟩ := hqshapes s' hs'
      obtain ⟨htarget, hcaptures⟩ := CallableShape.inside_iff.mp hin
      obtain ⟨htarget', hcaptures'⟩ := CallableShape.inside_iff.mp hin'
      exact ⟨s'', hs'', CallableShape.inside_iff.mpr ⟨htarget.trans htarget',
        hcaptures.trans_of (fun x hx _ _ => ih x (.capture hs hx)) hcaptures'⟩⟩

theorem inside_trans {s s' s'' : CallableShape RuntimeTypePredicate} (h : s.inside s' = true)
    (h' : s'.inside s'' = true) : s.inside s'' = true := by
  obtain ⟨htarget, hcaptures⟩ := CallableShape.inside_iff.mp h
  obtain ⟨htarget', hcaptures'⟩ := CallableShape.inside_iff.mp h'
  exact CallableShape.inside_iff.mpr ⟨htarget.trans htarget',
    hcaptures.trans_of (fun _ _ _ _ => containedIn_trans) hcaptures'⟩

/-! ## What projection builds -/

/-- A test whose axes are built as the projection builds them. -/
structure Tidy (p : RuntimeTypePredicate) : Prop where
  listsFinite : p.lists.isExact = true → p.lists.shapes.cofinite = false
  asksHeads : p.lists.isExact = true → p.lists.shapes.contains .nonEmpty = true → p.lists.heads ≠ []
  aritiesFinite : p.tuples.isExact = true → p.tuples.arities.cofinite = false
  namesTargets : p.callables.isExact = true →
    p.callables.targets = ⟨(p.callables.shapes.map CallableShape.target).toFinset, false⟩
  anyCallable : p.callables.isExact = false → p.callables.targets = .any
  othersOpen : p.allowOtherStructs = p.namedStructs.cofinite

/-- A test that is tidy, and so are all questions in it. -/
inductive WellFormed : RuntimeTypePredicate → Prop where
  | mk {p : RuntimeTypePredicate} (tidy : Tidy p) (sub : ∀ q, Sub p q → WellFormed q) : WellFormed p

theorem WellFormed.tidy {p : RuntimeTypePredicate} : WellFormed p → Tidy p
  | mk tidy _ => tidy

theorem WellFormed.sub : WellFormed p → Sub p q → WellFormed q
  | mk _ sub, h => sub q h

theorem wellFormed_none : WellFormed none := by
  refine ⟨⟨fun _ => rfl, fun _ h => (nomatch h), fun _ => rfl, fun _ => rfl, fun h => (nomatch h),
    rfl⟩, fun q hq => ?_⟩
  cases hq with
  | head h => exact nomatch h
  | position h _ => exact nomatch h
  | capture h _ => exact nomatch h

theorem wellFormed_any : WellFormed any := by
  refine ⟨⟨fun h => (nomatch h), fun h => (nomatch h), fun h => (nomatch h), fun h => (nomatch h),
    fun _ => rfl, rfl⟩, fun q hq => ?_⟩
  cases hq with
  | head h => exact nomatch h
  | position h _ => exact nomatch h
  | capture h _ => exact nomatch h

end RuntimeTypePredicate

namespace Descr

open RuntimeTypePredicate

variable {d : Descr} {sub : Ty → RuntimeTypePredicate}

theorem remove_cofinite {T : Type} [DecidableEq T] (s : FiniteSet T) (x : T) :
    (runtimeTypePredicateRemove s x).cofinite = s.cofinite := by
  rw [runtimeTypePredicateRemove]
  split
  · rename_i h
    exact h.symm
  · rename_i h
    exact (Bool.eq_false_iff.mpr h).symm

theorem foldl_finite {A T : Type} {f : FiniteSet T → A → FiniteSet T}
    (hf : ∀ s a, s.cofinite = false → (f s a).cofinite = false) (as : List A) {s : FiniteSet T}
    (hs : s.cofinite = false) : (as.foldl f s).cofinite = false := by
  induction as generalizing s with
  | nil => exact hs
  | cons a as ih => exact ih (hf s a hs)

theorem clauseListShapes_finite (c : Conj ListSig) : (clauseListShapes c).cofinite = false := by
  refine foldl_finite (fun s n hs => ?_) _ (foldl_finite (fun s p hs => ?_) _ rfl)
  · split
    · rw [remove_cofinite, hs]
    split
    · rw [remove_cofinite, hs]
    · exact hs
  · cases hp : p.allowedShapes.cofinite <;> simp [FiniteSet.intersect, hs, hp]

theorem listShapes_finite : d.runtimeTypePredicateListShapes.cofinite = false := by
  refine foldl_finite (fun s c hs => ?_) _ rfl
  simp [FiniteSet.union, hs, clauseListShapes_finite c]

theorem mem_listHeads : ∀ {cs : List (Conj ListSig)} {heads : List RuntimeTypePredicate},
    listHeads sub cs = some heads → ∀ q ∈ heads, q = RuntimeTypePredicate.any ∨ ∃ t, q = sub t := by
  intro cs
  induction cs with
  | nil =>
    intro heads h q hq
    cases h
    cases hq
  | cons c cs ih =>
    intro heads h q hq
    rw [listHeads] at h
    split at h
    · obtain ⟨rest, hrest, rfl⟩ := Option.map_eq_some_iff.mp h
      rcases List.mem_cons.mp hq with rfl | hq
      · exact .inl rfl
      · exact ih hrest q hq
    split at h
    · cases h
    split at h
    · exact ih h q hq
    · obtain ⟨rest, hrest, rfl⟩ := Option.map_eq_some_iff.mp h
      rcases List.mem_cons.mp hq with rfl | hq
      · exact .inr ⟨_, rfl⟩
      · exact ih hrest q hq

theorem mem_tupleShapes : ∀ {cs : List (Conj TupleSig)} {shapes : List (List RuntimeTypePredicate)},
    tupleShapes sub cs = some shapes → ∀ s ∈ shapes, ∀ q ∈ s, ∃ t, q = sub t := by
  intro cs
  induction cs with
  | nil =>
    intro shapes h s hs
    cases h
    cases hs
  | cons c cs ih =>
    intro shapes h s hs q hq
    rw [tupleShapes] at h
    split at h
    · cases h
    · obtain ⟨rest, hrest, rfl⟩ := Option.map_eq_some_iff.mp h
      rcases List.mem_cons.mp hs with rfl | hs
      · obtain ⟨t, -, rfl⟩ := List.mem_map.mp hq
        exact ⟨t, rfl⟩
      · exact ih hrest s hs q hq

theorem mem_callableShapes : ∀ {cs : List (Conj ArrowSig)}
    {shapes : List (CallableShape RuntimeTypePredicate)},
    callableShapes sub cs = some shapes → ∀ s ∈ shapes, ∀ q ∈ s.captures, ∃ t, q = sub t := by
  intro cs
  induction cs with
  | nil =>
    intro shapes h s hs
    cases h
    cases hs
  | cons c cs ih =>
    intro shapes h s hs q hq
    rw [callableShapes] at h
    split at h
    · cases h
    · obtain ⟨rest, hrest, rfl⟩ := Option.map_eq_some_iff.mp h
      rcases List.mem_cons.mp hs with rfl | hs
      · obtain ⟨t, -, rfl⟩ := List.mem_map.mp hq
        exact ⟨t, rfl⟩
      · exact ih hrest s hs q hq

theorem lists_spec : ((d.runtimeTypePredicateLists sub).isExact = true →
      (d.runtimeTypePredicateLists sub).shapes.cofinite = false) ∧
    ((d.runtimeTypePredicateLists sub).isExact = true →
      (d.runtimeTypePredicateLists sub).shapes.contains .nonEmpty = true →
      (d.runtimeTypePredicateLists sub).heads ≠ []) ∧ ∀ q ∈ (d.runtimeTypePredicateLists sub).heads,
      q = RuntimeTypePredicate.any ∨ ∃ t, q = sub t := by
  rw [runtimeTypePredicateLists]
  split
  · rename_i hnone
    refine ⟨fun _ => listShapes_finite, fun _ h => ?_, fun q hq => by cases hq⟩
    rw [Bool.not_eq_true'] at hnone
    cases hnone.symm.trans h
  split
  · exact ⟨fun h => (by cases h), fun h => (by cases h), fun q hq => by cases hq⟩
  · exact ⟨fun h => (by cases h), fun h => (by cases h), fun q hq => by cases hq⟩
  · rename_i heads hne hheads
    exact ⟨fun _ => listShapes_finite, fun _ _ h => hne h, mem_listHeads hheads⟩

theorem tuples_spec : ((d.runtimeTypePredicateTuples sub).isExact = true →
      (d.runtimeTypePredicateTuples sub).arities.cofinite = false) ∧
    ∀ s ∈ (d.runtimeTypePredicateTuples sub).shapes, ∀ q ∈ s, ∃ t, q = sub t := by
  rw [runtimeTypePredicateTuples]
  split
  · exact ⟨fun h => (by cases h), fun s hs => by cases hs⟩
  · rename_i shapes hshapes
    exact ⟨fun _ => rfl, mem_tupleShapes hshapes⟩

theorem callables_spec : ((d.runtimeTypePredicateCallables sub).isExact = true →
      (d.runtimeTypePredicateCallables sub).targets =
        ⟨((d.runtimeTypePredicateCallables sub).shapes.map CallableShape.target).toFinset, false⟩) ∧
    ((d.runtimeTypePredicateCallables sub).isExact = false →
      (d.runtimeTypePredicateCallables sub).targets = .any) ∧
    ∀ s ∈ (d.runtimeTypePredicateCallables sub).shapes, ∀ q ∈ s.captures, ∃ t, q = sub t := by
  rw [runtimeTypePredicateCallables]
  split
  · exact ⟨fun h => (by cases h), fun _ => rfl, fun s hs => by cases hs⟩
  · rename_i shapes hshapes
    exact ⟨fun _ => rfl, fun h => (by cases h), mem_callableShapes hshapes⟩

theorem tidy_step : Tidy (d.runtimeTypePredicateStep sub) := by
  rw [runtimeTypePredicateStep]
  cases d.runtimeTypePredicateWidensNonStructs with
  | false =>
    exact ⟨lists_spec.1, lists_spec.2.1, tuples_spec.1, callables_spec.1, callables_spec.2.1, rfl⟩
  | true =>
    exact ⟨fun h => (by cases h), fun h => (by cases h), fun h => (by cases h),
      fun h => (by cases h), fun _ => rfl, rfl⟩

theorem sub_step {q : RuntimeTypePredicate} (h : Sub (d.runtimeTypePredicateStep sub) q) :
    q = RuntimeTypePredicate.any ∨ ∃ t, q = sub t := by
  rw [runtimeTypePredicateStep] at h
  cases hwiden : d.runtimeTypePredicateWidensNonStructs with
  | false =>
    simp only [hwiden] at h
    cases h with
    | head hh => exact lists_spec.2.2 q hh
    | position hs hh => exact .inr (tuples_spec.2 _ hs q hh)
    | capture hs hh => exact .inr (callables_spec.2.2 _ hs q hh)
  | true =>
    simp only [hwiden] at h
    cases h with
    | head hh => cases hh
    | position hs hh => cases hs
    | capture hs hh => cases hs

theorem wellFormed_at (cx : TyCtx) (n : Nat) (d : Descr) :
    WellFormed (d.runtimeTypePredicateAt cx n) := by
  induction n generalizing d with
  | zero => exact wellFormed_none
  | succ n ih =>
    refine ⟨tidy_step, fun q hq => ?_⟩
    rcases sub_step hq with rfl | ⟨t, rfl⟩
    · exact wellFormed_any
    · exact ih _

end Descr

namespace RuntimeTypePredicate

/-! ## Overlap is monotone -/

theorem ShapesMeet.mono_of {s s' r r' : List RuntimeTypePredicate}
    (ih : ∀ x ∈ s, ∀ x' ∈ s', ∀ y y' : RuntimeTypePredicate, x.containedIn y = true →
      x'.containedIn y' = true → x.overlaps x' = true → y.overlaps y' = true)
    (h : ShapesMeet s s') (hr : ShapeInside s r) (hr' : ShapeInside s' r') : ShapesMeet r r' := by
  induction h generalizing r r' with
  | nil =>
    cases hr
    cases hr'
    exact .nil
  | @cons x x' s s' hx _ ihs =>
    cases hr with
    | cons hxy hr =>
      cases hr' with
      | cons hxy' hr' =>
        refine .cons (ih x (.head _) x' (.head _) _ _ hxy hxy' hx) (ihs ?_ hr hr')
        exact fun y hy y' hy' => ih y (.tail _ hy) y' (.tail _ hy')

theorem Tidy.empty_of_overlaps {p : RuntimeTypePredicate} (hp : Tidy p)
    (hexact : p.lists.isExact = true) (hasks : ¬p.lists.asksTheHead = true)
    {shapes : FiniteSet ListShape} (h : p.lists.shapes.overlaps shapes = true) :
    p.lists.shapes.contains .empty = true ∧ shapes.contains .empty = true := by
  rcases FiniteSet.exists_of_overlaps h with ⟨hcof, -⟩ | ⟨x, hx, hx'⟩
  · exact nomatch (hp.listsFinite hexact).symm.trans hcof
  · cases x with
    | empty => exact ⟨hx, hx'⟩
    | nonEmpty =>
      have hheads := hp.asksHeads hexact hx
      exact absurd (by simp [ListShapes.asksTheHead, hexact, hheads, hx]) hasks

/-- Tests that contain overlapping ones overlap. -/
theorem overlaps_of_containedIn {c c' p q : RuntimeTypePredicate} (hc : WellFormed c)
    (hc' : WellFormed c') (hp : c.containedIn p = true) (hq : c'.containedIn q = true)
    (h : c.overlaps c' = true) : p.overlaps q = true := by
  induction c using sub_induction generalizing c' p q with
  | step c ih =>
    have hp := containedIn_iff.mp hp
    have hq := containedIn_iff.mp hq
    refine overlaps_iff.mpr ?_
    cases overlaps_iff.mp h with
    | ints h => exact .ints (FiniteSet.overlaps_mono hp.ints hq.ints h)
    | floats h => exact .floats (FiniteSet.overlaps_mono hp.floats hq.floats h)
    | atoms h => exact .atoms (FiniteSet.overlaps_mono hp.atoms hq.atoms h)
    | namedStructs h =>
      exact .namedStructs (FiniteSet.overlaps_mono hp.namedStructs hq.namedStructs h)
    | otherStructs h => exact .otherStructs ⟨hp.otherStructs h.1, hq.otherStructs h.2⟩
    | maps h => exact .maps ⟨hp.maps h.1, hq.maps h.2⟩
    | binaries h => exact .binaries ⟨hp.binaries h.1, hq.binaries h.2⟩
    | resources h => exact .resources ⟨hp.resources h.1, hq.resources h.2⟩
    | lists h hmeet =>
      refine .lists (FiniteSet.overlaps_mono hp.listShapes hq.listShapes h) ?_
      have hempty : c.lists.shapes.contains .empty = true ∧ c'.lists.shapes.contains .empty = true →
          ListsMeet p.lists q.lists := fun hboth =>
        .inl ⟨FiniteSet.contains_of_containsAll hp.listShapes hboth.1,
          FiniteSet.contains_of_containsAll hq.listShapes hboth.2⟩
      rcases hmeet with hboth | hheads
      · exact hempty hboth
      by_cases hexact : p.lists.isExact = true ∧ q.lists.isExact = true
      · obtain ⟨hce, hcheads⟩ := hp.heads hexact.1
        obtain ⟨hce', hcheads'⟩ := hq.heads hexact.2
        by_cases hasks : c.lists.asksTheHead = true
        · by_cases hasks' : c'.lists.asksTheHead = true
          · obtain ⟨x, hx, x', hx', hover⟩ := hheads hasks hasks'
            obtain ⟨y, hy, hxy⟩ := hcheads x hx
            obtain ⟨y', hy', hxy'⟩ := hcheads' x' hx'
            exact .inr fun _ _ => ⟨y, hy, y', hy',
              ih x (.head hx) (hc.sub (.head hx)) (hc'.sub (.head hx')) hxy hxy' hover⟩
          · exact hempty (hc'.tidy.empty_of_overlaps hce' hasks' (FiniteSet.overlaps_symm h)).symm
        · exact hempty (hc.tidy.empty_of_overlaps hce hasks h)
      · refine .inr fun hasks hasks' => absurd ⟨?_, ?_⟩ hexact
        · simp only [ListShapes.asksTheHead, Bool.and_eq_true] at hasks
          exact hasks.1.1
        · simp only [ListShapes.asksTheHead, Bool.and_eq_true] at hasks'
          exact hasks'.1.1
    | tuples h hmeet =>
      refine .tuples (FiniteSet.overlaps_mono hp.arities hq.arities h) fun hexact hexact' => ?_
      obtain ⟨hce, hshapes⟩ := hp.tuples hexact
      obtain ⟨hce', hshapes'⟩ := hq.tuples hexact'
      obtain ⟨s, hs, s', hs', hover⟩ := hmeet hce hce'
      obtain ⟨r, hr, hin⟩ := hshapes s hs
      obtain ⟨r', hr', hin'⟩ := hshapes' s' hs'
      refine ⟨r, hr, r', hr', hover.mono_of (fun x hx x' hx' _ _ => ?_) hin hin'⟩
      exact ih x (.position hs hx) (hc.sub (.position hs hx)) (hc'.sub (.position hs' hx'))
    | callables h hmeet =>
      refine .callables (FiniteSet.overlaps_mono hp.targets hq.targets h) fun hexact hexact' => ?_
      obtain ⟨hce, hshapes⟩ := hp.callables hexact
      obtain ⟨hce', hshapes'⟩ := hq.callables hexact'
      obtain ⟨s, hs, s', hs', htarget, hover⟩ := hmeet hce hce'
      obtain ⟨r, hr, hin⟩ := hshapes s hs
      obtain ⟨r', hr', hin'⟩ := hshapes' s' hs'
      obtain ⟨ht, hin⟩ := CallableShape.inside_iff.mp hin
      obtain ⟨ht', hin'⟩ := CallableShape.inside_iff.mp hin'
      refine ⟨r, hr, r', hr', ht.symm.trans (htarget.trans ht'),
        hover.mono_of (fun x hx x' hx' _ _ => ?_) hin hin'⟩
      exact ih x (.capture hs hx) (hc.sub (.capture hs hx)) (hc'.sub (.capture hs' hx'))

end RuntimeTypePredicate

/-! ## What a struct is to a test -/

namespace Layout

open RuntimeTypePredicate (Tidy WellFormed positionsMatch someShapeMatches_iff
  tuplePositions_of_mem tuplePositions_of_notMem matchesNamedStructAxis_false)

variable {R : RuntimeValueReader} {L : Layout R} {p q : RuntimeTypePredicate}

/-- Every schema name is one the module declares. -/
def NamesDeclared (_ : Layout R) : Prop := ∀ e ∈ R.namedSchemaIds, e.1 ∈ R.structSchemas

theorem atomMembership_of_none {atoms : FiniteSet String} {i : Nat} (h : R.atomNames[i]? = none) :
    R.atomMembership atoms i = atoms.cofinite := by
  have hnone : ¬∃ name ∈ atoms.values, R.atomNames.findIdx? (· = name) = some i := by
    rintro ⟨name, -, hidx⟩
    obtain ⟨hlt, -⟩ := List.findIdx?_eq_some_iff_getElem.mp hidx
    rw [List.getElem?_eq_getElem hlt] at h
    exact nomatch h
  rw [RuntimeValueReader.atomMembership, decide_eq_false hnone, Bool.false_bne]

theorem named_not_schemasOfArities (arities : Finset Nat) (name : List String) :
    R.schemasOfArities arities (L.namedSchema name) = false := by
  rw [RuntimeValueReader.schemasOfArities, decide_eq_false_iff_not]
  rintro ⟨a, -, hl⟩
  exact L.tuple_ne_named a name (L.numbered.lookup_tuple hl).symm

theorem matches_tuple (hp : Tidy p) (hreg : L.Registers p) (a : Nat)
    (fields : List RuntimeAnyValue) :
    p.matchesRuntimeTypePredicate R (.struct (L.tupleSchema a) fields) = true ↔
      (p.allowOtherStructs = true ∧ a ∉ p.tuples.arities.values) ∨
      (p.tuples.arities.contains a = true ∧ (p.tuples.isExact = true →
        ∃ s ∈ p.tuples.shapes, s.length = a ∧ positionsMatch R s fields = true)) := by
  rw [L.numbered.matches_tuple hreg.tuples hp.aritiesFinite, ← someShapeMatches_iff]
  by_cases ha : a ∈ p.tuples.arities.values
  · rw [tuplePositions_of_mem ha]
    cases hc : p.tuples.arities.cofinite <;> cases p.tuples.isExact <;>
      simp [FiniteSet.contains, ha, hc]
  · rw [tuplePositions_of_notMem ha hp.aritiesFinite]
    cases hc : p.tuples.arities.cofinite with
    | false => cases p.allowOtherStructs <;> simp [FiniteSet.contains, ha, hc]
    | true =>
      have hexact : ¬p.tuples.isExact = true :=
        fun he => by cases (hp.aritiesFinite he).symm.trans hc
      simp [FiniteSet.contains, ha, hc, hexact]

theorem matches_named {name : List String} (hname : name ∈ R.structSchemas)
    (fields : List RuntimeAnyValue) :
    p.matchesRuntimeTypePredicate R (.struct (L.namedSchema name) fields) = true ↔
      p.namedStructs.contains name = true := by
  have hknown : L.namedSchema name ∈ R.knownNamedSchemas := namedSchema_mem hname
  have hunnamed : ∀ arities, R.unnamedStructOfArity (L.namedSchema name) arities = false := by
    intro arities
    simp [RuntimeValueReader.unnamedStructOfArity, named_not_schemasOfArities, hknown]
  have hrelevant : (∃ n ∈ p.namedStructs.values,
      R.namedSchemaIds.lookup n = some (L.namedSchema name)) ↔ name ∈ p.namedStructs.values := by
    constructor
    · rintro ⟨n, hn, hl⟩
      have hsame := L.namedSchema_inj n name (by rw [hl]; rfl) (L.structSchemas_known name hname)
        (L.numbered.lookup_named hl).symm
      exact hsame ▸ hn
    · exact fun hmem => ⟨name, hmem, lookup_of_declared hname⟩
  rw [RuntimeTypePredicate.matches_struct, RuntimeTypePredicate.TupleAxisAdmits, hunnamed,
    RuntimeTypePredicate.matchesOtherStructAxis, hunnamed,
    RuntimeTypePredicate.matchesNamedStructAxis]
  simp only [hrelevant, hknown]
  by_cases hmem : name ∈ p.namedStructs.values
  · have hne := Finset.ne_empty_of_mem hmem
    cases hc : p.namedStructs.cofinite <;>
      simp [FiniteSet.isNone, FiniteSet.isAny, FiniteSet.contains, hc, hmem, hne]
  · cases hc : p.namedStructs.cofinite <;>
      simp [FiniteSet.isNone, FiniteSet.isAny, FiniteSet.contains, hc, hmem]

theorem matches_unknown (hnames : L.NamesDeclared) {schema : Nat}
    (htuple : ∀ a, schema ≠ L.tupleSchema a)
    (hnamed : ∀ name ∈ R.structSchemas, schema ≠ L.namedSchema name)
    (fields : List RuntimeAnyValue) :
    p.matchesRuntimeTypePredicate R (.struct schema fields) = true ↔
      p.tuples.arities.cofinite = true ∨ p.allowOtherStructs = true := by
  have hknown : schema ∉ R.knownNamedSchemas := by
    intro h
    obtain ⟨name, hname, heq⟩ := L.numbered.mem_knownNamedSchemas h
    exact hnamed name hname heq
  have haxis : p.matchesNamedStructAxis R schema = false := by
    refine matchesNamedStructAxis_false hknown fun name hl => ?_
    obtain ⟨l₁, l₂, hids, -⟩ := List.lookup_eq_some_iff.mp hl
    exact hnamed name (hnames (name, schema) (by simp [hids])) (L.numbered.lookup_named hl)
  have hunnamed : ∀ arities : FiniteSet Nat,
      R.unnamedStructOfArity schema arities = arities.cofinite := by
    intro arities
    have hnone : R.schemasOfArities arities.values schema = false := by
      rw [RuntimeValueReader.schemasOfArities, decide_eq_false_iff_not]
      rintro ⟨a, -, hl⟩
      exact htuple a (L.numbered.lookup_tuple hl)
    cases hc : arities.cofinite <;>
      simp [RuntimeValueReader.unnamedStructOfArity, hc, hnone, hknown]
  have harity : R.tupleArityOf schema = none := by
    rw [RuntimeValueReader.tupleArityOf, Option.map_eq_none_iff, List.find?_eq_none]
    intro e he
    rw [decide_eq_true_eq, L.tupleSchemaIds_eq e he]
    exact fun h => htuple e.1 h.symm
  have hother : p.otherStructArities.cofinite = p.allowOtherStructs := by
    rw [RuntimeTypePredicate.otherStructArities]
    cases p.allowOtherStructs <;> rfl
  rw [RuntimeTypePredicate.matches_struct, haxis, RuntimeTypePredicate.matchesOtherStructAxis,
    RuntimeTypePredicate.TupleAxisAdmits, hunnamed, hunnamed, hother, harity]
  simp

end Layout

namespace RuntimeTypePredicate

end RuntimeTypePredicate

/-- A value a test may look at inside another. -/
inductive RuntimeAnyValue.Part : RuntimeAnyValue → RuntimeAnyValue → Prop where
  | head (head tail : RuntimeAnyValue) : Part (.cons head tail) head
  | field {fields : List RuntimeAnyValue} {v : RuntimeAnyValue} (schema : Nat) (h : v ∈ fields) :
      Part (.struct schema fields) v

theorem RuntimeAnyValue.Part.sizeOf_lt {v w : RuntimeAnyValue} (h : Part v w) :
    sizeOf w < sizeOf v := by
  cases h with
  | head head tail =>
    rw [RuntimeAnyValue.cons.sizeOf_spec]
    omega
  | field schema h =>
    have := List.sizeOf_lt_of_mem h
    rw [RuntimeAnyValue.struct.sizeOf_spec]
    omega

theorem RuntimeAnyValue.part_induction {M : RuntimeAnyValue → Prop}
    (step : ∀ v, (∀ w, Part v w → M w) → M v) (v : RuntimeAnyValue) : M v :=
  step v fun w _ => part_induction step w
termination_by sizeOf v
decreasing_by
  rename_i h
  exact h.sizeOf_lt

namespace RuntimeTypePredicate

/-! ## Where the axes are independent -/

/-- A relation between two tests that also holds between the questions they put to the same part of
a value. -/
inductive Throughout (Rel : RuntimeTypePredicate → RuntimeTypePredicate → Prop) :
    RuntimeTypePredicate → RuntimeTypePredicate → Prop where
  | mk {p q : RuntimeTypePredicate} (here : Rel p q)
      (heads : ∀ h ∈ p.lists.heads, ∀ h' ∈ q.lists.heads, Throughout Rel h h')
      (positions : ∀ s ∈ p.tuples.shapes, ∀ s' ∈ q.tuples.shapes, s.length = s'.length →
        ∀ (i : Nat) (h h' : RuntimeTypePredicate),
          s[i]? = some h → s'[i]? = some h' → Throughout Rel h h') : Throughout Rel p q

/-- The second test takes no tuple from the other structs of the first: it names no further arity,
or it asks nothing but the arity. -/
def KeepsOthers (p q : RuntimeTypePredicate) : Prop :=
  p.allowOtherStructs = true → ∀ a ∈ q.tuples.arities.values, a ∈ p.tuples.arities.values ∨
    (q.tuples.arities.cofinite = false ∧ q.tuples.isExact = false)

/-- The other structs of the first test hold no tuple of an arity that only the second names, unless
both admit other structs or the first excludes arities only. -/
def OthersSpokenFor (p q : RuntimeTypePredicate) : Prop :=
  p.allowOtherStructs = true → q.allowOtherStructs = true ∨ p.tuples.arities.cofinite = true ∨
    (q.tuples.arities.cofinite = false ∧ q.tuples.arities.values ⊆ p.tuples.arities.values)

variable {R : RuntimeValueReader} {L : Layout R} {p q : RuntimeTypePredicate}

/-! ## Containment -/

theorem positionsMatch_iff {s : List RuntimeTypePredicate} {fields : List RuntimeAnyValue} :
    positionsMatch R s fields = true ↔
      ∀ (i : Nat) (h : RuntimeTypePredicate), s[i]? = some h → ∃ v, fields[i]? = some v ∧
        h.matchesRuntimeTypePredicate R v = true := by
  induction s generalizing fields with
  | nil => simp [positionsMatch]
  | cons h s ih =>
    cases fields with
    | nil =>
      rw [positionsMatch]
      simp only [Bool.false_eq_true, List.getElem?_nil, reduceCtorEq, false_and, exists_false,
        false_iff, not_forall]
      exact ⟨0, h, rfl, fun hf => hf⟩
    | cons v fields =>
      rw [positionsMatch, Bool.and_eq_true, ih]
      constructor
      · rintro ⟨hv, hrest⟩ i x hi
        cases i with
        | zero =>
          cases hi
          exact ⟨v, rfl, hv⟩
        | succ i => exact hrest i x hi
      · intro hall
        obtain ⟨w, hw, hmatch⟩ := hall 0 h rfl
        cases hw
        exact ⟨hmatch, fun i x hi => hall (i + 1) x hi⟩

theorem matches_closure_iff (hp : Tidy p) (code : Nat) :
    p.matchesRuntimeTypePredicate R (.closure code) = true ↔
      (p.callables.isExact = true → ∃ shape, R.callables code = some shape ∧
        ∃ s ∈ p.callables.shapes, shape.inside s = true) := by
  rw [matches_closure, matchesRuntimeCallable]
  cases hexact : p.callables.isExact with
  | false =>
    rw [hp.anyCallable hexact]
    simp [FiniteSet.any, FiniteSet.isNone, FiniteSet.isAny]
  | true =>
    have htargets := hp.namesTargets hexact
    have hfinite : p.callables.targets.cofinite = false := by rw [htargets]
    have hany : p.callables.targets.isAny = false := by simp [FiniteSet.isAny, hfinite]
    have hnone : p.callables.targets.isNone = true ↔ p.callables.shapes = [] := by
      rw [htargets]
      simp [FiniteSet.isNone]
    rw [hany]
    constructor
    · intro h _
      split at h
      · cases h
      · cases hcode : R.callables code with
        | none => simp [hcode, hfinite] at h
        | some shape =>
          simp only [hcode, CallableShapes.admits, CallableShapes.enumerates, hexact, hfinite] at h
          exact ⟨shape, rfl, by simpa using h⟩
    · intro h
      obtain ⟨shape, hcode, s, hs, hin⟩ := h rfl
      have hne : ¬p.callables.targets.isNone = true := fun h => by
        rw [hnone.mp h] at hs
        cases hs
      simp only [hne, hcode, CallableShapes.admits, CallableShapes.enumerates, hexact, hfinite]
      simpa using ⟨s, hs, hin⟩

theorem struct_cases (L : Layout R) (schema : Nat) :
    (∃ a, schema = L.tupleSchema a) ∨ (∃ name ∈ R.structSchemas, schema = L.namedSchema name) ∨
      ((∀ a, schema ≠ L.tupleSchema a) ∧
        ∀ name ∈ R.structSchemas, schema ≠ L.namedSchema name) := by
  by_cases htuple : ∃ a, schema = L.tupleSchema a
  · exact .inl htuple
  by_cases hnamed : ∃ name ∈ R.structSchemas, schema = L.namedSchema name
  · exact .inr (.inl hnamed)
  · exact .inr (.inr ⟨fun a h => htuple ⟨a, h⟩, fun name hname h => hnamed ⟨name, hname, h⟩⟩)

theorem asksTheHead_iff {l : ListShapes RuntimeTypePredicate} : l.asksTheHead = true ↔
      l.isExact = true ∧ l.heads ≠ [] ∧ l.shapes.contains .nonEmpty = true := by
  simp [ListShapes.asksTheHead, and_assoc]

theorem atomMembership_mono (L : Layout R) {atoms atoms' : FiniteSet String}
    (h : atoms'.containsAll atoms = true) {i : Nat} (hi : R.atomMembership atoms i = true) :
    R.atomMembership atoms' i = true := by
  cases hname : R.atomNames[i]? with
  | none =>
    rw [Layout.atomMembership_of_none hname] at hi ⊢
    exact FiniteSet.cofinite_of_containsAll h hi
  | some name =>
    rw [Layout.atomMembership_iff (L := L) hname] at hi ⊢
    exact FiniteSet.contains_of_containsAll h hi

/-- A value that passes a test passes the tests that contain it. -/
theorem matches_of_containedIn (hnames : L.NamesDeclared) {v : RuntimeAnyValue}
    (hp : WellFormed p) (hq : WellFormed q) (hpreg : L.Registers p) (hqreg : L.Registers q)
    (hothers : Throughout KeepsOthers p q) (h : p.containedIn q = true)
    (hv : p.matchesRuntimeTypePredicate R v = true) : q.matchesRuntimeTypePredicate R v = true := by
  induction v using RuntimeAnyValue.part_induction generalizing p q with
  | step v ih =>
    have hin := containedIn_iff.mp h
    obtain ⟨hhere, hheads, hpositions⟩ := hothers
    cases v with
    | null =>
      rw [matches_eq] at hv
      exact nomatch hv
    | emptyList =>
      rw [matches_emptyList] at hv ⊢
      exact FiniteSet.contains_of_containsAll hin.listShapes hv
    | int n =>
      rw [matches_int] at hv ⊢
      exact FiniteSet.contains_of_containsAll hin.ints hv
    | float bits =>
      rw [matches_float] at hv ⊢
      exact FiniteSet.contains_of_containsAll hin.floats hv
    | atom i =>
      rw [matches_atom] at hv ⊢
      exact atomMembership_mono L hin.atoms hv
    | map =>
      rw [matches_map] at hv ⊢
      exact hin.maps hv
    | binary =>
      rw [matches_binary] at hv ⊢
      exact hin.binaries hv
    | resource =>
      rw [matches_resource] at hv ⊢
      exact hin.resources hv
    | cons head tail =>
      rw [matches_cons] at hv ⊢
      obtain ⟨hshape, hhead⟩ := hv
      refine ⟨FiniteSet.contains_of_containsAll hin.listShapes hshape, fun hasks => ?_⟩
      -- what the second asks of a head, the first asks too
      obtain ⟨hexact, hin'⟩ := hin.heads (asksTheHead_iff.mp hasks).1
      obtain ⟨x, hx, hmatch⟩ :=
        hhead (asksTheHead_iff.mpr ⟨hexact, hp.tidy.asksHeads hexact hshape, hshape⟩)
      obtain ⟨y, hy, hxy⟩ := hin' x hx
      exact ⟨y, hy, ih head (.head head tail) (hp.sub (.head hx)) (hq.sub (.head hy))
        (hpreg.head hx) (hqreg.head hy) (hheads x hx y hy) hxy hmatch⟩
    | closure code =>
      rw [matches_closure_iff hp.tidy] at hv
      rw [matches_closure_iff hq.tidy]
      intro hexact
      obtain ⟨hpexact, hshapes⟩ := hin.callables hexact
      obtain ⟨shape, hcode, s, hs, hinside⟩ := hv hpexact
      obtain ⟨s', hs', hss'⟩ := hshapes s hs
      exact ⟨shape, hcode, s', hs', inside_trans hinside hss'⟩
    | struct schema fields =>
      rcases struct_cases L schema with ⟨a, rfl⟩ | ⟨name, hname, rfl⟩ | ⟨htuple, hnamed⟩
      · rw [Layout.matches_tuple hp.tidy hpreg] at hv
        rw [Layout.matches_tuple hq.tidy hqreg]
        rcases hv with ⟨hopen, hout⟩ | ⟨hcontains, hshapes⟩
        · -- a tuple among the other structs
          by_cases ha : a ∈ q.tuples.arities.values
          · rcases hhere hopen a ha with hmem | ⟨hfinite, hcoarse⟩
            · exact absurd hmem hout
            · refine .inr ⟨?_, fun hexact => nomatch hcoarse.symm.trans hexact⟩
              rw [FiniteSet.contains, hfinite, Bool.bne_false, decide_eq_true ha]
          · exact .inl ⟨hin.otherStructs hopen, ha⟩
        · refine .inr ⟨FiniteSet.contains_of_containsAll hin.arities hcontains, fun hexact => ?_⟩
          obtain ⟨hpexact, hin'⟩ := hin.tuples hexact
          obtain ⟨s, hs, hlen, hmatch⟩ := hshapes hpexact
          obtain ⟨s', hs', hinside⟩ := hin' s hs
          have hlen' : s.length = s'.length := hinside.length_eq
          refine ⟨s', hs', hlen' ▸ hlen, positionsMatch_iff.mpr fun i y hy => ?_⟩
          obtain ⟨x, hx, hxy⟩ := getElem?_of_forall₂ hinside hy
          obtain ⟨w, hw, hxw⟩ := positionsMatch_iff.mp hmatch i x hx
          have hxs := List.mem_of_getElem? hx
          have hys := List.mem_of_getElem? hy
          exact ⟨w, hw, ih w (.field _ (List.mem_of_getElem? hw)) (hp.sub (.position hs hxs))
            (hq.sub (.position hs' hys)) (hpreg.position hs hxs) (hqreg.position hs' hys)
            (hpositions s hs s' hs' hlen' i x y hx hy) hxy hxw⟩
      · rw [Layout.matches_named hname] at hv ⊢
        exact FiniteSet.contains_of_containsAll hin.namedStructs hv
      · rw [Layout.matches_unknown hnames htuple hnamed] at hv ⊢
        exact hv.imp (FiniteSet.cofinite_of_containsAll hin.arities) hin.otherStructs

/-! ## Overlap -/


theorem shapesMeet_of_inside {shape s s' : List RuntimeTypePredicate}
    (hreal : ∀ c ∈ shape, WellFormed c ∧ c.overlaps c = true) (h : ShapeInside shape s)
    (h' : ShapeInside shape s') : ShapesMeet s s' := by
  refine ShapesMeet.mono_of (fun x hx x' hx' _ _ hy hy' => ?_) ?_ h h'
  · exact overlaps_of_containedIn (hreal x hx).1 (hreal x' hx').1 hy hy'
  · exact List.forall₂_same.mpr fun c hc => (hreal c hc).2

theorem Tidy.contains_target (hp : Tidy p) {s : CallableShape RuntimeTypePredicate}
    (hs : s ∈ p.callables.shapes) : p.callables.targets.contains s.target = true := by
  cases hexact : p.callables.isExact with
  | false =>
    rw [hp.anyCallable hexact]
    exact FiniteSet.contains_any _
  | true =>
    rw [hp.namesTargets hexact, FiniteSet.contains_finite, List.mem_toFinset]
    exact List.mem_map_of_mem hs

theorem targets_overlap (hp : Tidy p) (hq : Tidy q) {code : Nat}
    (hv : p.matchesRuntimeTypePredicate R (.closure code) = true)
    (hv' : q.matchesRuntimeTypePredicate R (.closure code) = true) :
    p.callables.targets.overlaps q.callables.targets = true := by
  rw [matches_closure_iff hp] at hv
  rw [matches_closure_iff hq] at hv'
  cases hexact : p.callables.isExact with
  | false =>
    rw [hp.anyCallable hexact]
    cases hexact' : q.callables.isExact with
    | false =>
      rw [hq.anyCallable hexact']
      rfl
    | true =>
      obtain ⟨_, _, s', hs', _⟩ := hv' hexact'
      exact FiniteSet.overlaps_of_contains (FiniteSet.contains_any s'.target)
        (hq.contains_target hs')
  | true =>
    obtain ⟨shape, hcode, s, hs, hinside⟩ := hv hexact
    refine FiniteSet.overlaps_of_contains (hp.contains_target hs) ?_
    cases hexact' : q.callables.isExact with
    | false =>
      rw [hq.anyCallable hexact']
      exact FiniteSet.contains_any _
    | true =>
      obtain ⟨shape', hcode', s', hs', hinside'⟩ := hv' hexact'
      cases hcode.symm.trans hcode'
      rw [← (CallableShape.inside_iff.mp hinside).1, (CallableShape.inside_iff.mp hinside').1]
      exact hq.contains_target hs'

theorem Tidy.not_exact (hp : Tidy p) (h : p.tuples.arities.cofinite = true) :
    ¬p.tuples.isExact = true :=
  fun hexact => nomatch (hp.aritiesFinite hexact).symm.trans h

theorem OthersSpokenFor.meet (hp : Tidy p) (h : OthersSpokenFor p q)
    (hopen : p.allowOtherStructs = true) (hq : q.tuples.arities.cofinite = true ∨
      ∃ a, a ∉ p.tuples.arities.values ∧ q.tuples.arities.contains a = true) :
    q.allowOtherStructs = true ∨
      (p.tuples.arities.overlaps q.tuples.arities = true ∧ ¬p.tuples.isExact = true) := by
  rcases h hopen with hboth | hcof | ⟨hfinite, hsub⟩
  · exact .inl hboth
  · refine .inr ⟨?_, hp.not_exact hcof⟩
    rcases hq with hcof' | ⟨a, hout, hcontains⟩
    · simp [FiniteSet.overlaps, hcof, hcof']
    · refine FiniteSet.overlaps_of_contains ?_ hcontains
      simp [FiniteSet.contains, hcof, hout]
  · rcases hq with hcof' | ⟨a, hout, hcontains⟩
    · cases hfinite.symm.trans hcof'
    · rw [FiniteSet.contains, hfinite, Bool.bne_false, decide_eq_true_eq] at hcontains
      exact absurd (hsub hcontains) hout

/-- Tests that one value passes overlap. -/
theorem overlaps_of_matches (hnames : L.NamesDeclared)
    (hreal : ∀ code shape, R.callables code = some shape → ∀ c ∈ shape.captures,
      WellFormed c ∧ c.overlaps c = true) {v : RuntimeAnyValue}
    (hp : WellFormed p) (hq : WellFormed q) (hpreg : L.Registers p) (hqreg : L.Registers q)
    (hothers : Throughout (fun p q => OthersSpokenFor p q ∧ OthersSpokenFor q p) p q)
    (hv : p.matchesRuntimeTypePredicate R v = true)
    (hv' : q.matchesRuntimeTypePredicate R v = true) : p.overlaps q = true := by
  induction v using RuntimeAnyValue.part_induction generalizing p q with
  | step v ih =>
    obtain ⟨⟨hleft, hright⟩, hheads, hpositions⟩ := hothers
    refine overlaps_iff.mpr ?_
    -- a struct among the other structs of one test that the other's tuple axis admits
    have hotherLeft : p.allowOtherStructs = true → (q.tuples.arities.cofinite = true ∨
        ∃ a, a ∉ p.tuples.arities.values ∧ q.tuples.arities.contains a = true) →
        Overlaps p q := fun hopen htuple => by
      rcases hleft.meet hp.tidy hopen htuple with hboth | ⟨hover, hcoarse⟩
      · exact .otherStructs ⟨hopen, hboth⟩
      · exact .tuples hover fun hexact _ => absurd hexact hcoarse
    have hotherRight : q.allowOtherStructs = true → (p.tuples.arities.cofinite = true ∨
        ∃ a, a ∉ q.tuples.arities.values ∧ p.tuples.arities.contains a = true) →
        Overlaps p q := fun hopen htuple => by
      rcases hright.meet hq.tidy hopen htuple with hboth | ⟨hover, hcoarse⟩
      · exact .otherStructs ⟨hboth, hopen⟩
      · exact .tuples (FiniteSet.overlaps_symm hover) fun _ hexact => absurd hexact hcoarse
    cases v with
    | null =>
      rw [matches_eq] at hv
      exact nomatch hv
    | emptyList =>
      rw [matches_emptyList] at hv hv'
      exact .lists (FiniteSet.overlaps_of_contains hv hv') (.inl ⟨hv, hv'⟩)
    | int n =>
      rw [matches_int] at hv hv'
      exact .ints (FiniteSet.overlaps_of_contains hv hv')
    | float bits =>
      rw [matches_float] at hv hv'
      exact .floats (FiniteSet.overlaps_of_contains hv hv')
    | atom i =>
      rw [matches_atom] at hv hv'
      refine .atoms ?_
      cases hname : R.atomNames[i]? with
      | none =>
        rw [Layout.atomMembership_of_none hname] at hv hv'
        simp [FiniteSet.overlaps, hv, hv']
      | some name =>
        rw [Layout.atomMembership_iff (L := L) hname] at hv hv'
        exact FiniteSet.overlaps_of_contains hv hv'
    | map =>
      rw [matches_map] at hv hv'
      exact .maps ⟨hv, hv'⟩
    | binary =>
      rw [matches_binary] at hv hv'
      exact .binaries ⟨hv, hv'⟩
    | resource =>
      rw [matches_resource] at hv hv'
      exact .resources ⟨hv, hv'⟩
    | cons head tail =>
      rw [matches_cons] at hv hv'
      refine .lists (FiniteSet.overlaps_of_contains hv.1 hv'.1) (.inr fun hasks hasks' => ?_)
      obtain ⟨x, hx, hmatch⟩ := hv.2 hasks
      obtain ⟨y, hy, hmatch'⟩ := hv'.2 hasks'
      exact ⟨x, hx, y, hy, ih head (.head head tail) (hp.sub (.head hx)) (hq.sub (.head hy))
        (hpreg.head hx) (hqreg.head hy) (hheads x hx y hy) hmatch hmatch'⟩
    | closure code =>
      have htargets := targets_overlap hp.tidy hq.tidy hv hv'
      rw [matches_closure_iff hp.tidy] at hv
      rw [matches_closure_iff hq.tidy] at hv'
      refine .callables htargets fun hexact hexact' => ?_
      obtain ⟨shape, hcode, s, hs, hinside⟩ := hv hexact
      obtain ⟨shape', hcode', s', hs', hinside'⟩ := hv' hexact'
      cases hcode.symm.trans hcode'
      obtain ⟨ht, hcaptures⟩ := CallableShape.inside_iff.mp hinside
      obtain ⟨ht', hcaptures'⟩ := CallableShape.inside_iff.mp hinside'
      exact ⟨s, hs, s', hs', ht.symm.trans ht',
        shapesMeet_of_inside (hreal code shape hcode) hcaptures hcaptures'⟩
    | struct schema fields =>
      rcases struct_cases L schema with ⟨a, rfl⟩ | ⟨name, hname, rfl⟩ | ⟨htuple, hnamed⟩
      · rw [Layout.matches_tuple hp.tidy hpreg] at hv
        rw [Layout.matches_tuple hq.tidy hqreg] at hv'
        rcases hv with ⟨hopen, hout⟩ | ⟨hcontains, hshapes⟩ <;>
          rcases hv' with ⟨hopen', hout'⟩ | ⟨hcontains', hshapes'⟩
        · exact .otherStructs ⟨hopen, hopen'⟩
        · exact hotherLeft hopen (.inr ⟨a, hout, hcontains'⟩)
        · exact hotherRight hopen' (.inr ⟨a, hout', hcontains⟩)
        · refine .tuples (FiniteSet.overlaps_of_contains hcontains hcontains')
            fun hexact hexact' => ?_
          obtain ⟨s, hs, hlen, hmatch⟩ := hshapes hexact
          obtain ⟨s', hs', hlen', hmatch'⟩ := hshapes' hexact'
          have hsame : s.length = s'.length := hlen.trans hlen'.symm
          refine ⟨s, hs, s', hs', List.forall₂_iff_get.mpr ⟨hsame, fun i hi hi' => ?_⟩⟩
          obtain ⟨w, hw, hxw⟩ := positionsMatch_iff.mp hmatch i _ (List.getElem?_eq_getElem hi)
          obtain ⟨w', hw', hyw⟩ := positionsMatch_iff.mp hmatch' i _ (List.getElem?_eq_getElem hi')
          cases hw.symm.trans hw'
          exact ih w (.field _ (List.mem_of_getElem? hw))
            (hp.sub (.position hs (List.getElem_mem hi)))
            (hq.sub (.position hs' (List.getElem_mem hi')))
            (hpreg.position hs (List.getElem_mem hi)) (hqreg.position hs' (List.getElem_mem hi'))
            (hpositions s hs s' hs' hsame i _ _ (List.getElem?_eq_getElem hi)
              (List.getElem?_eq_getElem hi')) hxw hyw
      · rw [Layout.matches_named hname] at hv hv'
        exact .namedStructs (FiniteSet.overlaps_of_contains hv hv')
      · rw [Layout.matches_unknown hnames htuple hnamed] at hv hv'
        rcases hv with hcof | hopen
        · rcases hv' with hcof' | hopen'
          · exact .tuples (by simp [FiniteSet.overlaps, hcof, hcof']) fun hexact =>
              absurd hexact (hp.tidy.not_exact hcof)
          · exact hotherRight hopen' (.inl hcof)
        · rcases hv' with hcof' | hopen'
          · exact hotherLeft hopen (.inl hcof')
          · exact .otherStructs ⟨hopen, hopen'⟩

/-! ## Soundness -/

/-- The constructions behind code words carry projected capture types. -/
def Described (R : RuntimeValueReader) : Prop :=
  ∀ code shape, R.callables code = some shape → ∀ c ∈ shape.captures,
    ∃ cx t, c = TyCtx.runtimeTypePredicate cx t

/-- No construction has a capture whose test admits nothing. -/
def Realizable (R : RuntimeValueReader) : Prop :=
  ∀ code shape, R.callables code = some shape → ∀ c ∈ shape.captures, c.overlaps c = true

theorem wellFormed_runtimeTypePredicate (cx : TyCtx) (t : Ty) :
    WellFormed (cx.runtimeTypePredicate t) := Descr.wellFormed_at cx _ _

end RuntimeTypePredicate

section Sample

/-- Integers, maps and structs of any kind, the same with pairs of integers, and these pairs. -/
def openMaps : TyCtx where
  arena := [{ Descr.unbranded with basic := ⟨false, true, false⟩ },
    { Descr.unbranded with maps := [.top] },
    { Descr.unbranded with maps := [.top], tuples := [.posOf ⟨[0, 0]⟩] },
    Descr.tupleOf [0, 0]]
  children_lt := by
    intro t d h s hs
    match t, h with
    | 0, h | 1, h =>
      obtain rfl := Option.some.inj h
      exact nomatch hs
    | 2, h | 3, h =>
      obtain rfl := Option.some.inj h
      revert hs s
      decide

end Sample

end Fz.Types
