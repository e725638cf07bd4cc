import Fz.Facts.RuntimeDemand

/-!
# The join of runtime demands

The fields of a normal shape, read as a function of the index that is `ignore` from some index on,
determine the shape.  Two shapes that are not the whole value are joined at every index, and the
laws of the join follow by induction over the fields.  The whole value is not joined field by field:
its join with a tuple is the whole value, so the obligations that the fields of the tuple state are
kept just when there are none.
-/

namespace Fz.Facts

variable {S T : Type}

/-! ## Callable obligations -/

namespace CallableDemand

theorem eq_none_of_isEmpty {d : CallableDemand S T} (h : d.isEmpty = true) : d = none := by
  obtain ⟨resolved, targets, isOpaque, escape⟩ := d
  simp only [isEmpty, Bool.and_eq_true, beq_iff_eq, Finset.card_eq_zero, Bool.not_eq_true'] at h
  obtain ⟨⟨⟨rfl, rfl⟩, rfl⟩, rfl⟩ := h
  rfl

theorem isEmpty_of_le_none {d : CallableDemand S T} (h : d.Le none) : d.isEmpty = true := by
  obtain ⟨resolved, targets, isOpaque, escape⟩ := d
  have hr : resolved = ∅ := Finset.subset_empty.mp h.resolved
  have ht : targets = ∅ := Finset.subset_empty.mp h.targets
  have ho : isOpaque = false := Bool.eq_false_iff.mpr fun ho => nomatch h.isOpaque ho
  have he : escape = false := Bool.eq_false_iff.mpr fun he => nomatch h.escape he
  subst hr ht ho he
  rfl

theorem le_of_isEmpty {d : CallableDemand S T} (h : d.isEmpty = true) (e : CallableDemand S T) :
    d.Le e := by
  rw [eq_none_of_isEmpty h]
  exact ⟨Finset.empty_subset _, Finset.empty_subset _, nofun, nofun⟩

variable [DecidableEq S] [DecidableEq T]

theorem join_comm (d e : CallableDemand S T) : d.join e = e.join d := by
  simp only [join, Finset.union_comm, Bool.or_comm]

theorem join_assoc (d e f : CallableDemand S T) : (d.join e).join f = d.join (e.join f) := by
  simp only [join, Finset.union_assoc, Bool.or_assoc]

theorem join_self (d : CallableDemand S T) : d.join d = d := by
  simp only [join, Finset.union_self, Bool.or_self]

theorem none_join (d : CallableDemand S T) : none.join d = d := by
  simp only [join, none, Finset.empty_union, Bool.false_or]

theorem le_join_left (d e : CallableDemand S T) : d.Le (d.join e) where
  resolved := Finset.subset_union_left
  targets := Finset.subset_union_left
  isOpaque h := by rw [join, h, Bool.true_or]
  escape h := by rw [join, h, Bool.true_or]

theorem le_join_right (d e : CallableDemand S T) : e.Le (d.join e) := by
  rw [join_comm]
  exact le_join_left e d

end CallableDemand

/-! ## Fields -/

theorem RuntimeDemand.ext {d e : RuntimeDemand S T} (hs : d.shape = e.shape)
    (hc : d.callable = e.callable) : d = e := by
  cases d
  cases e
  cases hs
  cases hc
  rfl

variable {d : RuntimeDemand S T}

theorem RuntimeDemand.eq_ignore_of_isIgnore (h : d.isIgnore = true) : d = ignore := by
  obtain ⟨shape, callable⟩ := d
  obtain ⟨hs, hc⟩ := Bool.and_eq_true _ _ ▸ h
  cases shape with
  | ignore => exact congrArg (mk .ignore) (CallableDemand.eq_none_of_isEmpty hc)
  | whole => exact nomatch hs
  | tupleFields fields => exact nomatch hs

/-- The field at an index of a vector, not needed past its end. -/
def fieldAt (fields : List (RuntimeDemand S T)) (i : Nat) : RuntimeDemand S T :=
  fields[i]?.getD .ignore

theorem getElem?_resizeWith {fields : List (RuntimeDemand S T)} {width i : Nat} (h : i < width) :
    (resizeWith fields width)[i]? = some (fieldAt fields i) := by
  rw [resizeWith, fieldAt]
  by_cases hi : i < fields.length
  · rw [List.getElem?_append_left (by rw [List.length_take]; omega), List.getElem?_take, if_pos h,
      List.getElem?_eq_getElem hi, Option.getD_some]
  · have hlen : (fields.take width).length = fields.length := by
      rw [List.length_take]
      omega
    rw [List.getElem?_append_right (by omega), hlen, List.getElem?_replicate, if_pos (by omega),
      List.getElem?_eq_none (by omega), Option.getD_none]

theorem length_resizeWith (fields : List (RuntimeDemand S T)) (width : Nat) :
    (resizeWith fields width).length = width := by
  rw [resizeWith, List.length_append, List.length_take, List.length_replicate]
  omega

theorem fieldAt_resizeWith {fields : List (RuntimeDemand S T)} {width : Nat}
    (h : fields.length ≤ width) (i : Nat) :
    fieldAt (resizeWith fields width) i = fieldAt fields i := by
  by_cases hi : i < width
  · rw [fieldAt, getElem?_resizeWith hi, Option.getD_some]
  · rw [fieldAt, fieldAt, List.getElem?_eq_none (by rw [length_resizeWith]; omega),
      List.getElem?_eq_none (by omega)]

theorem fieldAt_map {f : RuntimeDemand S T → RuntimeDemand S T} (hf : f .ignore = .ignore)
    (fields : List (RuntimeDemand S T)) (i : Nat) :
    fieldAt (fields.map f) i = f (fieldAt fields i) := by
  rw [fieldAt, fieldAt, List.getElem?_map]
  cases fields[i]? with
  | none => exact hf.symm
  | some d => rfl

theorem resizeWith_eq {fields fields' : List (RuntimeDemand S T)}
    (h : ∀ i, fieldAt fields i = fieldAt fields' i) (width : Nat) :
    resizeWith fields width = resizeWith fields' width := by
  refine List.ext_getElem? fun i => ?_
  by_cases hi : i < width
  · rw [getElem?_resizeWith hi, getElem?_resizeWith hi, h]
  · rw [List.getElem?_eq_none (by rw [length_resizeWith]; omega),
      List.getElem?_eq_none (by rw [length_resizeWith]; omega)]

theorem rdropWhile_resizeWith {fields : List (RuntimeDemand S T)} {width : Nat}
    (h : fields.length ≤ width) : (resizeWith fields width).rdropWhile RuntimeDemand.isIgnore =
      fields.rdropWhile RuntimeDemand.isIgnore := by
  rw [resizeWith, List.take_of_length_le h]
  generalize width - fields.length = n
  induction n with
  | zero => rw [List.replicate_zero, List.append_nil]
  | succ n ih =>
    rw [List.replicate_succ', ← List.append_assoc, List.rdropWhile_concat_pos _ _ _ rfl, ih]

theorem fieldAt_rdropWhile (fields : List (RuntimeDemand S T)) (i : Nat) :
    fieldAt (fields.rdropWhile RuntimeDemand.isIgnore) i = fieldAt fields i := by
  induction fields using List.reverseRecOn with
  | nil => rfl
  | append_singleton fields d ih =>
    by_cases hd : d.isIgnore = true
    · rw [List.rdropWhile_concat_pos _ _ _ hd, ih, RuntimeDemand.eq_ignore_of_isIgnore hd,
        fieldAt, fieldAt, List.getElem?_append]
      split
      · rfl
      · rename_i hi
        rw [List.getElem?_eq_none (Nat.le_of_not_lt hi), List.getElem?_singleton]
        split <;> rfl
    · rw [List.rdropWhile_concat_neg _ _ _ hd]

/-- The fields that a shape names. -/
def ShapeDemand.fields : ShapeDemand S T → List (RuntimeDemand S T)
  | tupleFields fields => fields
  | _ => []

theorem ShapeDemand.fields_ofFields (fields : List (RuntimeDemand S T)) :
    (ofFields fields).fields = fields.rdropWhile RuntimeDemand.isIgnore := by
  rw [ofFields]
  split
  · rename_i h
    exact h.symm
  · rename_i h
    exact h.symm

theorem ShapeDemand.ofFields_eq {fields fields' : List (RuntimeDemand S T)}
    (h : ∀ i, fieldAt fields i = fieldAt fields' i) : ofFields fields = ofFields fields' := by
  rw [ofFields, ofFields, ← rdropWhile_resizeWith (Nat.le_max_left fields.length fields'.length),
    ← rdropWhile_resizeWith (Nat.le_max_right fields.length fields'.length), resizeWith_eq h]

theorem RuntimeDemand.field_whole (h : d.shape = .whole) (i : Nat) : d.field i = whole := by
  rw [field, h, ShapeDemand.fieldPrefix, Option.bind_some, List.getElem?_replicate,
    if_pos (Nat.lt_succ_self i), Option.getD_some]

theorem RuntimeDemand.field_eq (h : d.shape ≠ .whole) (i : Nat) :
    d.field i = fieldAt d.shape.fields i := by
  rw [field]
  cases hs : d.shape with
  | ignore => rfl
  | whole => exact absurd hs h
  | tupleFields fields =>
    rw [ShapeDemand.fieldPrefix, Option.bind_some, getElem?_resizeWith (Nat.lt_succ_self i)]
    rfl

theorem RuntimeDemand.atPath_whole (h : d.shape = .whole) (i : Nat)
    (path : List Nat) : d.atPath (i :: path) = whole := by
  rw [atPath, List.foldl_cons, field_whole h]
  induction path with
  | nil => rfl
  | cons j path ih => rw [List.foldl_cons, field_whole rfl, ih]

theorem RuntimeDemand.atPath_cons (d : RuntimeDemand S T) (i : Nat) (path : List Nat) :
    d.atPath (i :: path) = (d.field i).atPath path := rfl

/-- Where the first demand is on the whole value, the second states no obligation on its fields. -/
def RuntimeDemand.WholeCovers (d e : RuntimeDemand S T) : Prop :=
  ∀ path, (d.atPath path).shape = .whole → ∀ i, ((e.atPath path).field i).callable.isEmpty = true

theorem RuntimeDemand.WholeCovers.field {d e : RuntimeDemand S T} (h : d.WholeCovers e) (i : Nat) :
    (d.field i).WholeCovers (e.field i) :=
  fun path hw j => h (i :: path) hw j

theorem RuntimeDemand.WholeCovers.isEmpty_atPath {d e : RuntimeDemand S T} (h : d.WholeCovers e)
    (hw : d.shape = .whole) (i : Nat) (path : List Nat) :
    (e.atPath (i :: path)).callable.isEmpty = true := by
  induction path generalizing d e i with
  | nil => exact h [] hw i
  | cons j path ih => exact ih (h.field i) (by rw [field_whole hw]; rfl) j

/-! ## Normal forms -/

def ShapeDemand.IsNormal (shape : ShapeDemand S T) : Prop := shape.normalized = shape

/-- No shape in the demand ends in fields that are not needed. -/
def RuntimeDemand.IsNormal (d : RuntimeDemand S T) : Prop := d.normalized = d

theorem RuntimeDemand.isNormal_of_shape (h : d.shape.IsNormal) : d.IsNormal := by
  obtain ⟨shape, callable⟩ := d
  rw [IsNormal, normalized]
  exact congrArg (mk · callable) h

theorem RuntimeDemand.map_normalized {fields : List (RuntimeDemand S T)}
    (h : ∀ d ∈ fields, d.IsNormal) : fields.map normalized = fields :=
  (List.map_congr_left h).trans (List.map_id fields)

theorem RuntimeDemand.normalized_ignore : (ignore : RuntimeDemand S T).normalized = ignore := rfl

theorem ShapeDemand.ofFields_ne_whole (fields : List (RuntimeDemand S T)) :
    ofFields fields ≠ .whole := by
  rw [ofFields]
  split <;> exact nofun

theorem ShapeDemand.isNormal_ofFields {fields : List (RuntimeDemand S T)}
    (h : ∀ d ∈ fields, d.IsNormal) : (ofFields fields).IsNormal := by
  have hmap : (fields.rdropWhile RuntimeDemand.isIgnore).map RuntimeDemand.normalized =
      fields.rdropWhile RuntimeDemand.isIgnore :=
    RuntimeDemand.map_normalized fun d hd => h d ((List.rdropWhile_prefix _ fields).subset hd)
  have hof : ofFields (fields.rdropWhile RuntimeDemand.isIgnore) = ofFields fields :=
    ofFields_eq (fieldAt_rdropWhile fields)
  cases hs : ofFields fields with
  | ignore => rfl
  | whole => exact absurd hs (ofFields_ne_whole fields)
  | tupleFields rest =>
    have hrest : rest = fields.rdropWhile RuntimeDemand.isIgnore := by
      rw [← fields_ofFields, hs, ShapeDemand.fields]
    rw [IsNormal, normalized, normalizedFields_eq, hrest, hmap, hof, hs, hrest]

mutual

theorem ShapeDemand.isNormal_normalized (shape : ShapeDemand S T) : shape.normalized.IsNormal := by
  cases shape with
  | ignore => rfl
  | whole => rfl
  | tupleFields fields =>
    rw [ShapeDemand.normalized]
    exact ShapeDemand.isNormal_ofFields (isNormal_normalizedFields fields)

theorem RuntimeDemand.isNormal_normalized (d : RuntimeDemand S T) : d.normalized.IsNormal := by
  cases d with
  | mk shape callable => exact RuntimeDemand.isNormal_of_shape shape.isNormal_normalized

theorem isNormal_normalizedFields (fields : List (RuntimeDemand S T)) :
    ∀ d ∈ normalizedFields fields, d.IsNormal := by
  cases fields with
  | nil => exact nofun
  | cons field fields =>
    rw [normalizedFields]
    exact List.forall_mem_cons.mpr
      ⟨field.isNormal_normalized, isNormal_normalizedFields fields⟩

end

theorem ShapeDemand.IsNormal.fields_isNormal {shape : ShapeDemand S T} (h : shape.IsNormal) :
    ∀ d ∈ shape.fields, d.IsNormal := by
  cases shape with
  | ignore => exact nofun
  | whole => exact nofun
  | tupleFields fields =>
    have hof := congrArg ShapeDemand.fields h
    rw [normalized, fields_ofFields] at hof
    have hmem := isNormal_normalizedFields fields
    intro d hd
    rw [← hof] at hd
    exact hmem d ((List.rdropWhile_prefix _ _).subset hd)

theorem RuntimeDemand.IsNormal.fieldAt {fields : List (RuntimeDemand S T)}
    (h : ∀ d ∈ fields, d.IsNormal) (i : Nat) : (fieldAt fields i).IsNormal := by
  rw [Facts.fieldAt]
  cases hi : fields[i]? with
  | none => rfl
  | some d => exact h d (List.mem_of_getElem? hi)

theorem ShapeDemand.IsNormal.eq_ofFields {shape : ShapeDemand S T} (h : shape.IsNormal)
    (hw : shape ≠ .whole) : shape = .ofFields shape.fields := by
  cases shape with
  | ignore => rfl
  | whole => exact absurd rfl hw
  | tupleFields fields =>
    have hmap : normalizedFields fields = fields := by
      rw [normalizedFields_eq]
      exact RuntimeDemand.map_normalized h.fields_isNormal
    rw [IsNormal, normalized, hmap] at h
    exact h.symm

theorem ShapeDemand.normalized_eq_whole {shape : ShapeDemand S T} :
    shape.normalized = .whole ↔ shape = .whole := by
  cases shape with
  | ignore => exact ⟨nofun, nofun⟩
  | whole => exact ⟨fun _ => rfl, fun _ => rfl⟩
  | tupleFields fields =>
    rw [normalized]
    exact ⟨fun h => absurd h (ofFields_ne_whole _), nofun⟩

theorem ShapeDemand.fieldAt_normalized (shape : ShapeDemand S T) (i : Nat) :
    fieldAt shape.normalized.fields i = (fieldAt shape.fields i).normalized := by
  cases shape with
  | ignore => rfl
  | whole => rfl
  | tupleFields fields =>
    rw [normalized, fields_ofFields, fieldAt_rdropWhile, normalizedFields_eq,
      fieldAt_map RuntimeDemand.normalized_ignore]
    rfl

theorem ShapeDemand.IsNormal.eq {shape shape' : ShapeDemand S T} (h : shape.IsNormal)
    (h' : shape'.IsNormal) (hw : shape ≠ .whole) (hw' : shape' ≠ .whole)
    (hf : ∀ i, fieldAt shape.fields i = fieldAt shape'.fields i) : shape = shape' := by
  rw [h.eq_ofFields hw, h'.eq_ofFields hw', ofFields_eq hf]

theorem RuntimeDemand.field_induction {motive : RuntimeDemand S T → Prop} (ignore : motive .ignore)
    (fields : ∀ d, (∀ i, motive (fieldAt d.shape.fields i)) → motive d) (d : RuntimeDemand S T) :
    motive d := by
  induction hn : d.depth using Nat.strong_induction_on generalizing d with
  | _ n ih =>
    have hmem : ∀ field ∈ d.shape.fields, motive field := by
      intro field hfield
      refine ih field.depth ?_ field rfl
      obtain ⟨shape, callable⟩ := d
      cases shape with
      | ignore => exact nomatch hfield
      | whole => exact nomatch hfield
      | tupleFields fields =>
        rw [← hn, depth, ShapeDemand.depth]
        exact Nat.lt_succ_of_le (depth_le_of_mem hfield)
    refine fields d fun i => ?_
    rw [Facts.fieldAt]
    cases hi : d.shape.fields[i]? with
    | none => exact ignore
    | some field => exact hmem field (List.mem_of_getElem? hi)

/-! ## Fields of a join -/

section Join

variable [DecidableEq S] [DecidableEq T]

/-- The fields of two tuples joined one by one, the shorter padded. -/
def joinFields (left right : List (RuntimeDemand S T)) : List (RuntimeDemand S T) :=
  ((resizeWith left (max left.length right.length)).zip
    (resizeWith right (max left.length right.length))).map fun p => p.1.join p.2

theorem ShapeDemand.join_eq (self other : ShapeDemand S T) :
    self.join other =
      match self.normalized, other.normalized with
      | .ignore, other => other
      | self, .ignore => self
      | .whole, _ => .whole
      | _, .whole => .whole
      | .tupleFields left, .tupleFields right =>
        normalized (.tupleFields (joinFields left right)) := by
  rw [join]
  split
  · rename_i h
    rw [h]
  · rename_i h _
    rw [h]
    cases self.normalized <;> rfl
  · rename_i h _
    rw [h]
    cases ho : other.normalized with
    | ignore => contradiction
    | whole => rfl
    | tupleFields right => rfl
  · rename_i h hignore hwhole
    rw [h]
    cases hs : self.normalized with
    | ignore => contradiction
    | whole => rfl
    | tupleFields left => rfl
  · rename_i h h'
    simp only [h, h', joinFields]
    exact congrArg (fun fields => normalized (.tupleFields fields))
      (List.attach_map_val (f := fun p : RuntimeDemand S T × RuntimeDemand S T => p.1.join p.2))

theorem ShapeDemand.isNormal_join (self other : ShapeDemand S T) : (self.join other).IsNormal := by
  rw [join_eq]
  split
  · exact other.isNormal_normalized
  · exact self.isNormal_normalized
  · rfl
  · rfl
  · exact isNormal_normalized _

theorem ShapeDemand.ignore_join (other : ShapeDemand S T) :
    ignore.join other = other.normalized := by
  rw [join_eq, normalized]

theorem ShapeDemand.join_whole {self other : ShapeDemand S T}
    (h : self = .whole ∨ other = .whole) : self.join other = .whole := by
  rcases h with rfl | rfl
  · rw [join_eq]
    cases other.normalized <;> rfl
  · rw [join_eq]
    cases self.normalized <;> rfl

theorem ShapeDemand.join_ignore (self : ShapeDemand S T) : self.join ignore = self.normalized := by
  rw [join_eq]
  cases self.normalized <;> rfl

theorem ShapeDemand.join_normalized (self other : ShapeDemand S T) :
    self.normalized.join other.normalized = self.join other := by
  rw [join_eq, join_eq self other, self.isNormal_normalized, other.isNormal_normalized]

theorem RuntimeDemand.shape_join (d e : RuntimeDemand S T) :
    (d.join e).shape = d.shape.join e.shape := by
  rw [join, shape]

theorem RuntimeDemand.callable_join (d e : RuntimeDemand S T) :
    (d.join e).callable = d.callable.join e.callable := by
  rw [join, callable]

theorem RuntimeDemand.isNormal_join (d e : RuntimeDemand S T) : (d.join e).IsNormal :=
  isNormal_of_shape (by rw [shape_join]; exact ShapeDemand.isNormal_join _ _)

theorem RuntimeDemand.ignore_join (d : RuntimeDemand S T) : ignore.join d = d.normalized := by
  obtain ⟨shape, callable⟩ := d
  rw [join]
  exact ext (ShapeDemand.ignore_join shape) (CallableDemand.none_join callable)

theorem RuntimeDemand.join_ignore (d : RuntimeDemand S T) : d.join ignore = d.normalized := by
  obtain ⟨shape, callable⟩ := d
  rw [join]
  refine ext (ShapeDemand.join_ignore shape) ?_
  exact (CallableDemand.join_comm _ _).trans (CallableDemand.none_join callable)

theorem RuntimeDemand.join_normalized (d e : RuntimeDemand S T) :
    d.normalized.join e.normalized = d.join e := by
  obtain ⟨shape, callable⟩ := d
  obtain ⟨shape', callable'⟩ := e
  rw [join, join]
  exact ext (ShapeDemand.join_normalized shape shape') rfl

theorem fieldAt_joinFields (left right : List (RuntimeDemand S T)) (i : Nat) :
    fieldAt (joinFields left right) i = (fieldAt left i).join (fieldAt right i) := by
  rw [joinFields, ← fieldAt_resizeWith (Nat.le_max_left left.length right.length),
    ← fieldAt_resizeWith (Nat.le_max_right left.length right.length)]
  have hl := length_resizeWith left (max left.length right.length)
  have hr := length_resizeWith right (max left.length right.length)
  generalize resizeWith left _ = left at hl ⊢
  generalize resizeWith right _ = right at hr ⊢
  rw [← hl] at hr
  clear hl
  induction left generalizing right i with
  | nil =>
    rw [List.eq_nil_of_length_eq_zero hr]
    exact (RuntimeDemand.ignore_join .ignore).symm
  | cons d left ih =>
    cases right with
    | nil => exact nomatch hr
    | cons e right =>
      cases i with
      | zero => rfl
      | succ i => exact ih i right (Nat.succ.inj hr)

theorem ShapeDemand.fieldAt_join {self other : ShapeDemand S T} (hw : self ≠ .whole)
    (hw' : other ≠ .whole) (i : Nat) :
    fieldAt (self.join other).fields i = (fieldAt self.fields i).join (fieldAt other.fields i) := by
  rw [← RuntimeDemand.join_normalized, ← fieldAt_normalized, ← fieldAt_normalized, join_eq]
  have hs := normalized_eq_whole.not.mpr hw
  have ho := normalized_eq_whole.not.mpr hw'
  have hns := self.isNormal_normalized
  have hno := other.isNormal_normalized
  generalize self.normalized = self at hs hns ⊢
  generalize other.normalized = other at ho hno ⊢
  cases self with
  | whole => exact absurd rfl hs
  | ignore =>
    show fieldAt other.fields i = RuntimeDemand.ignore.join (fieldAt other.fields i)
    rw [RuntimeDemand.ignore_join, RuntimeDemand.IsNormal.fieldAt hno.fields_isNormal i]
  | tupleFields left =>
    cases other with
    | whole => exact absurd rfl ho
    | ignore =>
      show fieldAt left i = (fieldAt left i).join .ignore
      rw [RuntimeDemand.join_ignore]
      exact (RuntimeDemand.IsNormal.fieldAt hns.fields_isNormal i).symm
    | tupleFields right =>
      show fieldAt (normalized (.tupleFields (joinFields left right))).fields i = _
      rw [fieldAt_normalized, fields, fieldAt_joinFields]
      exact RuntimeDemand.isNormal_join _ _

theorem ShapeDemand.join_eq_whole {self other : ShapeDemand S T} :
    self.join other = .whole ↔ self = .whole ∨ other = .whole := by
  refine ⟨fun h => ?_, join_whole⟩
  by_contra hw
  obtain ⟨hs, ho⟩ := not_or.mp hw
  have hns := normalized_eq_whole.not.mpr hs
  have hno := normalized_eq_whole.not.mpr ho
  rw [join_eq] at h
  cases h1 : self.normalized with
  | whole => exact hns h1
  | ignore => exact hno (by rwa [h1] at h)
  | tupleFields left =>
    cases h2 : other.normalized with
    | whole => exact hno h2
    | ignore => rw [h1, h2] at h; exact nomatch h
    | tupleFields right =>
      rw [h1, h2] at h
      exact absurd (normalized_eq_whole.mp h) nofun

/-! ## The semilattice -/

theorem ShapeDemand.join_congr {a b a' b' : ShapeDemand S T}
    (hw : a = .whole ∨ b = .whole ↔ a' = .whole ∨ b' = .whole)
    (hf : ¬ (a = .whole ∨ b = .whole) → ∀ i,
      fieldAt (a.join b).fields i = fieldAt (a'.join b').fields i) : a.join b = a'.join b' := by
  by_cases h : a = .whole ∨ b = .whole
  · rw [join_whole h, join_whole (hw.mp h)]
  · exact (isNormal_join a b).eq (isNormal_join a' b') (join_eq_whole.not.mpr h)
      (join_eq_whole.not.mpr (hw.not.mp h)) (hf h)

theorem RuntimeDemand.join_comm (d e : RuntimeDemand S T) : d.join e = e.join d := by
  induction d using field_induction generalizing e with
  | ignore => rw [ignore_join, join_ignore]
  | fields d ih =>
    refine ext ?_ ?_
    · rw [shape_join, shape_join]
      refine ShapeDemand.join_congr or_comm fun hw i => ?_
      obtain ⟨hd, he⟩ := not_or.mp hw
      rw [ShapeDemand.fieldAt_join hd he, ShapeDemand.fieldAt_join he hd, ih]
    · rw [callable_join, callable_join, CallableDemand.join_comm]

theorem RuntimeDemand.normalized_join (d e : RuntimeDemand S T) :
    d.normalized.join e = d.join e := by
  rw [← join_normalized d.normalized, d.isNormal_normalized, join_normalized]

theorem RuntimeDemand.join_assoc (d e f : RuntimeDemand S T) :
    (d.join e).join f = d.join (e.join f) := by
  induction d using field_induction generalizing e f with
  | ignore => rw [ignore_join, ignore_join, normalized_join, isNormal_join]
  | fields d ih =>
    refine ext ?_ ?_
    · simp only [shape_join]
      refine ShapeDemand.join_congr ?_ fun hw i => ?_
      · rw [ShapeDemand.join_eq_whole, ShapeDemand.join_eq_whole, or_assoc]
      · rw [ShapeDemand.join_eq_whole] at hw
        obtain ⟨hde, hf⟩ := not_or.mp hw
        obtain ⟨hd, he⟩ := not_or.mp hde
        have hde := ShapeDemand.join_eq_whole.not.mpr hde
        have hef := ShapeDemand.join_eq_whole.not.mpr (not_or.mpr ⟨he, hf⟩)
        rw [ShapeDemand.fieldAt_join hde hf, ShapeDemand.fieldAt_join hd he,
          ShapeDemand.fieldAt_join hd hef, ShapeDemand.fieldAt_join he hf, ih]
    · simp only [callable_join, CallableDemand.join_assoc]

theorem RuntimeDemand.join_self (d : RuntimeDemand S T) : d.join d = d.normalized := by
  induction d using field_induction with
  | ignore => exact ignore_join ignore
  | fields d ih =>
    obtain ⟨shape, callable⟩ := d
    rw [join, normalized]
    refine ext ?_ (CallableDemand.join_self callable)
    show shape.join shape = shape.normalized
    by_cases hw : shape = .whole
    · rw [ShapeDemand.join_whole (.inl hw), hw, ShapeDemand.normalized]
    · have hjoin := ShapeDemand.join_eq_whole.not.mpr (not_or.mpr ⟨hw, hw⟩)
      refine (ShapeDemand.isNormal_join shape shape).eq shape.isNormal_normalized hjoin
        (ShapeDemand.normalized_eq_whole.not.mpr hw) fun i => ?_
      rw [ShapeDemand.fieldAt_join hw hw, ShapeDemand.fieldAt_normalized]
      exact ih i

/-! ## Obligations -/

/-- What either demand states at a path is stated there by the join. -/
def RuntimeDemand.KeptAt (d e : RuntimeDemand S T) (path : List Nat) : Prop :=
  (d.atPath path).callable.Le ((d.join e).atPath path).callable ∧
    (e.atPath path).callable.Le ((d.join e).atPath path).callable

variable {d e : RuntimeDemand S T}

theorem RuntimeDemand.field_join (hd : d.shape ≠ .whole)
    (he : e.shape ≠ .whole) (i : Nat) : (d.join e).field i = (d.field i).join (e.field i) := by
  have hjoin : (d.join e).shape ≠ .whole := by
    rw [shape_join]
    exact ShapeDemand.join_eq_whole.not.mpr (not_or.mpr ⟨hd, he⟩)
  rw [field_eq hjoin, field_eq hd, field_eq he, shape_join, ShapeDemand.fieldAt_join hd he]

theorem RuntimeDemand.keptAt_nil (d e : RuntimeDemand S T) : d.KeptAt e [] := by
  show d.callable.Le (d.join e).callable ∧ e.callable.Le (d.join e).callable
  rw [callable_join]
  exact ⟨CallableDemand.le_join_left _ _, CallableDemand.le_join_right _ _⟩

theorem RuntimeDemand.keptAt_of_wholeCovers (hd : d.WholeCovers e)
    (he : e.WholeCovers d) (path : List Nat) : d.KeptAt e path := by
  induction path generalizing d e with
  | nil => exact keptAt_nil d e
  | cons i path ih =>
    by_cases hdw : d.shape = .whole
    · refine ⟨CallableDemand.le_of_isEmpty ?_ _,
        CallableDemand.le_of_isEmpty (hd.isEmpty_atPath hdw i path) _⟩
      rw [atPath_whole hdw]
      rfl
    by_cases hew : e.shape = .whole
    · refine ⟨CallableDemand.le_of_isEmpty (he.isEmpty_atPath hew i path) _,
        CallableDemand.le_of_isEmpty ?_ _⟩
      rw [atPath_whole hew]
      rfl
    rw [KeptAt, atPath_cons, atPath_cons, atPath_cons, field_join hdw hew]
    exact ih (hd.field i) (he.field i)

theorem RuntimeDemand.wholeCovers_of_keptAt (h : ∀ path, d.KeptAt e path) : d.WholeCovers e := by
  intro path
  induction path generalizing d e with
  | nil =>
    intro hw i
    have hjoin : (d.join e).shape = .whole := by
      rw [shape_join]
      exact ShapeDemand.join_whole (.inl hw)
    have hle := (h [i]).2
    rw [atPath_whole hjoin] at hle
    exact CallableDemand.isEmpty_of_le_none hle
  | cons i path ih =>
    intro hw j
    by_cases hwhole : d.shape = .whole ∨ e.shape = .whole
    · have hjoin : (d.join e).shape = .whole := by
        rw [shape_join]
        exact ShapeDemand.join_whole hwhole
      have hle := (h (i :: (path ++ [j]))).2
      rw [atPath_whole hjoin] at hle
      have hempty := CallableDemand.isEmpty_of_le_none hle
      rwa [atPath_cons, atPath, List.foldl_append] at hempty
    · obtain ⟨hdw, hew⟩ := not_or.mp hwhole
      refine ih (d := d.field i) (e := e.field i) (fun path => ?_) hw j
      have hkept := h (i :: path)
      rwa [KeptAt, atPath_cons, atPath_cons, atPath_cons, field_join hdw hew] at hkept

theorem RuntimeDemand.keptAt_comm {path : List Nat} : d.KeptAt e path ↔ e.KeptAt d path := by
  rw [KeptAt, KeptAt, join_comm e d]
  exact and_comm

end Join

/-! ## The main result -/

/-- The join of runtime demands is a semilattice whose identity is `ignore`.  It keeps what either
demand states at every path just when neither is on the whole value where the other states an
obligation on a field. -/
theorem RuntimeDemand.join_semilattice (S T : Type) [DecidableEq S] [DecidableEq T] :
    (∀ d e : RuntimeDemand S T, (d.join e).IsNormal ∧ d.join e = e.join d) ∧
    (∀ d e f : RuntimeDemand S T, (d.join e).join f = d.join (e.join f)) ∧
    (∀ d : RuntimeDemand S T, d.IsNormal → d.join d = d ∧ ignore.join d = d) ∧
    ∀ d e : RuntimeDemand S T, (∀ path, d.KeptAt e path) ↔ d.WholeCovers e ∧ e.WholeCovers d := by
  refine ⟨fun d e => ⟨isNormal_join d e, join_comm d e⟩, join_assoc, fun d hd => ?_, fun d e => ?_⟩
  · rw [join_self, ignore_join]
    exact ⟨hd, hd⟩
  · exact ⟨fun h => ⟨wholeCovers_of_keptAt h, wholeCovers_of_keptAt fun p => keptAt_comm.mp (h p)⟩,
      fun h => keptAt_of_wholeCovers h.1 h.2⟩

/-- A tuple whose first field is used as an unknown callable. -/
def opaqueField : RuntimeDemand Nat Nat :=
  .mk (.tupleFields [.mk .ignore ⟨∅, ∅, true, false⟩]) .none

/-- Joined with a demand on the whole tuple, the obligation on the field is lost. -/
theorem whole_join_loses_obligation :
    ¬ ∀ d e : RuntimeDemand Nat Nat, d.IsNormal → e.IsNormal → ∀ path, d.KeptAt e path := by
  intro h
  have hnormal : opaqueField.IsNormal := rfl
  have hkept := (h .whole opaqueField rfl hnormal [0]).2
  have hjoin : (RuntimeDemand.whole.join opaqueField).shape = .whole := by
    rw [RuntimeDemand.shape_join]
    exact ShapeDemand.join_whole (.inl rfl)
  rw [RuntimeDemand.atPath_whole hjoin] at hkept
  exact nomatch hkept.isOpaque rfl

end Fz.Facts
