import Mathlib.Data.Finset.Card
import Mathlib.Data.Finset.Lattice.Lemmas
import Mathlib.Data.List.DropRight

/-!
# Runtime demands

The demand on a value is the product of a shape and of callable obligations.  A shape is nothing,
the whole value, or a prefix of the fields of a tuple, each with a demand of its own.  A demand is
normal when no shape in it ends in fields that nobody needs.  The join takes the shapes field by
field, and the whole value absorbs every other shape.
-/

namespace Fz.Facts

/-- The obligations on a value that is used as a callable. -/
structure CallableDemand (Surface Target : Type) where
  resolved : Finset Surface
  targets : Finset Target
  isOpaque : Bool
  escape : Bool

mutual

inductive ShapeDemand (Surface Target : Type) where
  | ignore
  | whole
  | tupleFields (fields : List (RuntimeDemand Surface Target))

inductive RuntimeDemand (Surface Target : Type) where
  | mk (shape : ShapeDemand Surface Target) (callable : CallableDemand Surface Target)

end

variable {S T : Type}

namespace CallableDemand

def none : CallableDemand S T := ⟨∅, ∅, false, false⟩

def isEmpty (d : CallableDemand S T) : Bool :=
  d.resolved.card == 0 && d.targets.card == 0 && !d.isOpaque && !d.escape

def join [DecidableEq S] [DecidableEq T] (d e : CallableDemand S T) : CallableDemand S T :=
  ⟨d.resolved ∪ e.resolved, d.targets ∪ e.targets, d.isOpaque || e.isOpaque, d.escape || e.escape⟩

/-- What is stated by one is stated by the other. -/
structure Le (d e : CallableDemand S T) : Prop where
  resolved : d.resolved ⊆ e.resolved
  targets : d.targets ⊆ e.targets
  isOpaque : d.isOpaque = true → e.isOpaque = true
  escape : d.escape = true → e.escape = true

end CallableDemand

def RuntimeDemand.shape : RuntimeDemand S T → ShapeDemand S T
  | mk shape _ => shape

def RuntimeDemand.callable : RuntimeDemand S T → CallableDemand S T
  | mk _ callable => callable

def ShapeDemand.isIgnore : ShapeDemand S T → Bool
  | ignore => true
  | _ => false

namespace RuntimeDemand

def ignore : RuntimeDemand S T := mk .ignore .none

/-- The whole data representation, with no callable obligation. -/
def whole : RuntimeDemand S T := mk .whole .none

def isIgnore (d : RuntimeDemand S T) : Bool := d.shape.isIgnore && d.callable.isEmpty

end RuntimeDemand

/-- A vector resized to a width, new fields not needed. -/
def resizeWith (fields : List (RuntimeDemand S T)) (width : Nat) : List (RuntimeDemand S T) :=
  fields.take width ++ List.replicate (width - fields.length) .ignore

/-- The demand read against a tuple of some arity. -/
def ShapeDemand.fieldPrefix (arity : Nat) : ShapeDemand S T → Option (List (RuntimeDemand S T))
  | ignore => none
  | whole => some (List.replicate arity .whole)
  | tupleFields fields => some (resizeWith fields arity)

/-- The demand on one field. -/
def RuntimeDemand.field (d : RuntimeDemand S T) (i : Nat) : RuntimeDemand S T :=
  ((d.shape.fieldPrefix (i + 1)).bind (·[i]?)).getD .ignore

/-- The demand at the end of a path of fields. -/
def RuntimeDemand.atPath (d : RuntimeDemand S T) (path : List Nat) : RuntimeDemand S T :=
  path.foldl RuntimeDemand.field d

/-! ## Normal forms -/

/-- Normal fields as a shape: the last ones that are not needed are dropped. -/
def ShapeDemand.ofFields (fields : List (RuntimeDemand S T)) : ShapeDemand S T :=
  match fields.rdropWhile RuntimeDemand.isIgnore with
  | [] => ignore
  | field :: fields => tupleFields (field :: fields)

mutual

@[grind =] def ShapeDemand.normalized : ShapeDemand S T → ShapeDemand S T
  | .ignore => .ignore
  | .whole => .whole
  | .tupleFields fields => .ofFields (normalizedFields fields)

def RuntimeDemand.normalized : RuntimeDemand S T → RuntimeDemand S T
  | .mk shape callable => .mk shape.normalized callable

def normalizedFields : List (RuntimeDemand S T) → List (RuntimeDemand S T)
  | [] => []
  | field :: fields => field.normalized :: normalizedFields fields

end

/-! ## Depth -/

mutual

def ShapeDemand.depth : ShapeDemand S T → Nat
  | .ignore => 0
  | .whole => 0
  | .tupleFields fields => depthFields fields + 1

def RuntimeDemand.depth : RuntimeDemand S T → Nat
  | .mk shape _ => shape.depth

def depthFields : List (RuntimeDemand S T) → Nat
  | [] => 0
  | field :: fields => max field.depth (depthFields fields)

end

variable {fields : List (RuntimeDemand S T)}

theorem depth_le_of_mem {d : RuntimeDemand S T}
    (h : d ∈ fields) : d.depth ≤ depthFields fields := by
  induction fields with
  | nil => exact nomatch h
  | cons field fields ih =>
    rw [depthFields]
    rcases List.mem_cons.mp h with rfl | h
    · exact Nat.le_max_left _ _
    · exact (ih h).trans (Nat.le_max_right _ _)

theorem depthFields_le {n : Nat} (h : ∀ d ∈ fields, d.depth ≤ n) : depthFields fields ≤ n := by
  induction fields with
  | nil => exact Nat.zero_le n
  | cons field fields ih =>
    rw [depthFields]
    exact Nat.max_le.mpr ⟨h field (.head _), ih fun d hd => h d (.tail _ hd)⟩

theorem normalizedFields_eq (fields : List (RuntimeDemand S T)) :
    normalizedFields fields = fields.map RuntimeDemand.normalized := by
  induction fields with
  | nil => rfl
  | cons field fields ih => rw [normalizedFields, ih, List.map_cons]

theorem ShapeDemand.depth_ofFields_le (fields : List (RuntimeDemand S T)) :
    (ofFields fields).depth ≤ depthFields fields + 1 := by
  have hsub : ∀ d ∈ fields.rdropWhile RuntimeDemand.isIgnore, d ∈ fields := fun d hd =>
    (List.rdropWhile_prefix RuntimeDemand.isIgnore fields).subset hd
  rw [ofFields]
  split
  · exact Nat.zero_le _
  · rename_i field rest hdrop
    rw [depth, ← hdrop]
    exact Nat.succ_le_succ (depthFields_le fun d hd => depth_le_of_mem (hsub d hd))

mutual

theorem ShapeDemand.depth_normalized_le (shape : ShapeDemand S T) :
    shape.normalized.depth ≤ shape.depth := by
  cases shape with
  | ignore => exact le_rfl
  | whole => exact le_rfl
  | tupleFields fields =>
    rw [ShapeDemand.normalized, ShapeDemand.depth]
    exact (ShapeDemand.depth_ofFields_le _).trans
      (Nat.succ_le_succ (depthFields_normalized_le fields))

theorem RuntimeDemand.depth_normalized_le (d : RuntimeDemand S T) :
    d.normalized.depth ≤ d.depth := by
  cases d with
  | mk shape callable => exact shape.depth_normalized_le

theorem depthFields_normalized_le (fields : List (RuntimeDemand S T)) :
    depthFields (normalizedFields fields) ≤ depthFields fields := by
  cases fields with
  | nil => exact le_rfl
  | cons field fields =>
    rw [normalizedFields, depthFields, depthFields]
    exact max_le_max field.depth_normalized_le (depthFields_normalized_le fields)

end

theorem depth_resizeWith_le {width : Nat}
    {d : RuntimeDemand S T} (h : d ∈ resizeWith fields width) : d.depth ≤ depthFields fields := by
  rcases List.mem_append.mp h with h | h
  · exact depth_le_of_mem (List.mem_of_mem_take h)
  · rw [List.eq_of_mem_replicate h]
    exact Nat.zero_le _

/-! ## Join -/

section Join

variable [DecidableEq S] [DecidableEq T]

mutual

/-- The fields of two tuples are padded to one width and joined one by one. -/
@[grind =] def ShapeDemand.join (self other : ShapeDemand S T) : ShapeDemand S T :=
  match _hself : self.normalized, _hother : other.normalized with
  | .ignore, other => other
  | self, .ignore => self
  | .whole, _ => .whole
  | _, .whole => .whole
  | .tupleFields left, .tupleFields right =>
    ShapeDemand.normalized (.tupleFields
      (((resizeWith left (max left.length right.length)).zip
        (resizeWith right (max left.length right.length))).attach.map fun p =>
          p.1.1.join p.1.2))
termination_by (self.depth + other.depth, 0)
decreasing_by
  have hmem := p.2
  have hl := depth_resizeWith_le (List.of_mem_zip (show (p.1.1, p.1.2) ∈ _ from hmem)).1
  have hr := depth_resizeWith_le (List.of_mem_zip (show (p.1.1, p.1.2) ∈ _ from hmem)).2
  have hself' := self.depth_normalized_le
  have hother' := other.depth_normalized_le
  rw [_hself, ShapeDemand.depth] at hself'
  rw [_hother, ShapeDemand.depth] at hother'
  exact Prod.Lex.left _ _ (by omega)

def RuntimeDemand.join (self other : RuntimeDemand S T) : RuntimeDemand S T :=
  .mk (self.shape.join other.shape) (self.callable.join other.callable)
termination_by (self.depth + other.depth, 1)
decreasing_by
  cases self
  cases other
  exact Prod.Lex.right _ (by omega)

end

end Join

end Fz.Facts
