import Fz.Terms.Compare

/-!
# The order of terms

The strict comparator is a total order on published words, and answers `eq` exactly on words that
denote the same term.

The abstract order compares trees label by label (`Rose.cmp`), and labels by a key in a product of
totally ordered types (`Label.key`): the rank of the kind first, then the components that kind
has, the others at a fixed value.  So the order laws hold of terms without a case analysis over
triples of kinds.  In a mode, a term is first mapped to the tree of its keys (`Term.keys`): the
mode says where a float stands, and in which mode the parts of a map and of a closure compare.
The comparator is connected to it by `compare_eq_cmpIn`: on two words that denote terms it returns
the order of these terms, whatever their addresses and representations are.  The mixed numeric
branch goes through exact values (`compareIntFloat_eq`), the binary branch through bits
(`bitstringCmp_eq`), and the identity shortcuts are right because a word denotes one term.
-/

namespace Fz.Terms

open Std Fz.Base

attribute [local instance] lexOrd

/-! ## The order of labels -/

/-- Where a schema identity stands: tuples by arity, then named structs by name. -/
def SchemaIdentity.key : SchemaIdentity → Nat × Nat × List String
  | .tuple n => (0, n, [])
  | .named m => (1, 0, m.segments)
  | .internal s => (2, 0, [s])

theorem SchemaIdentity.key_injective {a b : SchemaIdentity} (h : a.key = b.key) : a = b := by
  cases a <;> cases b <;> simp only [key, Prod.mk.injEq] at h
  case tuple.tuple => rw [h.2.1]
  case named.named m m' =>
    obtain ⟨_, _, _⟩ := m
    obtain ⟨_, _, _⟩ := m'
    obtain rfl := h.2.2
    rfl
  case internal.internal => rw [List.cons.inj h.2.2 |>.1]
  all_goals omega

/-- The place of a label in the strict order: the rank of its kind, then what that kind compares
by. -/
@[grind =] def Label.key : Label →
    Nat × String × Option FunctionDenotation × (Nat × Nat × List String) × Int × List Bool
  | .int n => (0, "", none, (0, 0, []), 3 * (n.toInt * F64.unitsPerOne), [])
  | .float x => (0, "", none, (0, 0, []), x.orderKey, [])
  | .atom name => (1, name, none, (0, 0, []), 0, [])
  | .resource id => (2, "", none, (0, 0, []), id, [])
  | .closure d captured => (3, "", some d, (0, 0, []), captured, [])
  | .struct identity => (4, "", none, identity.key, 0, [])
  | .map count => (5, "", none, (0, 0, []), count, [])
  | .list => (6, "", none, (0, 0, []), 0, [])
  | .bits bs => (7, "", none, (0, 0, []), 0, bs)

def Label.cmp (k l : Label) : Ordering := Ord.compare k.key l.key

theorem int_key_ne_float_key (n : Int64) (x : F64) :
    3 * (n.toInt * F64.unitsPerOne) ≠ x.orderKey := by
  have := x.orderKey_bounds
  omega

theorem Label.key_injective {k l : Label} (h : k.key = l.key) : k = l := by
  cases k <;> cases l <;> simp only [key, Prod.mk.injEq] at h
  case int.int n m =>
    have hU := F64.unitsPerOne_pos
    have hmul := h.2.2.2.2.1
    have hmul' : n.toInt * F64.unitsPerOne = m.toInt * F64.unitsPerOne := by omega
    rw [Int64.toInt_inj.mp (Int.eq_of_mul_eq_mul_right (by omega) hmul')]
  case int.float n x => exact absurd h.2.2.2.2.1 (int_key_ne_float_key n x)
  case float.int x n => exact absurd h.2.2.2.2.1.symm (int_key_ne_float_key n x)
  case float.float x y => rw [F64.orderKey_injective h.2.2.2.2.1]
  case atom.atom => rw [h.2.1]
  case resource.resource => rw [Int.ofNat.inj h.2.2.2.2.1]
  case closure.closure => rw [Option.some.inj h.2.2.1, Int.ofNat.inj h.2.2.2.2.1]
  case struct.struct => rw [SchemaIdentity.key_injective h.2.2.2.1]
  case map.map => rw [Int.ofNat.inj h.2.2.2.2.1]
  case list.list => rfl
  case bits.bits => rw [h.2.2.2.2.2]
  all_goals exact absurd h.1 (by decide)

instance : TransCmp Label.cmp :=
  inferInstanceAs (TransCmp (compareOn Label.key))

instance : LawfulEqCmp Label.cmp where
  compare_self := ReflOrd.compare_self
  eq_of_compare h := Label.key_injective (LawfulEqOrd.eq_of_compare h)

/-- The strict order of terms. -/
def Term.cmp : Term → Term → Ordering := Rose.cmp Label.cmp

instance : TransCmp Term.cmp := inferInstanceAs (TransCmp (Rose.cmp Label.cmp))

instance : LawfulEqCmp Term.cmp := inferInstanceAs (LawfulEqCmp (Rose.cmp Label.cmp))

namespace Label

/-- The rank of a label's kind. -/
def rank : Label → Nat
  | .int _ | .float _ => 0
  | .atom _ => 1
  | .resource _ => 2
  | .closure _ _ => 3
  | .struct _ => 4
  | .map _ => 5
  | .list => 6
  | .bits _ => 7

theorem compare_pair {α β : Type} [Ord α] [Ord β] (a a' : α) (b b' : β) :
    Ord.compare (a, b) (a', b') = (Ord.compare a a').then (Ord.compare b b') := rfl

theorem compare_refl {α : Type} [Ord α] [ReflOrd α] (a : α) : Ord.compare a a = .eq :=
  ReflOrd.compare_self

theorem cmp_int_int (n m : Int64) : cmp (.int n) (.int m) = Ord.compare n.toInt m.toInt := by
  have hU : (0 : Int) < F64.unitsPerOne := by exact_mod_cast F64.unitsPerOne_pos
  have hiff : ∀ a b : Int, 3 * (a * F64.unitsPerOne) < 3 * (b * F64.unitsPerOne) ↔ a < b := by
    intro a b
    rw [Int.mul_lt_mul_left (by decide), Int.mul_lt_mul_right hU]
  simp only [cmp, key, compare_pair, compare_refl, Ordering.eq_then, Ordering.then_eq]
  exact compare_congr (hiff ..) (hiff ..)

theorem cmp_float_float (x y : F64) : cmp (.float x) (.float y) = x.totalCmp y := by
  simp only [cmp, key, compare_pair, compare_refl, Ordering.eq_then, Ordering.then_eq,
    F64.totalCmp_eq]

theorem cmp_int_float (n : Int64) (x : F64) : cmp (.int n) (.float x)
    = (Ord.compare (n.toInt * F64.unitsPerOne) x.value).then .lt := by
  have hx := x.orderKey_bounds
  simp only [cmp, key, compare_pair, compare_refl, Ordering.eq_then, Ordering.then_eq]
  rcases Int.lt_trichotomy (n.toInt * F64.unitsPerOne) x.value with h | h | h
  · rw [Int.compare_eq_lt.mpr h, Int.compare_eq_lt.mpr (by omega)]
    rfl
  · rw [Int.compare_eq_eq.mpr h, Int.compare_eq_lt.mpr (by omega)]
    rfl
  · rw [Int.compare_eq_gt.mpr h, Int.compare_eq_gt.mpr (by omega)]
    rfl

theorem cmp_atom_atom (a b : String) : cmp (.atom a) (.atom b) = Ord.compare a b := by
  simp only [cmp, key, compare_pair, compare_refl, Ordering.eq_then, Ordering.then_eq]

theorem compare_natCast (m n : Nat) : Ord.compare (m : Int) (n : Int) = Ord.compare m n := by
  simp only [Int.compare_eq_ite_lt, Nat.compare_eq_ite_lt, Int.ofNat_lt]

theorem cmp_resource_resource (a b : Nat) : cmp (.resource a) (.resource b) = Ord.compare a b := by
  simp only [cmp, key, compare_pair, compare_refl, Ordering.eq_then, Ordering.then_eq,
    compare_natCast]

theorem cmp_closure_closure (d e : FunctionDenotation) (m n : Nat) :
    cmp (.closure d m) (.closure e n) = (d.semanticCmp e).then (Ord.compare m n) := by
  simp only [cmp, key, compare_pair, compare_refl, Ordering.eq_then, Ordering.then_eq,
    compare_natCast]
  rfl

theorem cmp_struct_struct (i j : SchemaIdentity) :
    cmp (.struct i) (.struct j) = Ord.compare i.key j.key := by
  simp only [cmp, key, compare_pair, compare_refl, Ordering.eq_then, Ordering.then_eq]

theorem cmp_map_map (m n : Nat) : cmp (.map m) (.map n) = Ord.compare m n := by
  simp only [cmp, key, compare_pair, compare_refl, Ordering.eq_then, Ordering.then_eq,
    compare_natCast]

theorem cmp_bits_bits (xs ys : List Bool) :
    cmp (.bits xs) (.bits ys) = List.compareLex Ord.compare xs ys := by
  simp only [cmp, key, compare_pair, compare_refl, Ordering.eq_then]
  rfl

end Label

/-! ## The order in a mode -/

abbrev LabelKey :=
  Nat × String × Option FunctionDenotation × (Nat × Nat × List String) × Int × List Bool

/-- Widening places a float at its value, beside the integer that has this value. -/
def Label.keyIn : NumericMode → Label → LabelKey
  | .widening, .float x => (0, "", none, (0, 0, []), 3 * x.value, [])
  | _, k => k.key

def Label.cmpIn (mode : NumericMode) (k l : Label) : Ordering :=
  Ord.compare (k.keyIn mode) (l.keyIn mode)

/-- The mode in which a part is compared: keys of maps and captures of closures strictly. -/
def Label.partMode (mode : NumericMode) (i : Nat) : Label → NumericMode
  | .map count => if i < count then .strict else mode
  | .closure _ _ => .strict
  | _ => mode

mutual
/-- A term with each label at its place in the order. -/
def Term.keys (mode : NumericMode) : Rose Label → Rose LabelKey
  | .node k ts => .node (k.keyIn mode) (keysFrom k mode 0 ts)

def Term.keysFrom (k : Label) (mode : NumericMode) : Nat → List (Rose Label) → List (Rose LabelKey)
  | _, [] => []
  | i, t :: ts => keys (k.partMode mode i) t :: keysFrom k mode (i + 1) ts
end

/-- The order of terms in a mode. -/
def Term.cmpIn (mode : NumericMode) (s t : Term) : Ordering :=
  Rose.cmp Ord.compare (Term.keys mode s) (Term.keys mode t)

/-- The order of sequences of parts. -/
def Term.cmpListIn (mode : NumericMode) (ts us : List Term) : Ordering :=
  Rose.cmpList Ord.compare (ts.map (Term.keys mode)) (us.map (Term.keys mode))

instance (mode : NumericMode) : TransCmp (Term.cmpIn mode) where
  eq_swap {s t} := Rose.cmp_swap (Term.keys mode s) (Term.keys mode t)
  isLE_trans {s t u} hst htu := @TransCmp.isLE_trans _ (Rose.cmp Ord.compare) _
    (Term.keys mode s) (Term.keys mode t) (Term.keys mode u) hst htu

namespace Label

theorem keyIn_eq_key {k : Label} (h : ∀ x, k ≠ .float x) (mode : NumericMode) :
    k.keyIn mode = k.key := by
  cases k with
  | float x => exact absurd rfl (h x)
  | _ => cases mode <;> rfl

theorem keyIn_fst (k : Label) (mode : NumericMode) : (k.keyIn mode).1 = k.rank := by
  cases k <;> cases mode <;> rfl

theorem cmpIn_eq_cmp {k l : Label} (hk : ∀ x, k ≠ .float x) (hl : ∀ x, l ≠ .float x)
    (mode : NumericMode) : cmpIn mode k l = cmp k l := by
  rw [cmpIn, cmp, keyIn_eq_key hk, keyIn_eq_key hl]

theorem cmpIn_strict (k l : Label) : cmpIn .strict k l = cmp k l := rfl

theorem cmpIn_of_rank_ne {k l : Label} (h : k.rank ≠ l.rank) (mode : NumericMode) :
    cmpIn mode k l = Ord.compare k.rank l.rank := by
  have hne : Ord.compare k.rank l.rank ≠ .eq := fun he => h (Nat.compare_eq_eq.mp he)
  show (Ord.compare (k.keyIn mode).1 (l.keyIn mode).1).then _ = _
  rw [keyIn_fst, keyIn_fst]
  cases hc : Ord.compare k.rank l.rank with
  | eq => exact absurd hc hne
  | lt => rfl
  | gt => rfl

theorem compare_three_mul (a b : Int) : Ord.compare (3 * a) (3 * b) = Ord.compare a b :=
  compare_congr (Int.mul_lt_mul_left (by decide)) (Int.mul_lt_mul_left (by decide))

theorem widening_float_float (x y : F64) :
    cmpIn .widening (.float x) (.float y) = Ord.compare x.value y.value := by
  simp only [cmpIn, keyIn, compare_pair, compare_refl, Ordering.eq_then, Ordering.then_eq,
    compare_three_mul]

theorem widening_int_float (n : Int64) (x : F64) : cmpIn .widening (.int n) (.float x) =
    Ord.compare (n.toInt * F64.unitsPerOne) x.value := by
  simp only [cmpIn, keyIn, key, compare_pair, compare_refl, Ordering.eq_then, Ordering.then_eq,
    compare_three_mul]

end Label

namespace Term

theorem keysFrom_eq_map {k : Label} {mode part : NumericMode}
    (h : ∀ i, k.partMode mode i = part) (i : Nat) (ts : List Term) :
    keysFrom k mode i ts = ts.map (keys part) := by
  induction ts generalizing i with
  | nil => rfl
  | cons t ts ih => rw [keysFrom, h i, ih, List.map_cons]

theorem keysFrom_strict (k : Label) (i : Nat) (ts : List Term) :
    keysFrom k .strict i ts = ts.map (keys .strict) := by
  refine keysFrom_eq_map (fun i => ?_) i ts
  cases k with
  | map count => exact ite_self _
  | _ => rfl

theorem keysFrom_map (mode : NumericMode) (count i : Nat) (ks vs : List Term)
    (h : i + ks.length = count) : keysFrom (.map count) mode i (ks ++ vs) =
      ks.map (keys .strict) ++ vs.map (keys mode) := by
  induction ks generalizing i with
  | nil =>
    rw [List.nil_append, List.map_nil, List.nil_append]
    have hvalues : ∀ (j : Nat) (vs : List Term), count ≤ j →
        keysFrom (.map count) mode j vs = vs.map (keys mode) := by
      intro j vs
      induction vs generalizing j with
      | nil => exact fun _ => rfl
      | cons v vs ih =>
        intro hj
        rw [keysFrom, ih (j + 1) (by omega), List.map_cons]
        show keys (if j < count then .strict else mode) v :: _ = _
        rw [if_neg (by omega)]
    exact hvalues i vs (by rw [List.length_nil] at h; omega)
  | cons k ks ih =>
    rw [List.length_cons] at h
    rw [List.cons_append, keysFrom, ih (i + 1) (by omega), List.map_cons, List.cons_append]
    show keys (if i < count then .strict else mode) k :: _ = _
    rw [if_pos (by omega)]

mutual
theorem cmp_keys_strict : ∀ s t : Rose Label,
    Rose.cmp Ord.compare (keys .strict s) (keys .strict t) = Rose.cmp Label.cmp s t
  | .node k ts, .node l us => by
    rw [keys, keys, Rose.cmp, Rose.cmp, keysFrom_strict, keysFrom_strict, cmpList_keys_strict ts us]
    rfl

theorem cmpList_keys_strict : ∀ ts us : List (Rose Label),
    Rose.cmpList Ord.compare (ts.map (keys .strict)) (us.map (keys .strict)) =
      Rose.cmpList Label.cmp ts us
  | [], [] => rfl
  | [], _ :: _ => rfl
  | _ :: _, [] => rfl
  | t :: ts, u :: us => by
    rw [List.map_cons, List.map_cons, Rose.cmpList, Rose.cmpList, cmp_keys_strict t u,
      cmpList_keys_strict ts us]
end

theorem cmpIn_strict (s t : Term) : cmpIn .strict s t = cmp s t := cmp_keys_strict s t

theorem cmpIn_node (mode : NumericMode) (k l : Label) (ts us : List Term) :
    cmpIn mode (.node k ts) (.node l us) = (Label.cmpIn mode k l).then
      (Rose.cmpList Ord.compare (keysFrom k mode 0 ts) (keysFrom l mode 0 us)) := by
  rw [cmpIn, keys, keys, Rose.cmp]
  rfl

theorem cmpIn_leaf (mode : NumericMode) (k l : Label) :
    cmpIn mode (.node k []) (.node l []) = Label.cmpIn mode k l := by
  rw [cmpIn_node]
  exact Ordering.then_eq

theorem cmpIn_self (mode : NumericMode) (t : Term) : cmpIn mode t t = .eq := ReflCmp.compare_self

theorem cmpListIn_cons (mode : NumericMode) (t u : Term) (ts us : List Term) :
    cmpListIn mode (t :: ts) (u :: us) = (cmpIn mode t u).then (cmpListIn mode ts us) := rfl

end Term

theorem SchemaIdentity.semanticCmp_eq {i j : SchemaIdentity} (hi : ∀ s, i ≠ .internal s)
    (hj : ∀ s, j ≠ .internal s) : i.semanticCmp j = .ok (Ord.compare i.key j.key) := by
  cases i with
  | tuple m =>
    cases j with
    | tuple n =>
      simp only [semanticCmp, key, Label.compare_pair, Label.compare_refl, Ordering.eq_then,
        Ordering.then_eq]
    | named b => rfl
    | internal s => exact absurd rfl (hj s)
  | named a =>
    cases j with
    | tuple n => rfl
    | named b => rfl
    | internal s => exact absurd rfl (hj s)
  | internal s => exact absurd rfl (hi s)

/-! ## Sequences of parts -/

theorem ite_ne_eq_then (o p : Ordering) :
    (if o ≠ .eq then (.ok o : Except Panic Ordering) else .ok p) = .ok (o.then p) := by
  cases o <;> rfl

theorem then_of_ne_eq {o : Ordering} (h : o ≠ .eq) (p : Ordering) : o.then p = o := by
  cases o with
  | eq => exact absurd rfl h
  | lt => rfl
  | gt => rfl

theorem Term.cmpIn_map (mode : NumericMode) (ks vs ls ws : List Term) :
    Term.cmpIn mode (.node (.map ks.length) (ks ++ vs)) (.node (.map ls.length) (ls ++ ws)) =
      (Ord.compare ks.length ls.length).then
        ((Term.cmpListIn .strict ks ls).then (Term.cmpListIn mode vs ws)) := by
  rw [Term.cmpIn_node, Label.cmpIn_eq_cmp (by simp) (by simp), Label.cmp_map_map,
    Term.keysFrom_map mode _ 0 ks vs (by omega), Term.keysFrom_map mode _ 0 ls ws (by omega)]
  by_cases hlen : ks.length = ls.length
  · rw [Rose.cmpList_append _ _ _ _ (by rw [List.length_map, List.length_map, hlen])]
    rfl
  · have hne : Ord.compare ks.length ls.length ≠ .eq := fun he => hlen (Nat.compare_eq_eq.mp he)
    rw [then_of_ne_eq hne, then_of_ne_eq hne]

theorem floatCmp_eq {x y : F64} (hx : x.isFinite) (hy : y.isFinite) (mode : NumericMode) :
    floatCmp x y mode = .ok (Label.cmpIn mode (.float x) (.float y)) := by
  simp only [floatCmp, hx, hy, Bool.and_self, Bool.not_true, Bool.false_eq_true, ↓reduceIte]
  cases mode with
  | strict => rw [Label.cmpIn_strict, Label.cmp_float_float]
  | widening =>
    simp only [F64.partialCmp, F64.isNan_of_isFinite hx, F64.isNan_of_isFinite hy, Bool.or_self,
      Bool.false_eq_true, ↓reduceIte, Label.widening_float_float]

theorem mapM_cons_eq_some {read : AnyValue → Option Term} {x : AnyValue} {xs : List AnyValue}
    {ts : List Term} (h : (x :: xs).mapM read = some ts) :
    ∃ t ts', read x = some t ∧ xs.mapM read = some ts' ∧ ts = t :: ts' := by
  simp only [List.mapM_cons, Option.bind_eq_bind, Option.bind_eq_some_iff] at h
  obtain ⟨t, ht, ts', hts', h⟩ := h
  exact ⟨t, ts', ht, hts', (Option.some.inj h).symm⟩

theorem length_of_mapM {read : AnyValue → Option Term} : ∀ {xs : List AnyValue} {ts : List Term},
    xs.mapM read = some ts → xs.length = ts.length
  | [], _, h => by
    obtain rfl := Option.some.inj h
    rfl
  | _ :: _, _, h => by
    obtain ⟨t, ts', -, hts', rfl⟩ := mapM_cons_eq_some h
    rw [List.length_cons, List.length_cons, length_of_mapM hts']

/-- A comparison of words agrees with the order of the terms they denote. -/
def Agrees (read : AnyValue → Option Term) (self : ValueCmp) : Prop :=
  ∀ a b s t, read a = some s → read b = some t → self a b .strict = .ok (Term.cmp s t)

/-- It agrees in both modes. -/
def AgreesIn (read : AnyValue → Option Term) (self : ValueCmp) : Prop :=
  ∀ mode a b s t, read a = some s → read b = some t → self a b mode = .ok (Term.cmpIn mode s t)

section Parts

variable {read : AnyValue → Option Term} {self : ValueCmp} (h : AgreesIn read self)
  (mode : NumericMode)
include h

theorem cmpEach_eq {α : Type} (g : α → AnyValue) : ∀ (xs ys : List α) (ts us : List Term),
    xs.length = ys.length → (xs.map g).mapM read = some ts → (ys.map g).mapM read = some us →
    cmpEach (fun x y => self (g x) (g y) mode) xs ys = .ok (Term.cmpListIn mode ts us) := by
  intro xs
  induction xs with
  | nil =>
    intro ys ts us hlen hts hus
    obtain rfl : ys = [] := List.eq_nil_of_length_eq_zero hlen.symm
    simp only [List.map_nil, List.mapM_nil] at hts hus
    cases hts
    cases hus
    rfl
  | cons x xs ih =>
    intro ys ts us hlen hts hus
    cases ys with
    | nil => simp at hlen
    | cons y ys =>
      simp only [List.length_cons, Nat.add_right_cancel_iff] at hlen
      obtain ⟨t, ts', ht, hts', rfl⟩ := mapM_cons_eq_some hts
      obtain ⟨u, us', hu, hus', rfl⟩ := mapM_cons_eq_some hus
      rw [cmpEach, h _ _ _ _ _ ht hu, Term.cmpListIn_cons, ← ite_ne_eq_then,
        ← ih ys ts' us' hlen hts' hus']
      rfl

theorem slotCmp_eq {k : FieldKind} {x y : FieldSlot} {t u : Term}
    (ht : TermComparator.slotTerm? read k x = some t)
    (hu : TermComparator.slotTerm? read k y = some u) :
    TermComparator.slotCmp self mode k x y = .ok (Term.cmpIn mode t u) := by
  cases k with
  | anyValue =>
    cases x <;> simp only [TermComparator.slotTerm?, reduceCtorEq] at ht
    cases y <;> simp only [TermComparator.slotTerm?, reduceCtorEq] at hu
    exact h _ _ _ _ _ ht hu
  | rawI64 =>
    cases x <;> simp only [TermComparator.slotTerm?, reduceCtorEq, Option.some.injEq] at ht
    cases y <;> simp only [TermComparator.slotTerm?, reduceCtorEq, Option.some.injEq] at hu
    subst ht hu
    rw [Term.cmpIn_leaf, Label.cmpIn_eq_cmp (by simp) (by simp), Label.cmp_int_int]
    rfl
  | rawF64 =>
    cases x <;> simp only [TermComparator.slotTerm?, reduceCtorEq, Option.ite_none_right_eq_some,
      Option.some.injEq] at ht
    cases y <;> simp only [TermComparator.slotTerm?, reduceCtorEq, Option.ite_none_right_eq_some,
      Option.some.injEq] at hu
    obtain ⟨hx, rfl⟩ := ht
    obtain ⟨hy, rfl⟩ := hu
    rw [Term.cmpIn_leaf]
    exact floatCmp_eq hx hy mode
  | rawBytes n =>
    cases x <;> simp only [TermComparator.slotTerm?, reduceCtorEq, Option.ite_none_right_eq_some,
      Option.some.injEq] at ht
    cases y <;> simp only [TermComparator.slotTerm?, reduceCtorEq, Option.ite_none_right_eq_some,
      Option.some.injEq] at hu
    obtain ⟨hx, rfl⟩ := ht
    obtain ⟨hy, rfl⟩ := hu
    rw [Term.cmpIn_leaf, Label.cmpIn_eq_cmp (by simp) (by simp), Label.cmp_bits_bits,
      ← compareLex_bytes _ _ (hx.trans hy.symm)]
    simp only [TermComparator.slotCmp, List.take_of_length_le hx.le, List.take_of_length_le hy.le]

theorem slotsCmp_eq : ∀ (ks : List FieldKind) (xs ys : List FieldSlot) (ts us : List Term),
    TermComparator.slotTerms? read ks xs = some ts →
    TermComparator.slotTerms? read ks ys = some us →
    TermComparator.slotsCmp self mode ks xs ys = .ok (Term.cmpListIn mode ts us) := by
  intro ks
  induction ks with
  | nil =>
    intro xs ys ts us hts hus
    cases xs <;> simp only [TermComparator.slotTerms?, reduceCtorEq, Option.some.injEq] at hts
    cases ys <;> simp only [TermComparator.slotTerms?, reduceCtorEq, Option.some.injEq] at hus
    subst hts hus
    rfl
  | cons k ks ih =>
    intro xs ys ts us hts hus
    cases xs with
    | nil => exact nomatch hts
    | cons x xs =>
      cases ys with
      | nil => exact nomatch hus
      | cons y ys =>
        simp only [TermComparator.slotTerms?, Option.bind_eq_bind,
          Option.bind_eq_some_iff] at hts hus
        obtain ⟨t, ht, ts', hts', hts⟩ := hts
        obtain ⟨u, hu, us', hus', hus⟩ := hus
        cases hts
        cases hus
        rw [TermComparator.slotsCmp, slotCmp_eq h mode ht hu, Term.cmpListIn_cons,
          ← ite_ne_eq_then, ← ih xs ys ts' us' hts' hus']
        rfl

end Parts

/-! ## Reading terms -/

namespace TermComparator

variable {c : TermComparator}

variable {n : Nat}

theorem spine?_cases {a : Addr} {xs : List AnyValue} (h : c.spine? n a = some xs) :
    a = 0 ∧ xs = [] ∨ ∃ m head tail ys, n = m + 1 ∧ a ≠ 0 ∧ c.memory a = some (.cons head tail) ∧
      c.spine? m tail = some ys ∧ xs = head :: ys := by
  cases n with
  | zero =>
    rw [spine?, Option.ite_none_right_eq_some] at h
    exact .inl ⟨h.1, (Option.some.inj h.2).symm⟩
  | succ m =>
    rw [spine?] at h
    by_cases ha : a = 0
    · rw [if_pos ha] at h
      exact .inl ⟨ha, (Option.some.inj h).symm⟩
    · rw [if_neg ha] at h
      split at h
      · rename_i head tail hmem
        obtain ⟨ys, hys, rfl⟩ := Option.map_eq_some_iff.mp h
        exact .inr ⟨m, head, tail, ys, rfl, ha, hmem, hys, rfl⟩
      · exact nomatch h

variable {self : ValueCmp}

theorem listCmp_eq {read : AnyValue → Option Term} (h : AgreesIn read self) (mode : NumericMode) :
    ∀ (n : Nat) (a b : Addr) (xs ys : List AnyValue) (ts us : List Term),
      c.spine? n a = some xs → c.spine? n b = some ys →
      xs.mapM read = some ts → ys.mapM read = some us →
      c.listCmp self mode n a b = .ok (Term.cmpListIn mode ts us) := by
  intro n
  induction n with
  | zero =>
    intro a b xs ys ts us ha hb hts hus
    rcases spine?_cases ha with ⟨rfl, rfl⟩ | ⟨_, _, _, _, hn, _⟩
    · rcases spine?_cases hb with ⟨rfl, rfl⟩ | ⟨_, _, _, _, hn, _⟩
      · obtain rfl := Option.some.inj hts
        obtain rfl := Option.some.inj hus
        rfl
      · exact nomatch hn
    · exact nomatch hn
  | succ n ih =>
    intro a b xs ys ts us ha hb hts hus
    rcases spine?_cases ha with ⟨rfl, rfl⟩ | ⟨m, ah, at', xs', hm, ha0, hmem, hspine, rfl⟩
    · obtain rfl := Option.some.inj hts
      rcases spine?_cases hb with ⟨rfl, rfl⟩ | ⟨m, bh, bt, ys', hm, hb0, hmem, hspine, rfl⟩
      · obtain rfl := Option.some.inj hus
        rfl
      · obtain ⟨u, us', -, -, rfl⟩ := mapM_cons_eq_some hus
        rw [listCmp, if_neg (by simp), decide_eq_false hb0]
        rfl
    · obtain ⟨t, ts', ht, hts', rfl⟩ := mapM_cons_eq_some hts
      rcases spine?_cases hb with ⟨rfl, rfl⟩ | ⟨m', bh, bt, ys', hm', hb0, hmem', hspine', rfl⟩
      · obtain rfl := Option.some.inj hus
        rw [listCmp, if_neg (by simp), decide_eq_false ha0]
        rfl
      · obtain ⟨u, us', hu, hus', rfl⟩ := mapM_cons_eq_some hus
        obtain rfl := Nat.succ.inj hm
        obtain rfl := Nat.succ.inj hm'
        rw [listCmp, if_pos ⟨ha0, hb0⟩]
        simp only [hmem, hmem', h _ _ _ _ _ ht hu]
        rw [Term.cmpListIn_cons, ← ite_ne_eq_then,
          ← ih at' bt xs' ys' ts' us' hspine hspine' hts' hus']
        rfl

/-- What a word that denotes a term looks like, kind by kind. -/
inductive Reads (c : TermComparator) (n : Nat) : AnyValue → Term → Prop where
  | int (m : Int64) : Reads c n (.int m) (.node (.int m) [])
  | float {x : F64} (hx : x.isFinite) : Reads c n (.float x) (.node (.float x) [])
  | atom {id : Nat} {name : String} (hname : c.node.atoms[id]? = some name) :
    Reads c n (.atom id) (.node (.atom name) [])
  | list {a : AnyValue} {xs : List AnyValue} {ts : List Term} (hk : a.kind = .list)
    (hxs : c.spine? n a.addr = some xs) (hts : xs.mapM (c.term? n) = some ts) :
    Reads c n a (.node .list ts)
  | map {a : Addr} {entries : List (AnyValue × AnyValue)} {ks vs : List Term}
    (hmem : c.memory a = some (.map false entries))
    (hks : (entries.map Prod.fst).mapM (c.term? n) = some ks)
    (hvs : (entries.map Prod.snd).mapM (c.term? n) = some vs) :
    Reads c n (.heapRef .map a) (.node (.map entries.length) (ks ++ vs))
  | struct {a : Addr} {id : Nat} {slots : List FieldSlot} {schema : Schema} {ts : List Term}
    (hmem : c.memory a = some (.struct id slots)) (hschema : c.schemas.get? id = some schema)
    (hid : ∀ s, schema.identity ≠ .internal s)
    (hts : slotTerms? (c.term? n) schema.fields slots = some ts) :
    Reads c n (.heapRef .struct a) (.node (.struct schema.identity) ts)
  | closure {a : Addr} {id : Nat} {captures : List AnyValue} {d : FunctionDenotation}
    {ts : List Term} (hmem : c.memory a = some (.closure id captures))
    (hd : c.node.closureDenotations id = some d) (hts : captures.mapM (c.term? n) = some ts) :
    Reads c n (.heapRef .closure a) (.node (.closure d captures.length) ts)
  | resource {a : Addr} {id : Nat} (hmem : c.memory a = some (.resource id)) :
    Reads c n (.heapRef .resource a) (.node (.resource id) [])
  | binary {kind : ValueKind} {a : Addr} {p : BitPayload} (hk : kind.isBinaryRepr)
    (hp : c.payload? kind a = some p) : Reads c n (.heapRef kind a) (.node (.bits p.bits) [])

theorem reads_of_term? {a : AnyValue} {t : Term} (h : c.term? (n + 1) a = some t) :
    Reads c n a t := by
  cases a with
  | null => exact nomatch h
  | emptyList =>
    obtain rfl := Option.some.inj h
    have hnil : c.spine? n 0 = some [] := by cases n <;> rfl
    exact .list rfl hnil rfl
  | int m =>
    obtain rfl := Option.some.inj h
    exact .int m
  | float x =>
    simp only [term?, Option.ite_none_right_eq_some, Option.some.injEq] at h
    obtain ⟨hx, rfl⟩ := h
    exact .float hx
  | atom id =>
    obtain ⟨name, hname, rfl⟩ := Option.map_eq_some_iff.mp h
    exact .atom hname
  | heapRef kind a =>
    cases kind with
    | list =>
      simp only [term?, Option.bind_eq_bind, Option.bind_eq_some_iff] at h
      obtain ⟨xs, hxs, ts, hts, h⟩ := h
      obtain rfl := Option.some.inj h
      exact .list rfl hxs hts
    | map =>
      simp only [term?] at h
      split at h
      · rename_i entries hmem
        simp only [Option.bind_eq_bind, Option.bind_eq_some_iff] at h
        obtain ⟨ks, hks, vs, hvs, h⟩ := h
        obtain rfl := Option.some.inj h
        exact .map hmem hks hvs
      · exact nomatch h
    | struct =>
      simp only [term?] at h
      split at h
      · rename_i id slots hmem
        simp only [Option.bind_eq_bind, Option.bind_eq_some_iff] at h
        obtain ⟨schema, hschema, h⟩ := h
        split at h
        · exact nomatch h
        · rename_i hid
          simp only [Option.bind_eq_some_iff] at h
          obtain ⟨ts, hts, h⟩ := h
          obtain rfl := Option.some.inj h
          exact .struct hmem hschema hid hts
      · exact nomatch h
    | closure =>
      simp only [term?] at h
      split at h
      · rename_i id captures hmem
        simp only [Option.bind_eq_bind, Option.bind_eq_some_iff] at h
        obtain ⟨d, hd, ts, hts, h⟩ := h
        obtain rfl := Option.some.inj h
        exact .closure hmem hd hts
      · exact nomatch h
    | resource =>
      simp only [term?] at h
      split at h
      · rename_i id hmem
        obtain rfl := Option.some.inj h
        exact .resource hmem
      · exact nomatch h
    | bitstring =>
      obtain ⟨p, hp, rfl⟩ := Option.map_eq_some_iff.mp h
      exact .binary rfl hp
    | procbin =>
      obtain ⟨p, hp, rfl⟩ := Option.map_eq_some_iff.mp h
      exact .binary rfl hp
    | null => exact nomatch h
    | int => exact nomatch h
    | float => exact nomatch h
    | atom => exact nomatch h

theorem Reads.checked {a : AnyValue} {k : Label} {ts : List Term}
    (h : Reads c n a (.node k ts)) : c.checkValue a = .ok () ∧ rank a.kind = .ok k.rank := by
  cases h with
  | int m => exact ⟨rfl, rfl⟩
  | float hx => exact ⟨if_pos hx, rfl⟩
  | atom hname => exact ⟨rfl, rfl⟩
  | list hk hxs hts =>
    cases a <;> simp only [AnyValue.kind, reduceCtorEq] at hk
    · exact ⟨rfl, rfl⟩
    · subst hk
      exact ⟨rfl, rfl⟩
  | map hmem hks hvs =>
    refine ⟨?_, rfl⟩
    simp only [checkValue, hmem]
  | struct hmem hschema hid hts => exact ⟨rfl, rfl⟩
  | closure hmem hd hts => exact ⟨rfl, rfl⟩
  | resource hmem => exact ⟨rfl, rfl⟩
  | @binary kind a p hk hp => cases kind <;> first | exact ⟨rfl, rfl⟩ | exact nomatch hk

variable {a b : AnyValue}

theorem sameRankCmp_list {mode : NumericMode}
    (ha : a.kind = .list) (hb : b.kind = .list) : c.sameRankCmp n self a b mode
      = if a = b then .ok .eq else c.listCmp self mode n a.addr b.addr := by
  cases a <;> simp only [AnyValue.kind, reduceCtorEq] at ha <;>
    cases b <;> simp only [AnyValue.kind, reduceCtorEq] at hb
  · rfl
  · subst hb
    rfl
  · subst ha
    rfl
  · subst ha hb
    rfl

theorem sameRankCmp_binary {mode : NumericMode} {k l : ValueKind}
    {a b : Addr} (hk : k.isBinaryRepr) : c.sameRankCmp n self (.heapRef k a) (.heapRef l b) mode
      = if AnyValue.heapRef k a = .heapRef l b then .ok .eq
        else c.binaryCmp (.heapRef k a) (.heapRef l b) := by
  cases k <;> first | rfl | exact nomatch hk

theorem shortcut {mode : NumericMode} {s t : Term} (hsame : a = b → s = t)
    {r : Except Panic Ordering} (hr : r = .ok (Term.cmpIn mode s t)) :
    (if a = b then .ok .eq else r) = .ok (Term.cmpIn mode s t) := by
  split
  · rename_i hab
    rw [hsame hab, Term.cmpIn_self]
  · exact hr

theorem mapCmp_eq (h : AgreesIn (c.term? n) self) (mode : NumericMode) {a b : Addr}
    {as bs : List (AnyValue × AnyValue)} {ks vs ls ws : List Term}
    (ha : c.memory a = some (.map false as)) (hb : c.memory b = some (.map false bs))
    (hks : (as.map Prod.fst).mapM (c.term? n) = some ks)
    (hvs : (as.map Prod.snd).mapM (c.term? n) = some vs)
    (hls : (bs.map Prod.fst).mapM (c.term? n) = some ls)
    (hws : (bs.map Prod.snd).mapM (c.term? n) = some ws) :
    c.mapCmp self a b mode = .ok (Term.cmpIn mode (.node (.map as.length) (ks ++ vs))
      (.node (.map bs.length) (ls ++ ws))) := by
  have hkslen : as.length = ks.length := by rw [← length_of_mapM hks, List.length_map]
  have hlslen : bs.length = ls.length := by rw [← length_of_mapM hls, List.length_map]
  simp only [mapCmp, ha, hb]
  show (if Ord.compare as.length bs.length ≠ .eq then _ else _) = _
  rw [hkslen, hlslen, Term.cmpIn_map]
  by_cases hlen : as.length = bs.length
  · rw [Nat.compare_eq_eq.mpr (hkslen.symm.trans (hlen.trans hlslen)),
      cmpEach_eq h .strict Prod.fst as bs ks ls hlen hks hls,
      cmpEach_eq h mode Prod.snd as bs vs ws hlen hvs hws]
    exact ite_ne_eq_then ..
  · have hne : Ord.compare ks.length ls.length ≠ .eq := fun he => by
      rw [Nat.compare_eq_eq] at he
      omega
    rw [if_pos hne, then_of_ne_eq hne]
    rfl

theorem structCmp_eq (h : AgreesIn (c.term? n) self) (mode : NumericMode) {a b : Addr}
    {i j : Nat} {xs ys : List FieldSlot} {p q : Schema} {ts us : List Term}
    (ha : c.memory a = some (.struct i xs)) (hb : c.memory b = some (.struct j ys))
    (hp : c.schemas.get? i = some p) (hq : c.schemas.get? j = some q)
    (hpi : ∀ s, p.identity ≠ .internal s) (hqi : ∀ s, q.identity ≠ .internal s)
    (hts : slotTerms? (c.term? n) p.fields xs = some ts)
    (hus : slotTerms? (c.term? n) q.fields ys = some us)
    (hsame : a = b → Rose.node (.struct p.identity) ts = .node (.struct q.identity) us) :
    c.structCmp self a b mode
      = .ok (Term.cmpIn mode (.node (.struct p.identity) ts) (.node (.struct q.identity) us)) := by
  have hcmp : Term.cmpIn mode (.node (.struct p.identity) ts) (.node (.struct q.identity) us) =
      (Ord.compare p.identity.key q.identity.key).then (Term.cmpListIn mode ts us) := by
    rw [Term.cmpIn_node, Label.cmpIn_eq_cmp (by simp) (by simp), Label.cmp_struct_struct,
      Term.keysFrom_eq_map (fun _ => rfl), Term.keysFrom_eq_map (fun _ => rfl)]
    rfl
  simp only [structCmp, ha, hb, hp, hq, SchemaIdentity.semanticCmp_eq hpi hqi]
  show (if Ord.compare p.identity.key q.identity.key ≠ .eq ∨ a = b then _ else _) = _
  by_cases hid : p.identity = q.identity
  · -- one identity is one schema, so both objects have its fields
    obtain rfl := c.schemas.eq_of_identity_eq hp hq hid
    rw [Label.compare_refl]
    by_cases hab : a = b
    · rw [if_pos (.inr hab), hsame hab, Term.cmpIn_self]
      rfl
    · rw [if_neg (by simp [hab]), slotsCmp_eq h mode _ _ _ _ _ hts hus, hcmp, Label.compare_refl]
      rfl
  · have hne : Ord.compare p.identity.key q.identity.key ≠ .eq := fun he =>
      hid (SchemaIdentity.key_injective (LawfulEqOrd.eq_of_compare he))
    rw [if_pos (.inl hne), hcmp, then_of_ne_eq hne]
    rfl

theorem closureCmp_eq (h : AgreesIn (c.term? n) self) (mode : NumericMode) {a b : Addr}
    {i j : Nat} {xs ys : List AnyValue} {d e : FunctionDenotation} {ts us : List Term}
    (ha : c.memory a = some (.closure i xs)) (hb : c.memory b = some (.closure j ys))
    (hd : c.node.closureDenotations i = some d) (he : c.node.closureDenotations j = some e)
    (hts : xs.mapM (c.term? n) = some ts) (hus : ys.mapM (c.term? n) = some us)
    (hsame : a = b → Rose.node (.closure d xs.length) ts = .node (.closure e ys.length) us) :
    c.closureCmp self a b = .ok (Term.cmpIn mode (.node (.closure d xs.length) ts)
      (.node (.closure e ys.length) us)) := by
  have hi : i ≠ 2 ^ 32 - 1 := by
    rintro rfl
    rw [c.node.internal_none] at hd
    exact nomatch hd
  have hj : j ≠ 2 ^ 32 - 1 := by
    rintro rfl
    rw [c.node.internal_none] at he
    exact nomatch he
  have hden : c.node.compareClosureDenotations i j = .ok (d.semanticCmp e) := by
    rw [Node.compareClosureDenotations, if_neg (not_or.mpr ⟨hi, hj⟩), hd, he]
  simp only [closureCmp, ha, hb, hden]
  show (if d.semanticCmp e ≠ .eq ∨ a = b then _ else _) = _
  have hcmp : Term.cmpIn mode (.node (.closure d xs.length) ts) (.node (.closure e ys.length) us)
      = (d.semanticCmp e).then ((Ord.compare xs.length ys.length).then
          (Term.cmpListIn .strict ts us)) := by
    rw [Term.cmpIn_node, Label.cmpIn_eq_cmp (by simp) (by simp), Label.cmp_closure_closure,
      Term.keysFrom_eq_map (fun _ => rfl), Term.keysFrom_eq_map (fun _ => rfl),
      Ordering.then_assoc]
    rfl
  by_cases hde : d.semanticCmp e = .eq
  · by_cases hab : a = b
    · rw [if_pos (.inr hab), hsame hab, Term.cmpIn_self, hde]
      rfl
    · rw [if_neg (by simp [hde, hab])]
      show (if Ord.compare xs.length ys.length ≠ .eq then _ else _) = _
      rw [hcmp, hde, Ordering.eq_then]
      by_cases hlen : xs.length = ys.length
      · rw [Nat.compare_eq_eq.mpr hlen]
        exact cmpEach_eq h .strict id xs ys ts us hlen (by rwa [List.map_id])
          (by rwa [List.map_id])
      · have hne : Ord.compare xs.length ys.length ≠ .eq := fun he =>
          hlen (Nat.compare_eq_eq.mp he)
        rw [if_pos hne, then_of_ne_eq hne]
        rfl
  · rw [if_pos (.inl hde), hcmp, then_of_ne_eq hde]
    rfl

/-- Two words of one rank compare as their terms, given that their parts do. -/
theorem sameRankCmp_eq (h : AgreesIn (c.term? n) self)
    (mode : NumericMode) {k l : Label} {ts us : List Term}
    (ha : Reads c n a (.node k ts)) (hb : Reads c n b (.node l us)) (hrank : k.rank = l.rank)
    (hsame : a = b → Rose.node k ts = .node l us) :
    c.sameRankCmp n self a b mode = .ok (Term.cmpIn mode (.node k ts) (.node l us)) := by
  cases ha with
  | int m =>
    cases hb <;> simp [Label.rank] at hrank
    case int m' =>
      rw [Term.cmpIn_leaf, Label.cmpIn_eq_cmp (by simp) (by simp), Label.cmp_int_int]
      rfl
    case float x hx =>
      simp only [sameRankCmp, compareIntFloat_eq m hx, Term.cmpIn_leaf]
      cases mode with
      | strict =>
        rw [Label.cmpIn_strict, Label.cmp_int_float]
        rfl
      | widening =>
        rw [Label.widening_int_float]
        rfl
  | @float x hx =>
    cases hb <;> simp [Label.rank] at hrank
    case int m =>
      simp only [sameRankCmp, compareIntFloat_eq m hx, Term.cmpIn_leaf]
      cases mode with
      | strict =>
        rw [Label.cmpIn_strict, @OrientedCmp.eq_swap _ Label.cmp, Label.cmp_int_float,
          Ordering.swap_then]
        rfl
      | widening =>
        have hswap : Label.cmpIn .widening (.float x) (.int m) =
            (Label.cmpIn .widening (.int m) (.float x)).swap := OrientedOrd.eq_swap
        rw [hswap, Label.widening_int_float]
        rfl
    case float y hy =>
      rw [Term.cmpIn_leaf]
      exact floatCmp_eq hx hy mode
  | atom hname =>
    cases hb <;> simp [Label.rank] at hrank
    case atom id name hname' =>
      rw [Term.cmpIn_leaf, Label.cmpIn_eq_cmp (by simp) (by simp), Label.cmp_atom_atom]
      simp only [sameRankCmp, Node.cmpAtomNames, hname, hname']
  | list hk hxs hts =>
    cases hb <;> simp [Label.rank] at hrank
    case list xs' hk' hxs' hts' =>
      have hcmp :
          Term.cmpIn mode (.node .list ts) (.node .list us) = Term.cmpListIn mode ts us := by
        rw [Term.cmpIn_node, Label.cmpIn_eq_cmp (by simp) (by simp),
          Term.keysFrom_eq_map (fun _ => rfl), Term.keysFrom_eq_map (fun _ => rfl)]
        rfl
      rw [sameRankCmp_list hk hk']
      refine shortcut hsame ?_
      rw [hcmp]
      exact listCmp_eq h mode n _ _ _ _ _ _ hxs hxs' hts hts'
  | map hmem hks hvs =>
    cases hb <;> simp [Label.rank] at hrank
    case map hmem' hks' hvs' =>
      exact shortcut hsame (mapCmp_eq h mode hmem hmem' hks hvs hks' hvs')
  | @struct a i xs p ts hmem hschema hid hts =>
    cases hb <;> simp [Label.rank] at hrank
    case struct b j ys q hmem' hschema' hid' hts' =>
      exact structCmp_eq h mode hmem hmem' hschema hschema' hid hid' hts hts'
        (fun hab => hsame (congrArg (AnyValue.heapRef .struct) hab))
  | @closure a i xs d ts hmem hd hts =>
    cases hb <;> simp [Label.rank] at hrank
    case closure b j ys e hmem' hd' hts' =>
      exact closureCmp_eq h mode hmem hmem' hd hd' hts hts'
        (fun hab => hsame (congrArg (AnyValue.heapRef .closure) hab))
  | @resource a id hmem =>
    cases hb <;> simp [Label.rank] at hrank
    case resource b id' hmem' =>
      refine shortcut hsame ?_
      rw [Term.cmpIn_leaf, Label.cmpIn_eq_cmp (by simp) (by simp), Label.cmp_resource_resource]
      show c.resourceCmp a b = _
      simp only [resourceCmp, hmem, hmem']
  | binary hk hp =>
    cases hb <;> simp [Label.rank] at hrank
    case binary hk' hp' =>
      rw [sameRankCmp_binary hk]
      refine shortcut hsame ?_
      rw [Term.cmpIn_leaf, Label.cmpIn_eq_cmp (by simp) (by simp), Label.cmp_bits_bits,
        ← bitstringCmp_eq]
      simp only [binaryCmp, AnyValue.addr, AnyValue.kind, hp, hp']

theorem compare_eq_cmpIn (n : Nat) : AgreesIn (c.term? n) (c.compare n) := by
  induction n with
  | zero =>
    intro mode a b s t ha _
    exact nomatch ha
  | succ n ih =>
    intro mode a b s t ha hb
    obtain ⟨k, ts⟩ := s
    obtain ⟨l, us⟩ := t
    have hra := reads_of_term? ha
    have hrb := reads_of_term? hb
    obtain ⟨hca, hka⟩ := hra.checked
    obtain ⟨hcb, hkb⟩ := hrb.checked
    simp only [compare, hca, hcb, hka, hkb]
    show (if Ord.compare k.rank l.rank ≠ .eq then _ else _) = _
    by_cases hrank : k.rank = l.rank
    · rw [if_neg (by rw [Nat.compare_eq_eq.mpr hrank]; exact fun h => h rfl)]
      refine sameRankCmp_eq ih mode hra hrb hrank ?_
      rintro rfl
      exact Option.some.inj (ha.symm.trans hb)
    · have hne : Ord.compare k.rank l.rank ≠ .eq := fun he => hrank (Nat.compare_eq_eq.mp he)
      rw [if_pos hne, Term.cmpIn_node, Label.cmpIn_of_rank_ne hrank, then_of_ne_eq hne]
      rfl

theorem compare_eq_cmp (n : Nat) : Agrees (c.term? n) (c.compare n) := by
  intro a b s t ha hb
  rw [compare_eq_cmpIn n .strict a b s t ha hb, Term.cmpIn_strict]

/-! ## Bounds -/

theorem term?_of_reads {a : AnyValue} {t : Term} (h : Reads c n a t) :
    c.term? (n + 1) a = some t := by
  cases h with
  | int m => rfl
  | float hx => exact if_pos hx
  | atom hname => simp only [term?, hname, Option.map_some]
  | @list a xs ts hk hxs hts =>
    cases a <;> simp only [AnyValue.kind, reduceCtorEq] at hk
    · have hnil : c.spine? n 0 = some [] := by cases n <;> rfl
      obtain rfl := Option.some.inj (hnil.symm.trans hxs)
      obtain rfl := Option.some.inj hts
      rfl
    · subst hk
      have hxs' : c.spine? n _ = some xs := hxs
      simp only [term?, Option.bind_eq_bind, Option.bind_eq_some_iff]
      exact ⟨xs, hxs', ts, hts, rfl⟩
  | map hmem hks hvs =>
    simp only [term?, hmem, Option.bind_eq_bind, Option.bind_eq_some_iff]
    exact ⟨_, hks, _, hvs, rfl⟩
  | @struct a id slots schema ts hmem hschema hid hts =>
    simp only [term?, hmem, hschema, Option.bind_eq_bind, Option.bind_some, hts]
    rfl
  | closure hmem hd hts =>
    simp only [term?, hmem, hd, Option.bind_eq_bind, Option.bind_some, hts]
    rfl
  | resource hmem => simp only [term?, hmem]
  | @binary kind a p hk hp =>
    cases kind <;> simp only [ValueKind.isBinaryRepr, Bool.false_eq_true] at hk
    · simp only [term?, hp, Option.map_some]
    · simp only [term?, hp, Option.map_some]

theorem spine?_mono : ∀ {a : Addr} {xs : List AnyValue},
    c.spine? n a = some xs → c.spine? (n + 1) a = some xs := by
  induction n with
  | zero =>
    intro a xs h
    rcases spine?_cases h with ⟨rfl, rfl⟩ | ⟨_, _, _, _, hn, _⟩
    · rfl
    · exact nomatch hn
  | succ n ih =>
    intro a xs h
    rcases spine?_cases h with ⟨rfl, rfl⟩ | ⟨m, head, tail, ys, hm, ha, hmem, hys, rfl⟩
    · rfl
    · obtain rfl := Nat.succ.inj hm
      rw [spine?, if_neg ha, hmem]
      simp only [ih hys, Option.map_some]

theorem mapM_mono {f g : AnyValue → Option Term} (h : ∀ a t, f a = some t → g a = some t) :
    ∀ {xs : List AnyValue} {ts : List Term}, xs.mapM f = some ts → xs.mapM g = some ts
  | [], _, hts => hts
  | x :: xs, _, hts => by
    obtain ⟨t, ts', ht, hts', rfl⟩ := mapM_cons_eq_some hts
    simp only [List.mapM_cons, h x t ht, mapM_mono h hts']
    rfl

theorem slotTerms?_mono {f g : AnyValue → Option Term} (h : ∀ a t, f a = some t → g a = some t) :
    ∀ {ks : List FieldKind} {xs : List FieldSlot} {ts : List Term},
      slotTerms? f ks xs = some ts → slotTerms? g ks xs = some ts
  | [], [], _, hts => hts
  | [], _ :: _, _, hts => nomatch hts
  | _ :: _, [], _, hts => nomatch hts
  | k :: ks, x :: xs, _, hts => by
    simp only [slotTerms?, Option.bind_eq_bind, Option.bind_eq_some_iff] at hts ⊢
    obtain ⟨t, ht, ts', hts', heq⟩ := hts
    refine ⟨t, ?_, ts', slotTerms?_mono h hts', heq⟩
    cases k <;> cases x <;> first | exact h _ _ ht | exact ht

theorem term?_succ : ∀ {a : AnyValue} {t : Term},
    c.term? n a = some t → c.term? (n + 1) a = some t := by
  induction n with
  | zero =>
    intro a t h
    exact nomatch h
  | succ n ih =>
    intro a t h
    apply term?_of_reads
    cases reads_of_term? h with
    | int m => exact .int m
    | float hx => exact .float hx
    | atom hname => exact .atom hname
    | list hk hxs hts => exact .list hk (spine?_mono hxs) (mapM_mono (@ih) hts)
    | map hmem hks hvs => exact .map hmem (mapM_mono (@ih) hks) (mapM_mono (@ih) hvs)
    | struct hmem hschema hid hts => exact .struct hmem hschema hid (slotTerms?_mono (@ih) hts)
    | closure hmem hd hts => exact .closure hmem hd (mapM_mono (@ih) hts)
    | resource hmem => exact .resource hmem
    | binary hk hp => exact .binary hk hp

theorem term?_mono {n m : Nat} (hnm : n ≤ m) {a : AnyValue} {t : Term}
    (h : c.term? n a = some t) : c.term? m a = some t := by
  induction hnm with
  | refl => exact h
  | step _ ih => exact term?_succ ih

theorem answers_cmpIn {s t : Term} (ha : c.Published a s)
    (hb : c.Published b t) (mode : NumericMode) : c.Answers a b mode (Term.cmpIn mode s t) := by
  obtain ⟨n, ha⟩ := ha
  obtain ⟨m, hb⟩ := hb
  refine ⟨max n m, fun k hk => ?_⟩
  exact compare_eq_cmpIn k mode a b s t (term?_mono (by omega) ha) (term?_mono (by omega) hb)

theorem answers_cmp {s t : Term} (ha : c.Published a s) (hb : c.Published b t) :
    c.Answers a b .strict (Term.cmp s t) := by
  rw [← Term.cmpIn_strict]
  exact answers_cmpIn ha hb .strict

theorem Answers.unique {mode : NumericMode} {o p : Ordering}
    (ho : c.Answers a b mode o) (hp : c.Answers a b mode p) : o = p := by
  obtain ⟨n, ho⟩ := ho
  obtain ⟨m, hp⟩ := hp
  have := (ho (max n m) (by omega)).symm.trans (hp (max n m) (by omega))
  exact Except.ok.inj this

/-- Strict comparison is a total order on published words: it always answers; it is reflexive,
answers the opposite on swapped arguments, is transitive, and answers `eq` exactly when the two
words denote the same term. -/
theorem strict_compare_total_order (c : TermComparator) {a b d : AnyValue} {s t u : Term}
    (ha : c.Published a s) (hb : c.Published b t) (hd : c.Published d u) :
    c.Answers a a .strict .eq ∧
    (∃ o, c.Answers a b .strict o ∧ c.Answers b a .strict o.swap ∧ (o = .eq ↔ s = t)) ∧
    (∀ o₁ o₂, c.Answers a b .strict o₁ → c.Answers b d .strict o₂ → o₁.isLE → o₂.isLE →
      ∃ o₃, c.Answers a d .strict o₃ ∧ o₃.isLE) := by
  refine ⟨?_, ⟨Term.cmp s t, answers_cmp ha hb, ?_, ?_⟩, ?_⟩
  · have h := answers_cmp ha ha
    rwa [Term.cmp, Rose.cmp_self] at h
  · rw [Term.cmp, ← Rose.cmp_swap]
    exact answers_cmp hb ha
  · exact LawfulEqCmp.compare_eq_iff_eq
  · intro o₁ o₂ h₁ h₂ hle₁ hle₂
    obtain rfl := h₁.unique (answers_cmp ha hb)
    obtain rfl := h₂.unique (answers_cmp hb hd)
    exact ⟨Term.cmp s u, answers_cmp ha hd, TransCmp.isLE_trans hle₁ hle₂⟩

/-- A heap with the binary `<<5>>` inline and as a view of a shared buffer, a list around each of
them, and the tuple `{1.0}`. -/
def sample : TermComparator where
  node := ⟨[], fun _ => none, rfl⟩
  schemas := ⟨[⟨.tuple 1, [.anyValue]⟩], by decide⟩
  memory
    | 16 => some (.bitstring ⟨8, [5], rfl⟩)
    | 32 => some (.procbin ⟨⟨16, [9, 5], rfl⟩, 1, by decide⟩)
    | 48 => some (.cons (.heapRef .bitstring 16) 0)
    | 64 => some (.cons (.heapRef .procbin 32) 0)
    | 80 => some (.struct 0 [.value (.float ⟨false, 1023, 0, by decide, by decide⟩)])
    | _ => none

/-- The two lists are one term, whatever holds their binary. -/
theorem strict_compare_total_order_sample :
    sample.Answers (.heapRef .list 48) (.heapRef .list 48) .strict .eq ∧
    (∃ o, sample.Answers (.heapRef .list 48) (.heapRef .list 64) .strict o ∧
      sample.Answers (.heapRef .list 64) (.heapRef .list 48) .strict o.swap ∧
      (o = .eq ↔ Rose.node Label.list [.node (.bits (byteBits 5)) []]
        = .node .list [.node (.bits (byteBits 5)) []])) ∧
    (∀ o₁ o₂, sample.Answers (.heapRef .list 48) (.heapRef .list 64) .strict o₁ →
      sample.Answers (.heapRef .list 64) (.heapRef .struct 80) .strict o₂ → o₁.isLE → o₂.isLE →
      ∃ o₃, sample.Answers (.heapRef .list 48) (.heapRef .struct 80) .strict o₃ ∧ o₃.isLE) :=
  strict_compare_total_order sample ⟨3, rfl⟩ ⟨3, rfl⟩ ⟨3, rfl⟩

end TermComparator

end Fz.Terms
