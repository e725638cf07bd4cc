import Mathlib.Data.List.Sort
import Mathlib.Data.List.Forall2
import Mathlib.Data.List.Induction
import Mathlib.Order.Compare

/-!
# Ordered entries

Finite maps kept as lists of entries with strictly increasing keys.  The first part has the list
operations of a program that sorts, deduplicates and searches entries with a comparison that may
fail.  The second part says the same on keys with an order of their own, and connects the lists to
finite maps.  The third part relates the two: where every key stands for one of the ordered keys and
the comparison agrees with their order, the program does on its entries what the order does.
-/

namespace Fz.Base.Entries

open Std

/-! ## With a comparison that may fail -/

section Program

variable {ε κ ν : Type} (cmp : κ → κ → Except ε Ordering)

def insertBy (e : κ × ν) : List (κ × ν) → Except ε (List (κ × ν))
  | [] => .ok [e]
  | f :: fs => do
    let order ← cmp e.1 f.1
    if order = .gt then
      let rest ← insertBy e fs
      return f :: rest
    else return e :: f :: fs

/-- A stable sort by key. -/
def sortBy : List (κ × ν) → Except ε (List (κ × ν))
  | [] => .ok []
  | e :: es => do
    let sorted ← sortBy es
    insertBy cmp e sorted

/-- Within a run of equal keys the first key stays, with the last value. -/
def dedupFrom (e : κ × ν) : List (κ × ν) → Except ε (List (κ × ν))
  | [] => .ok [e]
  | f :: fs => do
    let order ← cmp f.1 e.1
    if order = .eq then dedupFrom (e.1, f.2) fs
    else
      let rest ← dedupFrom f fs
      return e :: rest

def dedupBy : List (κ × ν) → Except ε (List (κ × ν))
  | [] => .ok []
  | e :: es => dedupFrom cmp e es

/-- A binary search between two bounds, with a bound on its rounds: the place of the key, or where
it would stand.  `missing` is the failure of an access outside the entries. -/
def searchLoop (missing : ε) (entries : List (κ × ν)) (key : κ) :
    Nat → Nat → Nat → Except ε (Except Nat Nat)
  | 0, low, _ => .ok (.error low)
  | n + 1, low, high =>
    if low < high then
      let middle := low + (high - low) / 2
      match entries[middle]? with
      | none => .error missing
      | some entry => do
        let order ← cmp entry.1 key
        match order with
        | .lt => searchLoop missing entries key n (middle + 1) high
        | .gt => searchLoop missing entries key n low middle
        | .eq => return .ok middle
    else .ok (.error low)

def search (missing : ε) (entries : List (κ × ν)) (key : κ) : Except ε (Except Nat Nat) :=
  searchLoop cmp missing entries key entries.length 0 entries.length

end Program

/-! ## Over ordered keys -/

section Order

variable {τ β : Type} (ord : τ → τ → Ordering)

/-- Strictly increasing keys. -/
def Increasing (ds : List (τ × β)) : Prop := ds.Pairwise fun d e => ord d.1 e.1 = .lt

/-- Keys in order, possibly repeated. -/
abbrev Le (d e : τ × β) : Prop := ord d.1 e.1 ≠ .gt

/-- The finite map that the entries are the graph of. -/
def Represents (ds : List (τ × β)) (m : τ → Option β) : Prop := ∀ k v, m k = some v ↔ (k, v) ∈ ds

section Dedup

variable [DecidableEq τ]

/-- The last entry of each run of equal keys. -/
def dedupLast (d : τ × β) : List (τ × β) → List (τ × β)
  | [] => [d]
  | e :: es => if e.1 = d.1 then dedupLast e es else d :: dedupLast e es

def normalize (ds : List (τ × β)) : List (τ × β) :=
  match ds.insertionSort (Le ord) with
  | [] => []
  | d :: ds => dedupLast d ds

/-- Later bindings of a key win. -/
def ofEntries (ds : List (τ × β)) : τ → Option β :=
  ds.foldl (fun m d => Function.update m d.1 (some d.2)) fun _ => none

theorem ofEntries_concat (ds : List (τ × β)) (d : τ × β) :
    ofEntries (ds ++ [d]) = Function.update (ofEntries ds) d.1 (some d.2) :=
  List.foldl_append ..

theorem ofEntries_eq (ds : List (τ × β)) (k : τ) :
    ofEntries ds k = ((ds.filter fun d => d.1 = k).getLast?).map Prod.snd := by
  induction ds using List.reverseRecOn with
  | nil => rfl
  | append_singleton ds d ih =>
    rw [ofEntries_concat, List.filter_append]
    rcases eq_or_ne k d.1 with rfl | hne
    · rw [Function.update_self]
      simp
    · rw [Function.update_of_ne hne, ih]
      simp [Ne.symm hne]

end Dedup

theorem self_eq [ReflCmp ord] (s : τ) : ord s s = .eq := ReflCmp.compare_self

theorem swap_eq [OrientedCmp ord] (s t : τ) : ord s t = (ord t s).swap := OrientedCmp.eq_swap

variable {ord}

theorem ne_of_lt [ReflCmp ord] {s t : τ} (h : ord s t = .lt) : s ≠ t := by
  rintro rfl
  rw [self_eq ord] at h
  exact nomatch h

theorem lt_of_le_of_ne [LawfulEqCmp ord] {s t : τ} (h : ord s t ≠ .gt) (hne : s ≠ t) :
    ord s t = .lt := by
  cases ho : ord s t with
  | lt => rfl
  | eq => exact absurd (LawfulEqCmp.compare_eq_iff_eq.mp ho) hne
  | gt => exact absurd ho h

theorem gt_of_lt [OrientedCmp ord] {s t : τ} (h : ord s t = .lt) : ord t s = .gt := by
  rw [swap_eq ord, h]
  rfl

theorem lt_of_gt [OrientedCmp ord] {s t : τ} (h : ord s t = .gt) : ord t s = .lt := by
  rw [swap_eq ord, h]
  rfl

instance [OrientedCmp ord] : Std.Total (Le (β := β) ord) where
  total d e := by
    by_cases h : ord d.1 e.1 = .gt
    · refine .inr ?_
      rw [Le, lt_of_gt h]
      decide
    · exact .inl h

instance [TransCmp ord] : IsTrans (τ × β) (Le ord) where
  trans d e f hde hef := by
    have hle := TransCmp.isLE_trans (Ordering.isLE_iff_ne_gt.mpr hde)
      (Ordering.isLE_iff_ne_gt.mpr hef)
    exact Ordering.isLE_iff_ne_gt.mp hle

theorem Increasing.eq_of_mem [ReflCmp ord] {ds : List (τ × β)} (h : Increasing ord ds)
    {d e : τ × β} (hd : d ∈ ds) (he : e ∈ ds) (heq : d.1 = e.1) : d = e := by
  induction ds with
  | nil => exact nomatch hd
  | cons f ds ih =>
    obtain ⟨hfirst, hrest⟩ := List.pairwise_cons.mp h
    rcases List.mem_cons.mp hd with rfl | hd' <;> rcases List.mem_cons.mp he with rfl | he'
    · rfl
    · exact absurd heq (ne_of_lt (hfirst e he'))
    · exact absurd heq.symm (ne_of_lt (hfirst d hd'))
    · exact ih hrest hd' he'

theorem Increasing.nodup [ReflCmp ord] {ds : List (τ × β)} (h : Increasing ord ds) : ds.Nodup :=
  h.imp fun hlt heq => ne_of_lt hlt (congrArg Prod.fst heq)

theorem Increasing.getElem?_inj [ReflCmp ord] {ds : List (τ × β)} (h : Increasing ord ds)
    {i j : Nat} {d e : τ × β} (hi : ds[i]? = some d) (hj : ds[j]? = some e) (heq : d.1 = e.1) :
    i = j := by
  rw [← h.eq_of_mem (List.mem_of_getElem? hi) (List.mem_of_getElem? hj) heq] at hj
  exact (List.getElem?_inj (List.getElem?_eq_some_iff.mp hi).1 h.nodup).mp (hi.trans hj.symm)

/-! ### Normal form of a list of bindings -/

section Dedup

variable [DecidableEq τ]

/-- The sort keeps the order of the bindings of one key. -/
theorem filter_insertionSort [ReflCmp ord] (ds : List (τ × β)) (k : τ) :
    ((ds.insertionSort (Le ord)).filter fun d => d.1 = k) = ds.filter fun d => d.1 = k := by
  have hinsert : ∀ (d : τ × β) (es : List (τ × β)),
      ((es.orderedInsert (Le ord) d).filter fun d => d.1 = k) =
        (d :: es).filter fun d => d.1 = k := by
    intro d es
    induction es with
    | nil => rfl
    | cons e es ih =>
      rw [List.orderedInsert_cons]
      split
      · rfl
      · rename_i hgt
        have hne : d.1 ≠ e.1 := by
          intro heq
          rw [Le, heq, self_eq ord] at hgt
          exact hgt (by decide)
        rw [List.filter_cons, ih]
        by_cases hek : e.1 = k
        · have hdk : d.1 ≠ k := fun hdk => hne (hdk.trans hek.symm)
          simp [hek, hdk]
        · simp [hek, List.filter_cons]
  induction ds with
  | nil => rfl
  | cons d ds ih =>
    rw [List.insertionSort_cons, hinsert, List.filter_cons, List.filter_cons, ih]

theorem le_of_mem_dedupLast [ReflCmp ord] {d x : τ × β} {es : List (τ × β)}
    (hle : ∀ e ∈ es, Le ord d e) (hx : x ∈ dedupLast d es) : Le ord d x := by
  have hmem : ∀ (d : τ × β) (es : List (τ × β)), x ∈ dedupLast d es → x = d ∨ x ∈ es := by
    intro d es
    induction es generalizing d with
    | nil => exact fun h => .inl (List.mem_singleton.mp h)
    | cons e es ih =>
      intro h
      rw [dedupLast] at h
      split at h
      · exact .inr (List.mem_cons.mpr (ih e h))
      · rcases List.mem_cons.mp h with rfl | h
        · exact .inl rfl
        · exact .inr (List.mem_cons.mpr (ih e h))
  rcases hmem d es hx with rfl | hx
  · rw [Le, self_eq ord]
    decide
  · exact hle x hx

theorem normalize_of_increasing [ReflCmp ord] {ds : List (τ × β)} (h : Increasing ord ds) :
    normalize ord ds = ds := by
  have hle : ds.Pairwise (Le ord) := h.imp fun hlt => by
    rw [Le, hlt]
    decide
  rw [normalize, hle.insertionSort_eq]
  cases ds with
  | nil => rfl
  | cons d ds =>
    have hdedup : ∀ (d : τ × β) (es : List (τ × β)), Increasing ord (d :: es) →
        dedupLast d es = d :: es := by
      intro d es
      induction es generalizing d with
      | nil => exact fun _ => rfl
      | cons e es ih =>
        intro hinc
        obtain ⟨hd, htail⟩ := List.pairwise_cons.mp hinc
        rw [dedupLast, if_neg (ne_of_lt (hd e List.mem_cons_self)).symm, ih e htail]
    exact hdedup d ds h

variable [TransCmp ord] [LawfulEqCmp ord]

theorem increasing_dedupLast {d : τ × β} {es : List (τ × β)}
    (h : (d :: es).Pairwise (Le ord)) : Increasing ord (dedupLast d es) := by
  induction es generalizing d with
  | nil => exact List.pairwise_singleton ..
  | cons e es ih =>
    obtain ⟨hd, htail⟩ := List.pairwise_cons.mp h
    rw [dedupLast]
    split
    · exact ih htail
    · rename_i hne
      refine List.pairwise_cons.mpr ⟨fun x hx => ?_, ih htail⟩
      have hex : Le ord e x :=
        le_of_mem_dedupLast (fun f hf => (List.pairwise_cons.mp htail).1 f hf) hx
      have hde : ord d.1 e.1 = .lt := lt_of_le_of_ne (hd e List.mem_cons_self) (Ne.symm hne)
      exact TransCmp.lt_of_lt_of_isLE hde (Ordering.isLE_iff_ne_gt.mpr hex)

/-- What stays of a sorted list is the last binding of each key. -/
theorem mem_dedupLast {d x : τ × β} {es : List (τ × β)} (h : (d :: es).Pairwise (Le ord)) :
    x ∈ dedupLast d es ↔ ((d :: es).filter fun e => e.1 = x.1).getLast? = some x := by
  induction es generalizing d with
  | nil =>
    rw [dedupLast, List.mem_singleton]
    by_cases hdx : d.1 = x.1
    · simp [hdx, eq_comm]
    · have hne : x ≠ d := fun he => hdx (by rw [he])
      simp [hdx, hne]
  | cons e es ih =>
    obtain ⟨hd, htail⟩ := List.pairwise_cons.mp h
    rw [dedupLast]
    split
    · rename_i hed
      rw [ih htail, List.filter_cons, List.filter_cons (x := d), List.filter_cons, hed]
      by_cases hdx : d.1 = x.1 <;> simp [hdx]
    · rename_i hed
      rw [List.mem_cons, ih htail, List.filter_cons (x := d)]
      by_cases hdx : d.1 = x.1
      · -- the bindings after a run are of larger keys
        have hnone : ((e :: es).filter fun f => f.1 = x.1) = [] := by
          refine List.filter_eq_nil_iff.mpr fun f hf => ?_
          have hef : Le ord e f := by
            rcases List.mem_cons.mp hf with rfl | hf
            · rw [Le, self_eq ord]
              decide
            · exact (List.pairwise_cons.mp htail).1 f hf
          have hde : ord d.1 e.1 = .lt := lt_of_le_of_ne (hd e List.mem_cons_self) (Ne.symm hed)
          have hdf : ord d.1 f.1 = .lt :=
            TransCmp.lt_of_lt_of_isLE hde (Ordering.isLE_iff_ne_gt.mpr hef)
          simpa [← hdx] using (ne_of_lt hdf).symm
        rw [hnone]
        simp [hdx, eq_comm]
      · have hne : x ≠ d := fun he => hdx (by rw [he])
        simp [hdx, hne]

theorem increasing_normalize (ds : List (τ × β)) : Increasing ord (normalize ord ds) := by
  have hsorted := List.pairwise_insertionSort (Le ord) ds
  rw [normalize]
  split
  · exact List.Pairwise.nil
  · rename_i d es heq
    rw [heq] at hsorted
    exact increasing_dedupLast hsorted

/-- The normal form of a list of bindings is the finite map they build. -/
theorem represents_normalize (ds : List (τ × β)) :
    Represents (normalize ord ds) (ofEntries ds) := by
  intro k v
  have hsorted := List.pairwise_insertionSort (Le ord) ds
  rw [ofEntries_eq, ← @filter_insertionSort _ _ ord]
  have hlast : ∀ es : List (τ × β),
      ((es.filter fun d => d.1 = k).getLast?).map Prod.snd = some v ↔
        (es.filter fun d => d.1 = k).getLast? = some (k, v) := by
    intro es
    rw [Option.map_eq_some_iff]
    refine ⟨?_, fun h => ⟨_, h, rfl⟩⟩
    rintro ⟨⟨k', v'⟩, h, rfl⟩
    have hmem := List.mem_filter.mp (List.mem_of_getLast? h)
    have hk : k' = k := by simpa using hmem.2
    rw [h, hk]
  rw [hlast, normalize]
  split
  · rename_i heq
    rw [heq]
    simp
  · rename_i d es heq
    rw [heq] at hsorted ⊢
    exact (mem_dedupLast (x := (k, v)) hsorted).symm

/-- Ordered entries rebuild the finite map they are the graph of. -/
theorem ofEntries_of_represents {ds : List (τ × β)} (h : Increasing ord ds) {m : τ → Option β}
    (hm : Represents ds m) : ofEntries ds = m := by
  have hof := @represents_normalize _ _ ord _ _ _ ds
  rw [normalize_of_increasing h] at hof
  funext k
  exact Option.ext fun v => (hof k v).trans (hm k v).symm

end Dedup

/-! ### One binding changed -/

/-- Where a key stands in ordered entries: the entries before it, its own if it has one, and those
after it. -/
structure Around (ord : τ → τ → Ordering) (k : τ) (before own after : List (τ × β)) : Prop where
  before : ∀ d ∈ before, ord d.1 k = .lt
  own : own = [] ∨ ∃ v, own = [(k, v)]
  after : ∀ d ∈ after, ord k d.1 = .lt

section Around

variable {k : τ} {before own after : List (τ × β)}

theorem Around.mem_own (h : Around ord k before own after) {d : τ × β} (hd : d ∈ own) :
    d.1 = k := by
  rcases h.own with rfl | ⟨v, rfl⟩
  · exact nomatch hd
  · rw [List.mem_singleton.mp hd]

theorem Around.mem_iff_of_ne (h : Around ord k before own after) {d : τ × β} (hd : d.1 ≠ k) :
    d ∈ before ++ own ++ after ↔ d ∈ before ++ after := by
  simp only [List.mem_append]
  refine ⟨?_, fun hd => hd.imp_left .inl⟩
  rintro ((hb | ho) | ha)
  · exact .inl hb
  · exact absurd (h.mem_own ho) hd
  · exact .inr ha

variable [TransCmp ord]

theorem Around.ne_of_mem (h : Around ord k before own after) {d : τ × β}
    (hd : d ∈ before ++ after) : d.1 ≠ k := by
  rcases List.mem_append.mp hd with hd | hd
  · exact ne_of_lt (h.before d hd)
  · exact (ne_of_lt (h.after d hd)).symm

theorem Around.increasing_put (h : Around ord k before own after)
    (hds : Increasing ord (before ++ own ++ after)) (v : β) :
    Increasing ord (before ++ (k, v) :: after) := by
  have hbefore : Increasing ord before :=
    hds.sublist ((List.sublist_append_left _ _).trans (List.sublist_append_left _ _))
  have hafter : Increasing ord after := hds.sublist (List.sublist_append_right _ _)
  refine List.pairwise_append.mpr ⟨hbefore, List.pairwise_cons.mpr ⟨h.after, hafter⟩, ?_⟩
  intro d hd e he
  rcases List.mem_cons.mp he with rfl | he
  · exact h.before d hd
  · exact TransCmp.lt_trans (h.before d hd) (h.after e he)

theorem Around.increasing_delete (h : Around ord k before own after)
    (hds : Increasing ord (before ++ own ++ after)) : Increasing ord (before ++ after) := by
  have hbefore : Increasing ord before :=
    hds.sublist ((List.sublist_append_left _ _).trans (List.sublist_append_left _ _))
  have hafter : Increasing ord after := hds.sublist (List.sublist_append_right _ _)
  refine List.pairwise_append.mpr ⟨hbefore, hafter, fun d hd e he => ?_⟩
  exact TransCmp.lt_trans (h.before d hd) (h.after e he)

/-! In the entries around an entry, a key stands where it does in the part on its side. -/

theorem Around.of_left {k' : τ} {v : β} {ds : List (τ × β)} (h : Around ord k before own after)
    (hlt : ord k k' = .lt) (hds : ∀ d ∈ ds, ord k' d.1 = .lt) :
    Around ord k before own (after ++ (k', v) :: ds) where
  before := h.before
  own := h.own
  after d hd := by
    rcases List.mem_append.mp hd with hd | hd
    · exact h.after d hd
    rcases List.mem_cons.mp hd with rfl | hd
    · exact hlt
    · exact TransCmp.lt_trans hlt (hds d hd)

theorem Around.of_right {k' : τ} {v : β} {ds : List (τ × β)} (h : Around ord k before own after)
    (hgt : ord k' k = .lt) (hds : ∀ d ∈ ds, ord d.1 k' = .lt) :
    Around ord k (ds ++ (k', v) :: before) own after where
  before d hd := by
    rcases List.mem_append.mp hd with hd | hd
    · exact TransCmp.lt_trans (hds d hd) hgt
    rcases List.mem_cons.mp hd with rfl | hd
    · exact hgt
    · exact h.before d hd
  own := h.own
  after := h.after

variable {m : τ → Option β}

theorem Around.lookup (h : Around ord k before own after)
    (hm : Represents (before ++ own ++ after) m) : m k = own.head?.map Prod.snd := by
  rcases h.own with rfl | ⟨v, rfl⟩
  · rw [List.head?_nil, Option.map_none, Option.eq_none_iff_forall_ne_some]
    intro v hv
    rw [hm, List.append_nil] at hv
    exact h.ne_of_mem hv rfl
  · exact (hm k v).mpr (List.mem_append_left _ (List.mem_append_right _ List.mem_cons_self))

variable [DecidableEq τ]

theorem Around.represents_put (h : Around ord k before own after)
    (hm : Represents (before ++ own ++ after) m) (v : β) :
    Represents (before ++ (k, v) :: after) (Function.update m k (some v)) := by
  intro k' v'
  rcases eq_or_ne k' k with rfl | hne
  · rw [Function.update_self]
    constructor
    · intro heq
      obtain rfl := Option.some.inj heq
      exact List.mem_append_right _ List.mem_cons_self
    · intro hmem
      rcases List.mem_append.mp hmem with hb | hmem
      · exact absurd rfl (h.ne_of_mem (List.mem_append_left _ hb))
      · rcases List.mem_cons.mp hmem with heq | ha
        · rw [(Prod.mk.inj heq).2]
        · exact absurd rfl (h.ne_of_mem (List.mem_append_right _ ha))
  · rw [Function.update_of_ne hne, hm, h.mem_iff_of_ne hne]
    simp [hne]

theorem Around.represents_delete (h : Around ord k before own after)
    (hm : Represents (before ++ own ++ after) m) :
    Represents (before ++ after) (Function.update m k none) := by
  intro k' v'
  rcases eq_or_ne k' k with rfl | hne
  · rw [Function.update_self]
    constructor
    · intro heq
      exact nomatch heq
    · intro hmem
      exact absurd rfl (h.ne_of_mem hmem)
  · rw [Function.update_of_ne hne, hm, h.mem_iff_of_ne hne]

end Around

end Order

/-! ## The program on keys that stand for ordered keys -/

section Simulation

variable {ε κ ν τ β : Type} {cmp : κ → κ → Except ε Ordering} {ord : τ → τ → Ordering}
  {keyOf : κ → τ → Prop} {valueOf : ν → β → Prop}

/-- An entry stands for a binding. -/
def EntryOf (keyOf : κ → τ → Prop) (valueOf : ν → β → Prop) (e : κ × ν) (d : τ × β) : Prop :=
  keyOf e.1 d.1 ∧ valueOf e.2 d.2

/-- The comparison answers, with the order of what its arguments stand for. -/
def Agrees (cmp : κ → κ → Except ε Ordering) (keyOf : κ → τ → Prop) (ord : τ → τ → Ordering) :
    Prop :=
  ∀ x y s t, keyOf x s → keyOf y t → cmp x y = .ok (ord s t)

theorem insertBy_eq (hcmp : Agrees cmp keyOf ord) {e : κ × ν} {d : τ × β}
    {es : List (κ × ν)} {ds : List (τ × β)} (he : EntryOf keyOf valueOf e d)
    (hes : List.Forall₂ (EntryOf keyOf valueOf) es ds) : ∃ es', insertBy cmp e es = .ok es' ∧
      List.Forall₂ (EntryOf keyOf valueOf) es' (ds.orderedInsert (Le ord) d) := by
  induction hes with
  | nil => exact ⟨[e], rfl, .cons he .nil⟩
  | @cons f g es ds hf hes ih =>
    obtain ⟨es', hes', hrest⟩ := ih
    rw [insertBy, hcmp _ _ _ _ he.1 hf.1, List.orderedInsert_cons]
    show ∃ es', (if ord d.1 g.1 = .gt then _ else _) = _ ∧ _
    by_cases hgt : ord d.1 g.1 = .gt
    · rw [if_pos hgt, if_neg (not_not.mpr hgt), hes']
      exact ⟨_, rfl, .cons hf hrest⟩
    · rw [if_neg hgt, if_pos hgt]
      exact ⟨_, rfl, .cons he (.cons hf hes)⟩

theorem sortBy_eq (hcmp : Agrees cmp keyOf ord) {es : List (κ × ν)} {ds : List (τ × β)}
    (hes : List.Forall₂ (EntryOf keyOf valueOf) es ds) : ∃ es', sortBy cmp es = .ok es' ∧
      List.Forall₂ (EntryOf keyOf valueOf) es' (ds.insertionSort (Le ord)) := by
  induction hes with
  | nil => exact ⟨[], rfl, .nil⟩
  | cons he hes ih =>
    obtain ⟨es', hes', hsorted⟩ := ih
    rw [sortBy, hes', List.insertionSort_cons]
    exact insertBy_eq hcmp he hsorted

variable [DecidableEq τ] [LawfulEqCmp ord]

theorem dedupFrom_eq (hcmp : Agrees cmp keyOf ord) {e : κ × ν} {d : τ × β}
    {es : List (κ × ν)} {ds : List (τ × β)} (he : EntryOf keyOf valueOf e d)
    (hes : List.Forall₂ (EntryOf keyOf valueOf) es ds) : ∃ es', dedupFrom cmp e es = .ok es' ∧
      List.Forall₂ (EntryOf keyOf valueOf) es' (dedupLast d ds) := by
  induction hes generalizing e d with
  | nil => exact ⟨[e], rfl, .cons he .nil⟩
  | @cons f g es ds hf hes ih =>
    rw [dedupFrom, hcmp _ _ _ _ hf.1 he.1, dedupLast]
    show ∃ es', (if ord g.1 d.1 = .eq then _ else _) = _ ∧ _
    by_cases heq : g.1 = d.1
    · rw [if_pos (LawfulEqCmp.compare_eq_iff_eq.mpr heq), if_pos heq]
      have hkey : keyOf e.1 g.1 := heq ▸ he.1
      exact ih ⟨hkey, hf.2⟩
    · rw [if_neg (fun ho => heq (LawfulEqCmp.compare_eq_iff_eq.mp ho)), if_neg heq]
      obtain ⟨es', hes', hrest⟩ := ih hf
      rw [hes']
      exact ⟨_, rfl, .cons he hrest⟩

/-- Sorting and deduplicating entries gives the normal form of their bindings. -/
theorem normalize_eq (hcmp : Agrees cmp keyOf ord) {es : List (κ × ν)} {ds : List (τ × β)}
    (hes : List.Forall₂ (EntryOf keyOf valueOf) es ds) :
    ∃ sorted es', sortBy cmp es = .ok sorted ∧ dedupBy cmp sorted = .ok es' ∧
      List.Forall₂ (EntryOf keyOf valueOf) es' (normalize ord ds) := by
  obtain ⟨sorted, hsorted, hrel⟩ := sortBy_eq hcmp hes
  rw [normalize]
  generalize ds.insertionSort (Le ord) = bindings at hrel
  cases hrel with
  | nil => exact ⟨_, [], hsorted, rfl, .nil⟩
  | cons he hrest =>
    obtain ⟨es', hes', hrel⟩ := dedupFrom_eq hcmp he hrest
    exact ⟨_, es', hsorted, hes', hrel⟩

end Simulation

section Search

variable {ε κ ν τ β : Type} {cmp : κ → κ → Except ε Ordering} {ord : τ → τ → Ordering}
  {keyOf : κ → τ → Prop} {valueOf : ν → β → Prop}

theorem Increasing.around [ReflCmp ord] {ds : List (τ × β)} (hds : Increasing ord ds) {i : Nat}
    {d : τ × β} (hd : ds[i]? = some d) : ds = ds.take i ++ [d] ++ ds.drop (i + 1) ∧
      Around ord d.1 (ds.take i) [d] (ds.drop (i + 1)) := by
  obtain ⟨hi, rfl⟩ := List.getElem?_eq_some_iff.mp hd
  have hsplit : ds = ds.take i ++ ds[i] :: ds.drop (i + 1) := by
    rw [← List.drop_eq_getElem_cons hi, List.take_append_drop]
  rw [hsplit] at hds
  obtain ⟨-, hafter, hcross⟩ := List.pairwise_append.mp hds
  refine ⟨by rw [List.append_assoc]; exact hsplit, ⟨?_, .inr ⟨_, rfl⟩, ?_⟩⟩
  · exact fun e he => hcross e he _ List.mem_cons_self
  · exact (List.pairwise_cons.mp hafter).1

/-- A search that found nothing is over when its bounds meet. -/
theorem around_missing {ds : List (τ × β)} {k : τ} {i : Nat} (hi : i ≤ ds.length)
    (hbefore : ∀ d ∈ ds.take i, ord d.1 k = .lt) (hafter : ∀ d ∈ ds.drop i, ord k d.1 = .lt) :
    ∃ before own after, ds = before ++ own ++ after ∧ Around ord k before own after ∧
      (Except.ok (.error i) : Except ε (Except Nat Nat)) =
        .ok (if own = [] then .error before.length else .ok before.length) := by
  refine ⟨ds.take i, [], ds.drop i, ?_, ⟨hbefore, .inl rfl, hafter⟩, ?_⟩
  · rw [List.append_nil, List.take_append_drop]
  · rw [if_pos rfl, List.length_take, Nat.min_eq_left hi]

theorem searchLoop_eq [TransCmp ord] [LawfulEqCmp ord] (hcmp : Agrees cmp keyOf ord) (missing : ε)
    {es : List (κ × ν)} {ds : List (τ × β)} (hes : List.Forall₂ (EntryOf keyOf valueOf) es ds)
    (hds : Increasing ord ds) {key : κ} {k : τ} (hkey : keyOf key k) (n : Nat) {low high : Nat}
    (hn : high ≤ low + n) (hlow : low ≤ high) (hhigh : high ≤ ds.length)
    (hbefore : ∀ d ∈ ds.take low, ord d.1 k = .lt) (hafter : ∀ d ∈ ds.drop high, ord k d.1 = .lt) :
    ∃ before own after, ds = before ++ own ++ after ∧ Around ord k before own after ∧
      searchLoop cmp missing es key n low high =
        .ok (if own = [] then .error before.length else .ok before.length) := by
  induction n generalizing low high with
  | zero =>
    obtain rfl : low = high := by omega
    exact around_missing hhigh hbefore hafter
  | succ n ih =>
    rw [searchLoop]
    split
    case isFalse hge =>
      obtain rfl : low = high := by omega
      exact around_missing hhigh hbefore hafter
    rename_i hlt
    dsimp only
    generalize hmiddle : low + (high - low) / 2 = middle
    have hin : middle < ds.length := by omega
    have hlen : es.length = ds.length := hes.length_eq
    obtain ⟨e, he⟩ : ∃ e, es[middle]? = some e := ⟨_, List.getElem?_eq_getElem (by omega)⟩
    obtain ⟨d, hd⟩ : ∃ d, ds[middle]? = some d := ⟨_, List.getElem?_eq_getElem hin⟩
    have hed : EntryOf keyOf valueOf e d := by
      obtain ⟨hi, rfl⟩ := List.getElem?_eq_some_iff.mp he
      obtain ⟨hj, rfl⟩ := List.getElem?_eq_some_iff.mp hd
      exact hes.get hi hj
    obtain ⟨hsplit, haround⟩ := hds.around hd
    rw [he]
    dsimp only
    rw [hcmp _ _ _ _ hed.1 hkey]
    show ∃ before own after, _ ∧ _ ∧ (match ord d.1 k with
      | .lt => searchLoop cmp missing es key n (middle + 1) high
      | .gt => searchLoop cmp missing es key n low middle
      | .eq => .ok (.ok middle)) = _
    cases ho : ord d.1 k with
    | lt =>
      refine ih (by omega) (by omega) hhigh (fun f hf => ?_) hafter
      rw [List.take_add_one, hd] at hf
      rcases List.mem_append.mp hf with hf | hf
      · exact TransCmp.lt_trans (haround.before f hf) ho
      · rw [List.mem_singleton.mp hf]
        exact ho
    | gt =>
      refine ih (by omega) (by omega) (by omega) hbefore fun f hf => ?_
      obtain ⟨hi, rfl⟩ := List.getElem?_eq_some_iff.mp hd
      rw [List.drop_eq_getElem_cons hi] at hf
      rcases List.mem_cons.mp hf with rfl | hf
      · exact lt_of_gt ho
      · exact TransCmp.lt_trans (lt_of_gt ho) (haround.after f hf)
    | eq =>
      obtain rfl := LawfulEqCmp.compare_eq_iff_eq.mp ho
      refine ⟨_, _, _, hsplit, haround, ?_⟩
      rw [if_neg (List.cons_ne_nil _ _), List.length_take, Nat.min_eq_left (by omega)]

/-- The binary search finds where the key stands. -/
theorem search_eq [TransCmp ord] [LawfulEqCmp ord] (hcmp : Agrees cmp keyOf ord) (missing : ε)
    {es : List (κ × ν)} {ds : List (τ × β)} (hes : List.Forall₂ (EntryOf keyOf valueOf) es ds)
    (hds : Increasing ord ds) {key : κ} {k : τ} (hkey : keyOf key k) :
    ∃ before own after, ds = before ++ own ++ after ∧ Around ord k before own after ∧
      search cmp missing es key =
        .ok (if own = [] then .error before.length else .ok before.length) := by
  have hlen : es.length = ds.length := hes.length_eq
  refine searchLoop_eq hcmp missing hes hds hkey es.length (by omega) (by omega) (by omega) ?_ ?_
  · exact fun d hd => nomatch hd
  · intro d hd
    rw [hlen, List.drop_length] at hd
    exact nomatch hd

end Search

end Fz.Base.Entries
