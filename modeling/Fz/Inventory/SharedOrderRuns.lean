import Fz.Base.List
import Fz.Inventory.SharedOrderSound
import Mathlib.Algebra.GroupWithZero.Nat
import Mathlib.Data.Nat.Fib.Basic

/-!
# Shared inventories over runs

Every update starts from some version of an inventory and makes a new one.  Each version is a
balanced tree whose in-order sequence is that of the finite map it stands for, ranks and indices are
those of this sequence, and two versions are equal exactly if their maps are, whatever they share
(`updates_keep_ordered_map`).
-/

namespace Fz.Inventory

open Fz.Base Fz.Base.Entries Std

namespace SharedOrder

variable {K V : Type} {cells : List (SharedOrder K V)} {t : SharedOrder K V}

/-! ## Ranks and indices -/

theorem rankedFrom_map_snd {ord : K → K → Ordering} (key : K) (rank : Nat) (t : SharedOrder K V) :
    (t.rankedFrom key ord rank).map Prod.snd = t.lookup key ord := by
  induction t generalizing rank with
  | nil => rfl
  | cell addr k v left right height len ihl ihr =>
    rw [rankedFrom, lookup]
    cases ord key k with
    | lt => exact ihl rank
    | eq => rfl
    | gt => exact ihr _

/-- The least trees of their heights are as large as Fibonacci numbers. -/
theorem fib_height_le (h : t.Valid) : Nat.fib (t.height + 2) ≤ t.len + 1 := by
  induction t with
  | nil => exact le_rfl
  | cell addr k v left right height len ihl ihr =>
    obtain ⟨hl, hr, rfl, rfl, hle, hge⟩ := h
    have hleft := ihl hl
    have hright := ihr hr
    show Nat.fib (1 + max left.height right.height + 2) ≤ 1 + left.len + right.len + 1
    rw [show 1 + max left.height right.height + 2 = max left.height right.height + 1 + 2 by omega,
      Nat.fib_add_two]
    rcases Nat.le_total left.height right.height with hlr | hrl
    · have hmono : Nat.fib (right.height + 1) ≤ Nat.fib (left.height + 2) :=
        Nat.fib_mono (Nat.succ_le_succ hge)
      rw [Nat.max_eq_right hlr, show right.height + 1 + 1 = right.height + 2 from rfl]
      omega
    · have hmono : Nat.fib (left.height + 1) ≤ Nat.fib (right.height + 2) :=
        Nat.fib_mono (Nat.succ_le_succ hle)
      rw [Nat.max_eq_left hrl, show left.height + 1 + 1 = left.height + 2 from rfl]
      omega

section Search

variable {ord : K → K → Ordering} {key : K} [TransCmp ord] [LawfulEqCmp ord]

/-- The rank of a key is its place in the in-order sequence. -/
theorem rankedFrom_eq_some (hvalid : t.Valid) (hinc : Increasing ord t.toList) {rank i : Nat}
    {v : V} : t.rankedFrom key ord rank = some (i, v) ↔
      ∃ j, i = rank + j ∧ t.toList[j]? = some (key, v) := by
  induction t generalizing rank with
  | nil =>
    refine ⟨by rintro ⟨⟩, ?_⟩
    rintro ⟨_, _, h⟩
    cases h
  | cell addr k w left right h n ihl ihr =>
    obtain ⟨hl, hr, -, -, -⟩ := hvalid
    obtain ⟨hincl, hincr, hbefore, hafter⟩ := increasing_cell hinc
    have hlen := hl.len_eq
    rw [rankedFrom, toList]
    cases hcmp : ord key k with
    | lt =>
      rw [ihl hl hincl]
      refine exists_congr fun j => and_congr_right fun _ => ?_
      rw [List.getElem?_append]
      split
      · rfl
      · rename_i hge
        rw [List.getElem?_eq_none (Nat.le_of_not_lt hge)]
        refine iff_of_false (by rintro ⟨⟩) fun hmem => ?_
        rcases List.mem_cons.mp (List.mem_of_getElem? hmem) with heq | hmem
        · rw [(Prod.mk.inj heq).1, self_eq ord] at hcmp
          cases hcmp
        · exact ne_of_lt (TransCmp.lt_trans hcmp (hafter _ hmem)) rfl
    | eq =>
      obtain rfl := LawfulEqCmp.compare_eq_iff_eq.mp hcmp
      have hself : (left.toList ++ (key, w) :: right.toList)[left.len]? = some (key, w) := by
        rw [hlen, List.getElem?_append_right le_rfl, Nat.sub_self]
        rfl
      constructor
      · intro heq
        obtain ⟨rfl, rfl⟩ := Prod.mk.inj (Option.some.inj heq)
        exact ⟨_, rfl, hself⟩
      · rintro ⟨j, rfl, hj⟩
        obtain rfl := hinc.getElem?_inj hself hj rfl
        rw [← (Prod.mk.inj (Option.some.inj (hself.symm.trans hj))).2]
    | gt =>
      rw [ihr hr hincr]
      constructor
      · rintro ⟨j, rfl, hj⟩
        refine ⟨left.len + 1 + j, by omega, ?_⟩
        rw [List.getElem?_append_right (by omega),
          show left.len + 1 + j - left.toList.length = j + 1 by omega]
        exact hj
      · rintro ⟨j, rfl, hj⟩
        rw [List.getElem?_append] at hj
        split at hj
        · have hlt : ord key k = .lt := hbefore _ (List.mem_of_getElem? hj)
          cases hlt.symm.trans hcmp
        · rename_i hge
          obtain ⟨m, hm⟩ := Nat.exists_eq_add_of_le (Nat.le_of_not_lt hge)
          rw [hm, Nat.add_sub_cancel_left] at hj
          cases m with
          | zero =>
            rw [(Prod.mk.inj (Option.some.inj hj)).1, self_eq ord] at hcmp
            cases hcmp
          | succ m => exact ⟨m, by omega, hj⟩

end Search

theorem getIndex_eq (hvalid : t.Valid) (i : Nat) : t.getIndex i = (t.toList[i]?).map Prod.snd := by
  induction t generalizing i with
  | nil => rfl
  | cell addr k w left right h n ihl ihr =>
    obtain ⟨hl, hr, -, -, -⟩ := hvalid
    have hlen := hl.len_eq
    rw [getIndex, toList, List.getElem?_append]
    cases hcmp : compare i left.len with
    | lt =>
      rw [if_pos (hlen ▸ Nat.compare_eq_lt.mp hcmp)]
      exact ihl hl i
    | eq =>
      rw [Nat.compare_eq_eq.mp hcmp, hlen, if_neg (Nat.lt_irrefl _), Nat.sub_self]
      rfl
    | gt =>
      have hgt := Nat.compare_eq_gt.mp hcmp
      rw [if_neg (by omega), show i - left.toList.length = i - (left.len + 1) + 1 by omega]
      exact ihr hr _

/-! ## Iteration -/

/-- What an iteration has still to give: the top cell, what is to its right, and the rest. -/
def remaining (stack : List (SharedOrder K V)) : List (K × V) :=
  stack.flatMap fun
    | nil => []
    | cell _ k v _ right _ _ => (k, v) :: right.toList

theorem remaining_descend (stack : List (SharedOrder K V)) :
    remaining (descend stack t) = t.toList ++ remaining stack := by
  induction t generalizing stack with
  | nil => rfl
  | cell addr k v left right h n ihl _ =>
    rw [descend, ihl, toList, List.append_assoc]
    rfl

theorem mem_descend {stack : List (SharedOrder K V)} (h : ∀ c ∈ stack, c.isEmpty = false) :
    ∀ c ∈ descend stack t, c.isEmpty = false := by
  induction t generalizing stack with
  | nil => exact h
  | cell addr k v left right height n ihl _ => exact ihl (List.forall_mem_cons.mpr ⟨rfl, h⟩)

theorem takeEntries_eq (n : Nat) {stack : List (SharedOrder K V)}
    (h : ∀ c ∈ stack, c.isEmpty = false) : takeEntries n stack = (remaining stack).take n := by
  induction n generalizing stack with
  | zero => exact (List.take_zero).symm
  | succ n ih =>
    cases stack with
    | nil => rfl
    | cons c stack =>
      obtain ⟨hc, hstack⟩ := List.forall_mem_cons.mp h
      cases c with
      | nil => exact nomatch hc
      | cell addr k v left right height len =>
        rw [takeEntries, next]
        dsimp only
        rw [ih (mem_descend hstack), remaining_descend]
        rfl

theorem entries_eq (hvalid : t.Valid) : t.entries = t.toList := by
  rw [SharedOrder.entries, takeEntries_eq _ (mem_descend (List.forall_mem_nil _)),
    remaining_descend, hvalid.len_eq]
  simp [remaining]

/-! ## Equality -/

section Equality

def ComparisonPart.rows : ComparisonPart K V → List (K × V)
  | .tree node => node.toList
  | .row k v => [(k, v)]

/-- A tree on a stack is a cell of memory. -/
def ComparisonPart.Good (cells : List (SharedOrder K V)) : ComparisonPart K V → Prop
  | .tree node => node.isEmpty = false ∧ node.Valid ∧ node.StoredIn cells
  | .row _ _ => True

/-- A tree takes a step to be split, and then one for each of its rows. -/
def ComparisonPart.weight : ComparisonPart K V → Nat
  | .tree node => 2 * node.len
  | .row _ _ => 1

open ComparisonPart

theorem treePart_spec (hvalid : t.Valid) (hstored : t.StoredIn cells) :
    (treePart t).flatMap rows = t.toList ∧ (∀ p ∈ treePart t, p.Good cells) ∧
      ((treePart t).map weight).sum = 2 * t.len := by
  cases t with
  | nil => exact ⟨rfl, nofun, rfl⟩
  | cell addr k v left right h n =>
    refine ⟨List.append_nil _, fun p hp => ?_, rfl⟩
    rw [List.mem_singleton.mp hp]
    exact ⟨rfl, hvalid, hstored⟩

theorem expandComparison_spec {parts : List (ComparisonPart K V)}
    (hgood : ∀ p ∈ parts, p.Good cells) :
    (expandComparison parts).flatMap rows = parts.flatMap rows ∧
      (∀ p ∈ expandComparison parts, p.Good cells) ∧
      ((expandComparison parts).map weight).sum ≤ (parts.map weight).sum ∧
      ∀ node rest, parts = .tree node :: rest →
        ((expandComparison parts).map weight).sum < (parts.map weight).sum := by
  unfold expandComparison
  split
  · rename_i addr k v left right h n parts
    obtain ⟨⟨-, ⟨hl, hr, -, hlen, -⟩, ⟨-, hls, hrs⟩⟩, hrest⟩ := List.forall_mem_cons.mp hgood
    obtain ⟨hle, hlg, hlw⟩ := treePart_spec hl hls
    obtain ⟨hre, hrg, hrw⟩ := treePart_spec hr hrs
    have hweight : ((treePart left ++ .row k v :: treePart right ++ parts).map weight).sum <
        ((.tree (cell addr k v left right h n) :: parts).map weight).sum := by
      simp only [List.map_append, List.map_cons, List.sum_append, List.sum_cons, hlw, hrw, weight,
        SharedOrder.len, hlen]
      omega
    refine ⟨?_, ?_, hweight.le, fun _ _ _ => hweight⟩
    · simp only [List.flatMap_append, List.flatMap_cons, hle, hre, rows, toList,
        List.append_assoc, List.cons_append, List.nil_append]
    · intro p hp
      simp only [List.mem_append, List.mem_cons] at hp
      rcases hp with (hp | rfl | hp) | hp
      · exact hlg p hp
      · trivial
      · exact hrg p hp
      · exact hrest p hp
  · rename_i hno
    refine ⟨rfl, hgood, le_rfl, ?_⟩
    rintro node rest rfl
    cases node with
    | nil => cases (hgood _ (.head _)).1
    | cell => exact absurd rfl (hno _ _ _ _ _ _ _ _)

theorem len_pos_of_good {node : SharedOrder K V} (h : (tree node).Good cells) : 0 < node.len := by
  cases node with
  | nil => exact nomatch h.1
  | cell =>
    obtain ⟨-, -, -, hlen, -⟩ := h.2.1
    rw [SharedOrder.len, hlen]
    omega

theorem eq_of_ptrEq {a b : SharedOrder K V} (ha : a.StoredIn cells) (hb : b.StoredIn cells)
    (h : ptrEq a b = true) : a = b := by
  cases a with
  | nil => exact nomatch h
  | cell =>
    cases b with
    | nil => exact nomatch h
    | cell =>
      rw [ptrEq, decide_eq_true_eq] at h
      exact Option.some.inj (ha.1.symm.trans ((congrArg (cells[·]?) h).trans hb.1))

variable [DecidableEq K] [DecidableEq V]

/-- Two stacks of parts compare equal if they have the same rows.  Every step splits a tree or takes
a part off each stack. -/
theorem compareParts_eq (n : Nat) {left right : List (ComparisonPart K V)}
    (hl : ∀ p ∈ left, p.Good cells) (hr : ∀ p ∈ right, p.Good cells)
    (hn : (left.map weight).sum + (right.map weight).sum < n) : compareParts n left right =
      some (decide (left.flatMap rows = right.flatMap rows)) := by
  induction n generalizing left right with
  | zero => exact absurd hn (Nat.not_lt_zero _)
  | succ n ih =>
    have hne : ∀ {p : ComparisonPart K V} {ps}, p.Good cells →
        (p :: ps).flatMap rows ≠ [] := by
      intro p ps hp
      cases p with
      | row => rintro ⟨⟩
      | tree node =>
        cases node with
        | nil => cases hp.1
        | cell => simp [rows, toList]
    -- one step that splits a part
    have hexpand : ∀ {a b : ComparisonPart K V} {ls rs : List (ComparisonPart K V)},
        (∀ p ∈ a :: ls, p.Good cells) → (∀ p ∈ b :: rs, p.Good cells) →
        (((a :: ls).map weight).sum + ((b :: rs).map weight).sum < n + 1) →
        (∃ s, a = .tree s ∧ b.len ≤ a.len) ∨ (∃ s, b = .tree s ∧ a.len ≤ b.len) →
        compareParts n (if a.len ≥ b.len then expandComparison (a :: ls) else a :: ls)
          (if b.len ≥ a.len then expandComparison (b :: rs) else b :: rs) =
            some (decide ((a :: ls).flatMap rows = (b :: rs).flatMap rows)) := by
      intro a b ls rs ha hb hn hprogress
      obtain ⟨hae, hag, haw, has⟩ := expandComparison_spec ha
      obtain ⟨hbe, hbg, hbw, hbs⟩ := expandComparison_spec hb
      rw [ih]
      · congr 3
        · split
          · exact hae
          · rfl
        · split
          · exact hbe
          · rfl
      · split
        · exact hag
        · exact ha
      · split
        · exact hbg
        · exact hb
      · rcases hprogress with ⟨s, rfl, hle⟩ | ⟨s, rfl, hle⟩
        · have := has s ls rfl
          rw [if_pos hle]
          split
          · omega
          · omega
        · have := hbs s rs rfl
          rw [if_pos hle]
          split
          · omega
          · omega
    cases left with
    | nil =>
      cases right with
      | nil => rfl
      | cons b rs =>
        rw [compareParts, List.isEmpty_cons, List.flatMap_nil,
          decide_eq_false fun h => hne (hr b (.head _)) h.symm]
    | cons a ls =>
      cases right with
      | nil =>
        rw [compareParts, List.flatMap_nil, decide_eq_false (hne (hl a (.head _)))]
      | cons b rs =>
        obtain ⟨ha, hls⟩ := List.forall_mem_cons.mp hl
        obtain ⟨hb, hrs⟩ := List.forall_mem_cons.mp hr
        cases a with
        | row k v =>
          cases b with
          | row k' v' =>
            rw [compareParts]
            split
            · rename_i hdiffer
              rw [decide_eq_false]
              intro h
              obtain ⟨rfl, rfl⟩ := Prod.mk.inj (List.cons.inj h).1
              exact hdiffer.elim (fun h => h rfl) fun h => h rfl
            · rename_i hsame
              rw [not_or, not_not, not_not] at hsame
              obtain ⟨rfl, rfl⟩ := hsame
              rw [ih hls hrs (by simp only [List.map_cons, List.sum_cons, weight] at hn; omega)]
              simp only [List.flatMap_cons, List.append_cancel_left_eq]
          | tree t =>
            rw [compareParts]
            · exact hexpand hl hr hn (.inr ⟨t, rfl, len_pos_of_good hb⟩)
            · simp
            · simp
        | tree s =>
          cases b with
          | row k' v' =>
            rw [compareParts]
            · exact hexpand hl hr hn (.inl ⟨s, rfl, len_pos_of_good ha⟩)
            · simp
            · simp
          | tree t =>
            rw [compareParts]
            · split
              · rename_i hptr
                obtain rfl := eq_of_ptrEq ha.2.2 hb.2.2 hptr
                have hpos := len_pos_of_good ha
                rw [ih hls hrs (by simp only [List.map_cons, List.sum_cons, weight] at hn; omega)]
                simp only [List.flatMap_cons, List.append_cancel_left_eq]
              · refine hexpand hl hr hn ?_
                rcases Nat.le_total t.len s.len with hle | hle
                · exact .inl ⟨s, rfl, hle⟩
                · exact .inr ⟨t, rfl, hle⟩

theorem equal_eq {a b : SharedOrder K V} (ha : a.Valid) (hb : b.Valid) (has : a.StoredIn cells)
    (hbs : b.StoredIn cells) : equal a b = some (decide (a.toList = b.toList)) := by
  rw [equal]
  split
  · rename_i hroot
    rw [decide_eq_true]
    unfold sameRoot at hroot
    split at hroot
    · rfl
    · rw [eq_of_ptrEq has hbs hroot]
  split
  · rename_i hlen
    rw [decide_eq_false]
    intro heq
    rw [ha.len_eq, hb.len_eq, heq] at hlen
    exact hlen rfl
  · obtain ⟨hae, hag, haw⟩ := treePart_spec ha has
    obtain ⟨hbe, hbg, hbw⟩ := treePart_spec hb hbs
    rw [compareParts_eq _ hag hbg (by omega), hae, hbe]

end Equality

/-! ## Runs -/

inductive Update (K V : Type) where
  | insert (key : K) (value : V)
  | remove (key : K)

def Update.apply [DecidableEq V] (ord : K → K → Ordering) :
    Update K V → SharedOrder K V → AllocM K V (SharedOrder K V)
  | insert key value, t => do
    let (_, t) ← t.insert key value ord
    pure t
  | remove key, t => do
    let (_, t) ← t.remove key ord
    pure t

/-- Each update makes a new version of an earlier one, or of the empty inventory. -/
def runUpdates [DecidableEq V] (ord : K → K → Ordering) :
    List (Nat × Update K V) → List (SharedOrder K V) → AllocM K V (List (SharedOrder K V))
  | [], versions => pure versions
  | (i, update) :: updates, versions => do
    let t ← update.apply ord (versions.getD i nil)
    runUpdates ord updates (versions ++ [t])

section Maps

variable [DecidableEq K]

def Update.onMap : Update K V → (K → Option V) → K → Option V
  | insert key value, m => Function.update m key (some value)
  | remove key, m => Function.update m key none

/-- The same updates of finite maps. -/
def mapsOf : List (Nat × Update K V) → List (K → Option V) → List (K → Option V)
  | [], maps => maps
  | (i, update) :: updates, maps =>
    mapsOf updates (maps ++ [update.onMap (maps.getD i fun _ => none)])

end Maps

/-- The inventory is a balanced tree in order, for the finite map. -/
structure OrderedMap (ord : K → K → Ordering) (m : K → Option V) (t : SharedOrder K V) : Prop where
  valid : t.Valid
  increasing : Increasing ord t.toList
  represents : Represents t.toList m

namespace OrderedMap

variable {ord : K → K → Ordering} {m m' : K → Option V} {t' : SharedOrder K V} [TransCmp ord]
  [LawfulEqCmp ord]

theorem rank_eq_some (h : OrderedMap ord m t) {k : K} {i : Nat} :
    t.rank k ord = some i ↔ ∃ v, t.toList[i]? = some (k, v) := by
  rw [rank, Option.map_eq_some_iff]
  constructor
  · rintro ⟨⟨i', v⟩, hranked, rfl⟩
    obtain ⟨j, rfl, hj⟩ := (rankedFrom_eq_some h.valid h.increasing).mp hranked
    rw [Nat.zero_add]
    exact ⟨v, hj⟩
  · rintro ⟨v, hv⟩
    exact ⟨(i, v),
      (rankedFrom_eq_some h.valid h.increasing).mpr ⟨i, (Nat.zero_add i).symm, hv⟩, rfl⟩

theorem exists_rank (h : OrderedMap ord m t) {k : K} {v : V} (hk : m k = some v) :
    ∃ i, t.rank k ord = some i ∧ t.getIndex i = some v := by
  obtain ⟨i, hi⟩ := List.mem_iff_getElem?.mp ((h.represents k v).mp hk)
  refine ⟨i, h.rank_eq_some.mpr ⟨v, hi⟩, ?_⟩
  rw [getIndex_eq h.valid, hi]
  rfl

theorem exists_key (h : OrderedMap ord m t) {i : Nat} {v : V} (hi : t.getIndex i = some v) :
    ∃ k, t.rank k ord = some i ∧ m k = some v ∧ ∀ k', t.rank k' ord = some i → k' = k := by
  rw [getIndex_eq h.valid, Option.map_eq_some_iff] at hi
  obtain ⟨⟨k, w⟩, hget, rfl⟩ := hi
  refine ⟨k, h.rank_eq_some.mpr ⟨w, hget⟩, (h.represents k w).mpr (List.mem_of_getElem? hget), ?_⟩
  intro k' hk'
  obtain ⟨w', hget'⟩ := h.rank_eq_some.mp hk'
  exact congrArg Prod.fst (Option.some.inj (hget'.symm.trans hget))

omit [LawfulEqCmp ord] in
theorem toList_eq_iff (h : OrderedMap ord m t) (h' : OrderedMap ord m' t') :
    t.toList = t'.toList ↔ m = m' := by
  constructor
  · intro heq
    funext k
    refine Option.ext fun v => ?_
    rw [h.represents, h'.represents, heq]
  · rintro rfl
    have hmem : ∀ d, d ∈ t.toList ↔ d ∈ t'.toList := fun d =>
      (h.represents d.1 d.2).symm.trans (h'.represents d.1 d.2)
    refine (List.perm_ext_iff_of_nodup h.increasing.nodup h'.increasing.nodup).mpr hmem
      |>.eq_of_pairwise (fun d e _ _ hde hed => ?_) h.increasing h'.increasing
    rw [gt_of_lt hde] at hed
    exact nomatch hed

omit [LawfulEqCmp ord] in
theorem changed [DecidableEq K] {cells' : List (SharedOrder K V)} {key : K} {own : List (K × V)}
    (h : OrderedMap ord m t) : (∀ v, Changed ord key t cells own [(key, v)] t' cells' →
      OrderedMap ord (Function.update m key (some v)) t') ∧
    (Changed ord key t cells own [] t' cells' →
      OrderedMap ord (Function.update m key none) t') := by
  constructor
  · rintro v ⟨before, after, hentries, haround, hbuilt⟩
    have hinc := h.increasing
    have hrep := h.represents
    rw [hentries] at hinc hrep
    refine ⟨hbuilt.valid, ?_, ?_⟩
    · rw [hbuilt.entries, List.append_assoc]
      exact haround.increasing_put hinc v
    · rw [hbuilt.entries, List.append_assoc]
      exact haround.represents_put hrep v
  · rintro ⟨before, after, hentries, haround, hbuilt⟩
    have hinc := h.increasing
    have hrep := h.represents
    rw [hentries] at hinc hrep
    refine ⟨hbuilt.valid, ?_, ?_⟩
    · rw [hbuilt.entries, List.append_nil]
      exact haround.increasing_delete hinc
    · rw [hbuilt.entries, List.append_nil]
      exact haround.represents_delete hrep

theorem lookup_eq [LawfulEqCmp ord] (h : OrderedMap ord m t) (key : K) :
    t.lookup key ord = m key := by
  refine Option.ext fun v => ?_
  rw [← rankedFrom_map_snd key 0, h.represents, Option.map_eq_some_iff, List.mem_iff_getElem?]
  constructor
  · rintro ⟨⟨i, v⟩, hranked, rfl⟩
    obtain ⟨j, -, hj⟩ := (rankedFrom_eq_some h.valid h.increasing).mp hranked
    exact ⟨j, hj⟩
  · rintro ⟨j, hj⟩
    exact ⟨_, (rankedFrom_eq_some h.valid h.increasing).mpr ⟨j, rfl, hj⟩, rfl⟩

end OrderedMap

section Runs

variable {ord : K → K → Ordering} [TransCmp ord] [LawfulEqCmp ord] [DecidableEq K] [DecidableEq V]

theorem wp_apply {m : K → Option V} (update : Update K V) (h : OrderedMap ord m t)
    (hstored : t.StoredIn cells) :
    wp (update.apply ord t) (fun t' cells' => cells <+: cells' ∧ t'.StoredIn cells' ∧
      OrderedMap ord (update.onMap m) t') (fun _ => False) cells := by
  cases update with
  | insert key value =>
    rw [Update.apply, wp_bind]
    refine (wp_insert h.valid hstored h.increasing).imp ?_
    rintro ⟨_, t'⟩ cells' ⟨own, hchanged, -⟩
    exact ⟨hchanged.grows, hchanged.valid.2, h.changed.1 value hchanged⟩
  | remove key =>
    rw [Update.apply, wp_bind]
    refine (wp_remove h.valid hstored h.increasing).imp ?_
    rintro ⟨_, t'⟩ cells' ⟨own, hchanged, -⟩
    exact ⟨hchanged.grows, hchanged.valid.2, h.changed.2 hchanged⟩

/-- The versions so far are in memory, each in order. -/
def Versions (ord : K → K → Ordering) (maps : List (K → Option V))
    (versions cells : List (SharedOrder K V)) : Prop :=
  List.Forall₂ (fun m t => OrderedMap ord m t ∧ t.StoredIn cells) maps versions

theorem wp_runUpdates (updates : List (Nat × Update K V)) {maps : List (K → Option V)}
    {versions : List (SharedOrder K V)} (h : Versions ord maps versions cells) :
    wp (runUpdates ord updates versions) (fun versions' cells' =>
      Versions ord (mapsOf updates maps) versions' cells') (fun _ => False) cells := by
  induction updates generalizing maps versions cells with
  | nil => exact h
  | cons update updates ih =>
    obtain ⟨i, update⟩ := update
    have hversion : OrderedMap ord (maps.getD i fun _ => none) (versions.getD i nil) ∧
        (versions.getD i nil).StoredIn cells := by
      rcases Nat.lt_or_ge i versions.length with hi | hi
      · rw [List.getD_eq_getElem _ _ hi, List.getD_eq_getElem _ _ (h.length_eq ▸ hi)]
        exact (List.forall₂_iff_get.mp h).2 i (h.length_eq ▸ hi) hi
      · rw [List.getD_eq_default _ _ hi, List.getD_eq_default _ _ (h.length_eq ▸ hi)]
        exact ⟨⟨trivial, List.Pairwise.nil, fun _ _ => ⟨nofun, nofun⟩⟩, trivial⟩
    rw [runUpdates, wp_bind]
    refine (wp_apply update hversion.1 hversion.2).imp ?_
    rintro t cells₁ ⟨hgrows, hstored, hmap⟩
    refine ih (List.rel_append ?_ (.cons ⟨hmap, hstored⟩ .nil))
    exact h.imp fun m t ht => ⟨ht.1, ht.2.mono hgrows⟩

variable (ord) in
/-- Whatever the updates and whichever versions they start from, each version is a balanced tree
with the bindings of its map in order, where ranks and indices are inverse to each other, and two
versions compare equal exactly if their maps are equal. -/
theorem updates_keep_ordered_map (updates : List (Nat × Update K V)) :
    ∃ versions cells, runUpdates ord updates [] [] = .ok (versions, cells) ∧
      List.Forall₂ (fun m t => OrderedMap ord m t ∧ t.entries = t.toList ∧
        (∀ k v, m k = some v → ∃ i, t.rank k ord = some i ∧ t.getIndex i = some v) ∧
        ∀ i v, t.getIndex i = some v →
          ∃ k, t.rank k ord = some i ∧ m k = some v ∧ ∀ k', t.rank k' ord = some i → k' = k)
        (mapsOf updates []) versions ∧ ∀ (i j : Nat) (m m' : K → Option V) (t t' : SharedOrder K V),
        (mapsOf updates [])[i]? = some m → (mapsOf updates [])[j]? = some m' →
        versions[i]? = some t → versions[j]? = some t' →
          ∃ same, equal t t' = some same ∧ (same = true ↔ t.toList = t'.toList) ∧
            (same = true ↔ m = m') := by
  have hwp := wp_runUpdates updates (show Versions (V := V) ord [] [] [] from .nil)
  obtain ⟨versions, cells, hrun, hversions⟩ := hwp.exists_ok
  refine ⟨versions, cells, hrun, List.Forall₂.imp (fun m t h => ?_) hversions, ?_⟩
  · exact ⟨h.1, entries_eq h.1.valid, fun k v => h.1.exists_rank, fun i v => h.1.exists_key⟩
  · intro i j m m' t t' hm hm' ht ht'
    obtain ⟨m₁, hm₁, h, hstored⟩ := getElem?_of_forall₂ hversions ht
    obtain ⟨m₂, hm₂, h', hstored'⟩ := getElem?_of_forall₂ hversions ht'
    obtain rfl := Option.some.inj (hm₁.symm.trans hm)
    obtain rfl := Option.some.inj (hm₂.symm.trans hm')
    refine ⟨decide (t.toList = t'.toList), equal_eq h.valid h'.valid hstored hstored',
      decide_eq_true_iff, ?_⟩
    rw [decide_eq_true_eq, h.toList_eq_iff h']

/-- Three keys in order, where the last insertion rotates, and a removal at the root. -/
theorem updates_keep_ordered_map_ascending : ∃ versions cells, runUpdates compare
        [(0, .insert 1 "a"), (0, .insert 2 "b"), (1, .insert 3 "c"), (2, .remove 2)] [] [] =
          .ok (versions, cells) ∧ versions.length = 4 ∧ ∀ t ∈ versions, Valid t := by
  obtain ⟨versions, cells, hrun, hversions, -⟩ := updates_keep_ordered_map compare
    [(0, .insert 1 "a"), (0, .insert 2 "b"), (1, .insert 3 "c"), (2, .remove 2)]
  refine ⟨versions, cells, hrun, hversions.length_eq.symm, fun t ht => ?_⟩
  obtain ⟨m, -, h⟩ := exists_of_forall₂_right hversions ht
  exact h.1.valid

variable (ord) in
/-- In every version a search finds what the map has, along a path that is logarithmic in the
number of entries. -/
theorem updates_keep_search (updates : List (Nat × Update K V)) :
    ∃ versions cells, runUpdates ord updates [] [] = .ok (versions, cells) ∧
      List.Forall₂ (fun m t => (∀ k, t.lookup k ord = m k) ∧ Nat.fib (t.height + 2) ≤ t.len + 1)
        (mapsOf updates []) versions := by
  have hwp := wp_runUpdates updates (show Versions (V := V) ord [] [] [] from .nil)
  obtain ⟨versions, cells, hrun, hversions⟩ := hwp.exists_ok
  exact ⟨versions, cells, hrun,
    hversions.imp fun _ _ h => ⟨h.1.lookup_eq, fib_height_le h.1.valid⟩⟩

theorem updates_keep_search_ascending : ∃ versions cells, runUpdates compare
        [(0, .insert 1 "a"), (0, .insert 2 "b"), (1, .insert 3 "c"), (2, .remove 2)] [] [] =
          .ok (versions, cells) ∧ ∀ t ∈ versions, Nat.fib (t.height + 2) ≤ t.len + 1 := by
  obtain ⟨versions, cells, hrun, hversions⟩ := updates_keep_search compare
    [(0, .insert 1 "a"), (0, .insert 2 "b"), (1, .insert 3 "c"), (2, .remove 2)]
  refine ⟨versions, cells, hrun, fun t ht => ?_⟩
  obtain ⟨m, -, h⟩ := exists_of_forall₂_right hversions ht
  exact h.2

end Runs

end SharedOrder

end Fz.Inventory
