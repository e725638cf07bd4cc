import Fz.Pull.DirtyWitnessKeeps

/-!
# Runs of the dirty index

Between two calls the index is exact over the tree of the moment: it holds the marked members and
their ancestors.  Hence a search from the seed finds a marked member with no marked ancestor, and
going on from there in the order of the index comes past every other: what stands before the found
member is only its own ancestors, since the path to it goes down first children.
-/

namespace Fz.Pull

open Base Relation

variable {Key : Type} [DecidableEq Key]

namespace DirtyWitness

variable {seed key parent : Key} {parents : Parents Key} {marks : Finset Key}
  {w w' : DirtyWitness Key} {cs : List Key}

/-! ## What is indexed -/

theorem Shape.above {m k : Key}
    (h : Shape parents (fun _ => False) (fun _ => False) w.kids w.contains)
    (hunder : Under (fun k => parents.lookup k) m k) (hm : w.kids m = some cs) :
    ∃ ds, w.kids k = some ds := by
  induction hunder with
  | refl => exact ⟨cs, hm⟩
  | tail _ hstep ih =>
    obtain ⟨ds, hds⟩ := ih
    obtain ⟨es, hes, -⟩ := h.up hds id hstep
    exact ⟨es, hes⟩

theorem Shape.under_cases {m k : Key}
    (h : Shape parents (fun _ => False) (fun _ => False) w.kids w.contains)
    (hunder : Under (fun k => parents.lookup k) m k) {ds : List Key} (hm : w.kids m = some ds)
    (hk : w.kids k = some cs) : m = k ∨ ∃ c ∈ cs, Under (fun k => parents.lookup k) m c := by
  rcases ReflTransGen.cases_tail hunder with rfl | ⟨c, hmc, hck⟩
  · exact .inl rfl
  · obtain ⟨es, hes⟩ := Shape.above h hmc hm
    obtain ⟨fs, hfs, hmem⟩ := h.up hes id hck
    obtain rfl := Option.some.inj (hk.symm.trans hfs)
    exact .inr ⟨c, hmem, hmc⟩

theorem exists_depth (htree : Tree seed parents)
    (h : Shape parents (fun _ => False) (fun _ => False) w.kids w.contains)
    (hk : w.kids key = some cs) : ∃ n, Depth (fun k => parents.lookup k) key n := by
  obtain ⟨above, habove⟩ := h.member hk
  exact htree.grounded (k := key) (by rw [habove]; exact nofun)

theorem branch_induction (htree : Tree seed parents)
    (h : Shape parents (fun _ => False) (fun _ => False) w.kids w.contains) {P : Key → Prop}
    (step : ∀ k cs, w.kids k = some cs → (∀ c ∈ cs, P c) → P k) (hk : w.kids key = some cs) :
    P key := by
  obtain ⟨n, hn⟩ := exists_depth htree h hk
  induction hheight : parents.keys.card - n using Nat.strongRecOn generalizing key cs n with
  | ind height ih =>
    refine step key cs hk fun c hc => ?_
    obtain ⟨⟨ds, hds⟩, hup⟩ := h.child hk hc
    have hdepth : Depth (fun k => parents.lookup k) c (n + 1) := .child hup hn
    have hlt := depth_lt_fuel hdepth
    exact ih (parents.keys.card - (n + 1)) (by omega) hds (n + 1) hdepth rfl

theorem Indexed.exists_marked (htree : Tree seed parents)
    (h : Indexed seed parents (fun _ => False) marks w) (hk : w.kids key = some cs) :
    ∃ m ∈ marks, Under (fun k => parents.lookup k) m key := by
  refine branch_induction (P := fun k => ∃ m ∈ marks, Under (fun k => parents.lookup k) m k)
    htree h.shape (fun k cs hk ih => ?_) hk
  cases cs with
  | nil => exact ⟨k, h.marks.contains_iff.mp (h.shape.leaf hk id), .refl⟩
  | cons c cs =>
    obtain ⟨m, hm, hunder⟩ := ih c (.head _)
    exact ⟨m, hm, hunder.tail (h.shape.child hk (.head _)).2⟩

theorem Indexed.kids_of_mem (h : Indexed seed parents (fun _ => False) marks w)
    (hmem : key ∈ marks) : ∃ cs, w.kids key = some cs := by
  have hcontains := h.marks.contains_iff.mpr hmem
  cases hkids : w.kids key with
  | none =>
    rw [contains_of_none hkids] at hcontains
    cases hcontains
  | some cs => exact ⟨cs, rfl⟩

theorem Indexed.kids_iff (htree : Tree seed parents)
    (h : Indexed seed parents (fun _ => False) marks w) :
    (∃ cs, w.kids key = some cs) ↔ ∃ m ∈ marks, Under (fun k => parents.lookup k) m key := by
  constructor
  · rintro ⟨cs, hk⟩
    exact h.exists_marked htree hk
  · rintro ⟨m, hm, hunder⟩
    obtain ⟨ds, hds⟩ := h.kids_of_mem hm
    exact Shape.above h.shape hunder hds

theorem under_seed (htree : Tree seed parents) {n : Nat}
    (h : Depth (fun k => parents.lookup k) key n) : Under (fun k => parents.lookup k) key seed := by
  induction h with
  | root hroot =>
    obtain rfl := htree.root_eq hroot
    exact .refl
  | child hchild _ ih => exact .head hchild ih

/-! ## The search -/

theorem Indexed.ancestor (htree : Tree seed parents)
    (h : Indexed seed parents (fun _ => False) marks w) {a k : Key}
    (hunder : Under (fun k => parents.lookup k) k a) :
    ∀ {i : Nat}, w.active[i]? = some k → ∃ j ≤ i, w.active[j]? = some a := by
  induction hunder using ReflTransGen.head_induction_on with
  | refl => exact fun {i} hi => ⟨i, le_rfl, hi⟩
  | @head k p hstep _ ih =>
    intro i hi
    cases i with
    | zero =>
      rw [← List.head?_eq_getElem?] at hi
      have hseed := h.path.head k hi
      rw [hseed] at hstep
      exact nomatch htree.seed_root.symm.trans hstep
    | succ i =>
      obtain ⟨hlt, hget⟩ := List.getElem?_eq_some_iff.mp hi
      obtain ⟨-, cs, hcs⟩ := List.isChain_iff_getElem.mp h.path.chain i hlt
      rw [hget] at hcs
      have hup := (h.shape.child hcs (.head _)).2
      have heq : w.active[i] = p := Option.some.inj (Option.some.inj (hup.symm.trans hstep))
      obtain ⟨j, hj, hget'⟩ := ih (List.getElem?_eq_some_iff.mpr ⟨by omega, heq⟩)
      exact ⟨j, by omega, hget'⟩

theorem Indexed.clean (h : Indexed seed parents (fun _ => False) marks w) {i j : Nat} {a b : Key}
    (hij : i < j) (hi : w.active[i]? = some a) (hj : w.active[j]? = some b) : a ∉ marks := by
  obtain ⟨hlt, hget⟩ := List.getElem?_eq_some_iff.mp hi
  obtain ⟨hlt', -⟩ := List.getElem?_eq_some_iff.mp hj
  obtain ⟨hclean, -⟩ := List.isChain_iff_getElem.mp h.path.chain i (by omega)
  rw [hget] at hclean
  intro hmem
  rw [h.marks.contains_iff.mpr hmem] at hclean
  cases hclean

theorem Indexed.active_le (h : Indexed seed parents (fun _ => False) marks w) :
    w.active.length ≤ w.nodes.keys.card := by
  rw [← List.toFinset_card_of_nodup h.path.nodup]
  refine Finset.card_le_card fun a ha => ?_
  rw [Finmap.mem_keys, mem_nodes_iff]
  exact h.path.indexed a (List.mem_toFinset.mp ha)

theorem PathOnly.keys (h : PathOnly w w') : w'.nodes.keys = w.nodes.keys := by
  ext k
  rw [Finmap.mem_keys, Finmap.mem_keys, mem_nodes_iff, mem_nodes_iff, h.kids]

theorem firstLoop_spec (htree : Tree seed parents) : ∀ (fuel visits : Nat) {w : DirtyWitness Key},
    Indexed seed parents (fun _ => False) marks w → w.active ≠ [] →
    w.nodes.keys.card < fuel + w.active.length →
    ∃ found visits' w', firstLoop fuel visits w = some (some found, visits', w') ∧
      PathOnly w w' ∧ Indexed seed parents (fun _ => False) marks w' ∧
      w'.active.getLast? = some found ∧ found ∈ marks := by
  intro fuel
  induction fuel with
  | zero =>
    intro visits w h _ hfuel
    have := h.active_le
    omega
  | succ fuel ih =>
    intro visits w h hne hfuel
    obtain ⟨key, hlast⟩ := Option.ne_none_iff_exists'.mp (mt List.getLast?_eq_none_iff.mp hne)
    obtain ⟨cs, hcs⟩ := h.path.indexed key (List.mem_of_getLast? hlast)
    obtain ⟨node, hlookup, rfl⟩ := lookup_of_kids hcs
    have hcontains := contains_of_lookup hlookup
    cases hmarked : node.marked with
    | true =>
      rw [hmarked] at hcontains
      refine ⟨key, visits + 1, w, ?_, .refl w, h, hlast, h.marks.contains_iff.mp hcontains⟩
      simp only [firstLoop, hlast, hlookup, hmarked, if_true, Option.bind_eq_bind, Option.bind_some]
    | false =>
      rw [hmarked] at hcontains
      cases hchildren : node.children with
      | nil =>
        rw [hchildren] at hcs
        rw [h.shape.leaf hcs id] at hcontains
        cases hcontains
      | cons child rest =>
        rw [hchildren] at hcs
        obtain ⟨w₁, hrun, honly, hactive, h₁⟩ := h.descend_first htree hlast hcontains hcs
        have hfuel₁ : w₁.nodes.keys.card < fuel + w₁.active.length := by
          rw [honly.keys, hactive, List.length_append, List.length_singleton]
          omega
        obtain ⟨found, visits', w', hrun', honly', hw', hfound⟩ :=
          ih (visits + 1) h₁ (by rw [hactive]; simp) hfuel₁
        refine ⟨found, visits', w', ?_, honly.trans honly', hw', hfound⟩
        simp only [firstLoop, hlast, hlookup, hmarked, Bool.false_eq_true, if_false, hchildren,
          List.head?_cons, Option.bind_eq_bind, Option.bind_some, hrun, hrun']

theorem first_spec (htree : Tree seed parents) (h : Indexed seed parents (fun _ => False) marks w) :
    ∃ found visits w', w.first seed = some (found, visits, w') ∧ PathOnly w w' ∧
      Indexed seed parents (fun _ => False) marks w' ∧ (found = none ↔ marks = ∅) ∧
      ∀ key, found = some key → w'.active.getLast? = some key ∧ key ∈ marks := by
  by_cases hzero : w.marked = 0
  · rw [h.marks.count, Finset.card_eq_zero] at hzero
    refine ⟨none, 0, w, ?_, .refl w, h, iff_of_true rfl hzero, nofun⟩
    rw [first, isEmpty, h.marks.count, hzero]
    rfl
  · have hne : marks.Nonempty := by
      rw [h.marks.count, Finset.card_eq_zero] at hzero
      exact Finset.nonempty_iff_ne_empty.mpr hzero
    have hstart : ∃ w₁, (if w.active.isEmpty then w.descend seed else some w) = some w₁ ∧
        PathOnly w w₁ ∧ Indexed seed parents (fun _ => False) marks w₁ ∧ w₁.active ≠ [] := by
      cases hactive : w.active with
      | nil =>
        obtain ⟨m, hm⟩ := hne
        obtain ⟨cs, hcs⟩ := h.kids_of_mem hm
        obtain ⟨n, hn⟩ := exists_depth htree h.shape hcs
        obtain ⟨ds, hds⟩ := Shape.above h.shape (under_seed htree hn) hcs
        obtain ⟨w₁, hrun, honly, hactive₁, h₁⟩ := h.descend
          (by rw [hactive]; exact nofun) (fun _ => rfl) hds
          (by rw [hactive]; exact List.not_mem_nil)
        exact ⟨w₁, hrun, honly, h₁, by rw [hactive₁]; simp⟩
      | cons a active => exact ⟨w, rfl, .refl w, h, by rw [hactive]; exact List.cons_ne_nil _ _⟩
    obtain ⟨w₁, hrun, honly, h₁, hactive⟩ := hstart
    have hpos := List.length_pos_iff.mpr hactive
    obtain ⟨found, visits, w', hrun', honly', h', hlast, hmem⟩ :=
      firstLoop_spec htree w₁.nodes.keys.card 0 h₁ hactive (Nat.lt_add_of_pos_right hpos)
    refine ⟨some found, visits, w', ?_, honly.trans honly', h',
      iff_of_false nofun hne.ne_empty, fun key hkey => ?_⟩
    · rw [first, isEmpty, decide_eq_false hzero]
      simp only [Bool.false_eq_true, if_false, hrun, Option.bind_some, hrun']
    · obtain rfl := Option.some.inj hkey
      exact ⟨hlast, hmem⟩

/-! ## Going on from the member found -/

/-- The nodes that are visited from a cursor on, each with what is below it. -/
inductive Visits (w : DirtyWitness Key) (parents : Parents Key) : Option Key → List Key → Prop where
  | done : Visits w parents none []
  | step {key : Key} {cursor : Option Key} {rest : List Key} :
      w.next key true parents = some cursor → Visits w parents cursor rest →
      Visits w parents (some key) (key :: rest)

/-- Where the walk goes on when all below a node is done. -/
def after (w : DirtyWitness Key) (parents : Parents Key) (key : Key) : Option (Option Key) :=
  w.nextLoop parents parents.keys.card key

theorem nextLoop_fuel {n : Nat} (hdepth : Depth (fun k => parents.lookup k) key n) :
    ∀ {fuel fuel' : Nat}, n < fuel → n < fuel' →
      w.nextLoop parents fuel key = w.nextLoop parents fuel' key := by
  induction hdepth with
  | root hroot =>
    intro fuel fuel' hfuel hfuel'
    obtain ⟨fuel, rfl⟩ := Nat.exists_eq_succ_of_ne_zero (Nat.ne_of_gt hfuel)
    obtain ⟨fuel', rfl⟩ := Nat.exists_eq_succ_of_ne_zero (Nat.ne_of_gt hfuel')
    simp only [nextLoop, hroot]
  | child hchild _ ih =>
    intro fuel fuel' hfuel hfuel'
    obtain ⟨fuel, rfl⟩ := Nat.exists_eq_succ_of_ne_zero (Nat.ne_of_gt (Nat.zero_lt_of_lt hfuel))
    obtain ⟨fuel', rfl⟩ := Nat.exists_eq_succ_of_ne_zero (Nat.ne_of_gt (Nat.zero_lt_of_lt hfuel'))
    have hrest := @ih fuel fuel' (by omega) (by omega)
    simp only [nextLoop, hchild, hrest]

theorem after_seed (htree : Tree seed parents) : w.after parents seed = some none := by
  obtain ⟨n, hn⟩ := htree.grounded htree.seed_member
  have hfuel := depth_lt_fuel hn
  obtain ⟨fuel, hfuel'⟩ := Nat.exists_eq_succ_of_ne_zero (Nat.ne_of_gt (Nat.zero_lt_of_lt hfuel))
  simp only [after, hfuel', nextLoop, htree.seed_root]

theorem after_child (htree : Tree seed parents)
    (h : Shape parents (fun _ => False) (fun _ => False) w.kids w.contains)
    (front : List Key) {back : List Key} {c : Key} (hk : w.kids key = some (front ++ c :: back)) :
    w.after parents c =
      match back with
      | sibling :: _ => some (some sibling)
      | [] => w.after parents key := by
  obtain ⟨⟨ds, hds⟩, hup⟩ := h.child hk (List.mem_append_right front (.head _))
  obtain ⟨n, hn⟩ := exists_depth htree h hk
  have hfuel := depth_lt_fuel (.child hup hn)
  obtain ⟨fuel, hfuel'⟩ := Nat.exists_eq_succ_of_ne_zero (Nat.ne_of_gt (Nat.zero_lt_of_lt hfuel))
  have hnot : c ∉ front := by
    have hnodup := h.nodup hk
    intro hmem
    exact (List.nodup_append.mp hnodup).2.2 c hmem c (.head _) rfl
  obtain ⟨node, hlookup, hchildren⟩ := lookup_of_kids hk
  simp only [after, hfuel', nextLoop, hup, hlookup, hchildren, Option.bind_eq_bind,
    Option.bind_some, idxOf?_append hnot back]
  have hsibling : (front ++ c :: back)[front.length + 1]? = back.head? := by
    rw [List.getElem?_append_right (Nat.le_succ _), Nat.succ_sub (Nat.le_refl _), Nat.sub_self,
      List.getElem?_cons_succ, List.head?_eq_getElem?]
  rw [hsibling]
  cases back with
  | cons sibling back => rfl
  | nil =>
    show w.nextLoop parents fuel key = w.nextLoop parents fuel.succ key
    exact nextLoop_fuel hn (by omega) (by omega)

theorem next_of_child {c : Key} (hk : w.kids key = some (c :: cs)) :
    w.next key true parents = some (some c) := by
  obtain ⟨node, hlookup, hchildren⟩ := lookup_of_kids hk
  simp only [next, if_true, hlookup, Option.bind_eq_bind, Option.bind_some, hchildren,
    List.head?_cons]

theorem next_of_leaf (hk : w.kids key = some []) :
    w.next key true parents = w.after parents key := by
  obtain ⟨node, hlookup, hchildren⟩ := lookup_of_kids hk
  simp only [next, if_true, hlookup, Option.bind_eq_bind, Option.bind_some, hchildren,
    List.head?_nil, after]

/-- The walk comes past all that is indexed under a node, and then goes on behind it. -/
def Covers (w : DirtyWitness Key) (parents : Parents Key) (key : Key) : Prop :=
  ∀ cursor rest, w.after parents key = some cursor → Visits w parents cursor rest →
    ∃ visited, Visits w parents (some key) (visited ++ rest) ∧
      ∀ m ds, w.kids m = some ds → Under (fun k => parents.lookup k) m key → m ∈ visited

theorem visits_children (htree : Tree seed parents)
    (h : Shape parents (fun _ => False) (fun _ => False) w.kids w.contains) {cursor : Option Key}
    {rest : List Key} (hafter : w.after parents key = some cursor)
    (hrest : Visits w parents cursor rest) : ∀ back front : List Key,
      w.kids key = some (front ++ back) → (∀ c ∈ back, Covers w parents c) →
      ∃ visited, Visits w parents (back.head?.orElse fun _ => cursor) (visited ++ rest) ∧
        ∀ c ∈ back, ∀ m ds, w.kids m = some ds → Under (fun k => parents.lookup k) m c →
          m ∈ visited := by
  intro back
  induction back with
  | nil =>
    exact fun _ _ _ => ⟨[], hrest, nofun⟩
  | cons c back ih =>
    intro front hk hcovers
    obtain ⟨hc, hback⟩ := List.forall_mem_cons.mp hcovers
    obtain ⟨visited, hvisits, hall⟩ := ih (front ++ [c]) (by simpa using hk) hback
    have hnext : w.after parents c = some (back.head?.orElse fun _ => cursor) := by
      rw [after_child htree h front hk]
      cases back with
      | nil => exact hafter
      | cons sibling back => rfl
    obtain ⟨below, hbelow, hunder⟩ := hc _ _ hnext hvisits
    refine ⟨below ++ visited, by rw [List.append_assoc]; exact hbelow, fun c' hc' m ds hm hup => ?_⟩
    rcases List.mem_cons.mp hc' with rfl | hc'
    · exact List.mem_append_left visited (hunder m ds hm hup)
    · exact List.mem_append_right below (hall c' hc' m ds hm hup)

theorem covers (htree : Tree seed parents)
    (h : Shape parents (fun _ => False) (fun _ => False) w.kids w.contains)
    (hk : w.kids key = some cs) : Covers w parents key := by
  refine branch_induction (P := Covers w parents) htree h (fun k cs hk ih => ?_) hk
  intro cursor rest hafter hrest
  obtain ⟨visited, hvisits, hall⟩ := visits_children htree h hafter hrest cs [] hk ih
  have hnext : w.next k true parents = some (cs.head?.orElse fun _ => cursor) := by
    cases cs with
    | nil => rw [next_of_leaf hk, hafter]; rfl
    | cons c cs => exact next_of_child hk
  refine ⟨k :: visited, .step hnext hvisits, fun m ds hm hup => ?_⟩
  rcases Shape.under_cases h hup hm hk with rfl | ⟨c, hc, hup⟩
  · exact .head _
  · exact .tail _ (hall c hc m ds hm hup)

/-- Behind a node on the path comes all that does not stand under it or above it. -/
theorem Indexed.visits_behind (htree : Tree seed parents)
    (h : Indexed seed parents (fun _ => False) marks w) : ∀ {i : Nat} {a : Key},
      w.active[i]? = some a → ∃ cursor rest, w.after parents a = some cursor ∧
        Visits w parents cursor rest ∧ ∀ m ds, w.kids m = some ds →
          m ∈ rest ∨ Under (fun k => parents.lookup k) m a ∨ m ∈ w.active.take i := by
  intro i
  induction i with
  | zero =>
    intro a ha
    rw [← List.head?_eq_getElem?] at ha
    obtain rfl := h.path.head a ha
    refine ⟨none, [], after_seed htree, .done, fun m ds hm => .inr (.inl ?_)⟩
    obtain ⟨n, hn⟩ := exists_depth htree h.shape hm
    exact under_seed htree hn
  | succ i ih =>
    intro a ha
    obtain ⟨hlt, hget⟩ := List.getElem?_eq_some_iff.mp ha
    obtain ⟨-, cs, hcs⟩ := List.isChain_iff_getElem.mp h.path.chain i hlt
    have hp : w.active[i]? = some w.active[i] := List.getElem?_eq_getElem (by omega)
    rw [hget] at hcs
    obtain ⟨cursor, rest, hafter, hrest, hall⟩ := ih hp
    obtain ⟨visited, hvisits, hback⟩ :=
      visits_children htree h.shape hafter hrest cs [a] hcs fun c hc => by
        obtain ⟨⟨ds, hds⟩, -⟩ := h.shape.child hcs (.tail _ hc)
        exact covers htree h.shape hds
    refine ⟨_, _, ?_, hvisits, fun m ds hm => ?_⟩
    · rw [after_child htree h.shape [] hcs]
      cases cs with
      | nil => exact hafter
      | cons sibling cs => rfl
    · have htake : w.active.take (i + 1) = w.active.take i ++ [w.active[i]] := by
        rw [List.take_add_one, hp]
        rfl
      rw [htake]
      rcases hall m ds hm with hmem | hup | hmem
      · exact .inl (List.mem_append_right visited hmem)
      · rcases Shape.under_cases h.shape hup hm hcs with heq | ⟨c, hc, hup⟩
        · exact .inr (.inr (List.mem_append_right _ (List.mem_singleton.mpr heq)))
        · rcases List.mem_cons.mp hc with rfl | hc
          · exact .inr (.inl hup)
          · exact .inl (List.mem_append_left rest (hback c hc m ds hm hup))
      · exact .inr (.inr (List.mem_append_left _ hmem))

theorem Indexed.visits_all (htree : Tree seed parents)
    (h : Indexed seed parents (fun _ => False) marks w) (hlast : w.active.getLast? = some key) :
    ∃ visited, Visits w parents (some key) visited ∧ ∀ m ∈ marks, m ∈ visited := by
  rw [List.getLast?_eq_getElem?] at hlast
  obtain ⟨cursor, rest, hafter, hrest, hall⟩ := h.visits_behind htree hlast
  obtain ⟨cs, hcs⟩ := h.path.indexed key (List.mem_of_getElem? hlast)
  obtain ⟨visited, hvisits, hunder⟩ := covers htree h.shape hcs cursor rest hafter hrest
  refine ⟨_, hvisits, fun m hm => ?_⟩
  obtain ⟨ds, hds⟩ := h.kids_of_mem hm
  rcases hall m ds hds with hmem | hup | hmem
  · exact List.mem_append_right visited hmem
  · exact List.mem_append_left rest (hunder m ds hds hup)
  · obtain ⟨i, hi⟩ := List.getElem?_of_mem hmem
    rw [List.getElem?_take] at hi
    split at hi
    · exact absurd hm (h.clean ‹_› hi hlast)
    · exact nomatch hi

end DirtyWitness

/-! ## Runs -/

/-- The tree, the members that were marked and not cleared since, and the index kept for them. -/
structure Demand (Key : Type) where
  parents : Parents Key
  marks : Finset Key
  index : DirtyWitness Key

/-- A caller marks a member or clears one, moves a member in the tree, forgets all marks, looks for
the first marked member, or changes the tree where nothing is indexed. -/
inductive Call (Key : Type) where
  | insert (key : Key)
  | remove (key : Key)
  | reparent (key parent : Key)
  | clear
  | first
  | retree (parents : Parents Key)

namespace Demand

def call (seed : Key) (d : Demand Key) : Call Key → Option (Demand Key)
  | .insert key => do
    let (index, _) ← d.index.insert key d.parents
    some { d with marks := insert key d.marks, index := index }
  | .remove key => do
    let (index, _) ← d.index.remove key d.parents
    some { d with marks := d.marks.erase key, index := index }
  | .reparent key parent => do
    let above ← d.parents.lookup key
    let previous ← above
    let parents := d.parents.insert key (some parent)
    let index ← d.index.reparent key previous parent parents
    some { d with parents := parents, index := index }
  | .clear => some { d with marks := ∅, index := d.index.clear }
  | .first => do
    let (_, _, index) ← d.index.first seed
    some { d with index := index }
  | .retree parents => some { d with parents := parents }

/-- What a call asks of its caller. -/
def Allowed (seed : Key) (d : Demand Key) : Call Key → Prop
  | .insert key => key ∈ d.parents
  | .reparent key parent => (∃ previous, d.parents.lookup key = some (some previous)) ∧
      Tree seed (d.parents.insert key (some parent))
  | .retree parents => Tree seed parents ∧
      ∀ key ∈ d.index.nodes, parents.lookup key = d.parents.lookup key
  | _ => True

/-- The states that some run of calls leads to. -/
inductive Reaches (seed : Key) : Demand Key → Prop where
  | start {parents : Parents Key} : Tree seed parents → Reaches seed ⟨parents, ∅, .default⟩
  | step {d d' : Demand Key} {c : Call Key} : Reaches seed d → d.Allowed seed c →
      d.call seed c = some d' → Reaches seed d'

/-- The index is exact, no call fails, and the searches find what is marked. -/
structure Exact (seed : Key) (d : Demand Key) : Prop where
  nodes : ∀ k, k ∈ d.index.nodes ↔ ∃ m ∈ d.marks, Under (fun k => d.parents.lookup k) m k
  children : ∀ k node, d.index.nodes.lookup k = some node → node.children.Nodup ∧
    ∀ c, c ∈ node.children ↔ c ∈ d.index.nodes ∧ d.parents.lookup c = some (some k)
  contains : ∀ k, d.index.contains k = true ↔ k ∈ d.marks
  marked : d.index.marked = d.marks.card
  first : ∃ found visits index, d.index.first seed = some (found, visits, index) ∧
    (found = none ↔ d.marks = ∅) ∧ ∀ key, found = some key → key ∈ d.marks ∧
      (∀ a ∈ d.marks, Under (fun k => d.parents.lookup k) key a → a = key) ∧
      ∃ visited, index.Visits d.parents (some key) visited ∧ ∀ m ∈ d.marks, m ∈ visited
  never_fails : ∀ c, d.Allowed seed c → ∃ d', d.call seed c = some d'

variable {seed : Key} {d d' : Demand Key} {c : Call Key}

/-- What holds between two calls. -/
structure Sound (seed : Key) (d : Demand Key) : Prop where
  tree : Tree seed d.parents
  indexed : d.index.Indexed seed d.parents (fun _ => False) d.marks

theorem Sound.start {parents : Parents Key} (htree : Tree seed parents) :
    Sound seed ⟨parents, ∅, .default⟩ := by
  have hkids : ∀ k, DirtyWitness.kids (.default : DirtyWitness Key) k = none := fun k => by
    rw [DirtyWitness.kids, DirtyWitness.default, Finmap.lookup_empty]
    rfl
  refine ⟨htree, ⟨?_, .nil, ⟨fun {k} => ?_, rfl⟩⟩⟩
  · exact
      { member := fun h => by cases (hkids _).symm.trans h
        child := fun h => by cases (hkids _).symm.trans h
        nodup := fun h => by cases (hkids _).symm.trans h
        up := fun h => by cases (hkids _).symm.trans h
        leaf := fun h => by cases (hkids _).symm.trans h }
  · rw [DirtyWitness.contains_of_none (hkids k)]
    exact iff_of_false (by rintro ⟨⟩) (Finset.notMem_empty k)

theorem Sound.call (h : Sound seed d) (hc : d.Allowed seed c) :
    ∃ d', d.call seed c = some d' ∧ Sound seed d' := by
  cases c with
  | insert key =>
    obtain ⟨w, hrun, hw⟩ := DirtyWitness.insert_spec h.tree h.indexed hc
    exact ⟨⟨d.parents, insert key d.marks, w⟩, by rw [Demand.call, hrun]; rfl, h.tree, hw⟩
  | remove key =>
    obtain ⟨w, hrun, hw⟩ := DirtyWitness.remove_spec key h.tree h.indexed
    exact ⟨⟨d.parents, d.marks.erase key, w⟩, by rw [Demand.call, hrun]; rfl, h.tree, hw⟩
  | reparent key parent =>
    obtain ⟨⟨previous, hprevious⟩, htree⟩ := hc
    obtain ⟨w, hrun, hw⟩ := DirtyWitness.reparent_spec h.tree htree hprevious
      (Finmap.lookup_insert _) (fun x hx => Finmap.lookup_insert_of_ne _ hx) h.indexed
    refine ⟨⟨d.parents.insert key (some parent), d.marks, w⟩, ?_, htree, hw⟩
    rw [Demand.call, hprevious]
    simp only [Option.bind_eq_bind, Option.bind_some, hrun]
  | clear => exact ⟨⟨d.parents, ∅, .default⟩, rfl, .start h.tree⟩
  | first =>
    obtain ⟨found, visits, w, hrun, -, hw, -⟩ := DirtyWitness.first_spec h.tree h.indexed
    exact ⟨⟨d.parents, d.marks, w⟩, by rw [Demand.call, hrun]; rfl, h.tree, hw⟩
  | retree parents =>
    obtain ⟨htree, hsame⟩ := hc
    refine ⟨⟨parents, d.marks, d.index⟩, rfl, htree, h.indexed.shape.retree fun k cs hk => ?_,
      h.indexed.path, h.indexed.marks⟩
    exact hsame k (DirtyWitness.mem_nodes_iff.mpr ⟨cs, hk⟩)

theorem Reaches.sound (h : Reaches seed d) : Sound seed d := by
  induction h with
  | start htree => exact .start htree
  | step _ hc hrun ih =>
    obtain ⟨d', hrun', hd'⟩ := ih.call hc
    obtain rfl := Option.some.inj (hrun'.symm.trans hrun)
    exact hd'

/-- In every state that a run reaches, the index holds exactly the marked members and their
ancestors, and the cached path makes no search skip one or fail. -/
theorem Reaches.exact (h : Reaches seed d) : Exact seed d := by
  have hd := h.sound
  refine ⟨fun k => ?_, fun k node hlookup => ?_, fun k => hd.indexed.marks.contains_iff,
    hd.indexed.marks.count, ?_, fun c hc => ?_⟩
  · rw [DirtyWitness.mem_nodes_iff]
    exact hd.indexed.kids_iff hd.tree
  · have hkids := DirtyWitness.kids_of_lookup hlookup
    refine ⟨hd.indexed.shape.nodup hkids, fun c => ?_⟩
    rw [DirtyWitness.mem_nodes_iff]
    constructor
    · exact hd.indexed.shape.child hkids
    · rintro ⟨⟨cs, hcs⟩, hup⟩
      obtain ⟨ds, hds, hmem⟩ := hd.indexed.shape.up hcs id hup
      rw [hkids] at hds
      cases hds
      exact hmem
  · obtain ⟨found, visits, w, hrun, -, hw, hnone, hfound⟩ :=
      DirtyWitness.first_spec hd.tree hd.indexed
    refine ⟨found, visits, w, hrun, hnone, fun key hkey => ?_⟩
    obtain ⟨hlast, hmem⟩ := hfound key hkey
    refine ⟨hmem, fun a ha hunder => ?_, hw.visits_all hd.tree hlast⟩
    rw [List.getLast?_eq_getElem?] at hlast
    obtain ⟨j, hj, hget⟩ := hw.ancestor hd.tree hunder hlast
    rcases Nat.lt_or_eq_of_le hj with hlt | rfl
    · exact absurd ha (hw.clean hlt hget hlast)
    · exact Option.some.inj (hget.symm.trans hlast)
  · obtain ⟨d', hrun, -⟩ := hd.call hc
    exact ⟨d', hrun⟩

/-- A tree of a node and its child. -/
def pair (seed child : Key) : Parents Key :=
  Finmap.insert (β := fun _ => Option Key) child (some seed)
    (Finmap.insert (β := fun _ => Option Key) seed none ∅)

theorem tree_pair {child : Key} (hne : child ≠ seed) : Tree seed (pair seed child) := by
  have hseed : Tree seed (Finmap.insert (β := fun _ => Option Key) seed none ∅) :=
    Witness.single (Finmap.lookup_insert _) fun x hx => by
      rw [Finmap.lookup_insert_of_ne _ hx, Finmap.lookup_empty]
  refine hseed.attach (p := seed) (Finmap.lookup_eq_none.mpr ?_) ?_ trivial
    (Finmap.lookup_insert _) fun x hx => Finmap.lookup_insert_of_ne _ hx
  · rw [Finmap.mem_insert]
    exact fun h => h.elim hne Finmap.notMem_empty
  · rw [Finmap.lookup_insert]
    exact nofun

theorem exact_marked_child :
    ∃ d : Demand Nat, d.marks = {1} ∧ d.index.active = [0, 1] ∧ Exact 0 d := by
  have hstart := Reaches.start (tree_pair (by decide : (1 : Nat) ≠ 0))
  obtain ⟨d, hinsert⟩ : ∃ d, Demand.call 0 ⟨pair 0 1, ∅, .default⟩ (.insert 1) = some d := ⟨_, rfl⟩
  have hmarked := hstart.step (c := .insert 1) (show 1 ∈ pair 0 1 by decide) hinsert
  cases hinsert
  exact ⟨_, rfl, rfl, (hmarked.step (c := .first) trivial rfl).exact⟩

end Demand

end Fz.Pull
