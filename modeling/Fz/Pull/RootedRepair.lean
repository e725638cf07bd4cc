import Fz.Pull.Rooted

/-!
# Repairing a rooted set

`RootedProducts.Tree` says that the parent pointers of a rooted set are a witness along some edges
and that the child index is their inverse.  Attaching, moving a key to another parent and cutting
off a subtree keep it.  `Moved` says what one repair does: the keys whose membership moved are
noted, and an edge between two keys that were both reached does not lead out afterwards.  This is
all that later proofs use of `attach` and `removeEdge`.
-/

namespace Fz.Pull

open Relation
open Base (sorted mem_sorted length_sorted)

variable {Key Value : Type} [LinearOrder Key]

theorem mem_parents {rooted : RootedProducts Key} {k : Key} :
    k ∈ rooted.parents ↔ rooted.parents.lookup k ≠ none :=
  Finmap.lookup_eq_none.not_left.symm

/-- The parent pointers are a witness along the edges `E`, and the child index is their inverse. -/
structure RootedProducts.Tree (E : Key → Key → Prop) (rooted : RootedProducts Key) : Prop where
  witness : Base.Witness E rooted.seed fun k => rooted.parents.lookup k
  children : ∀ {p k}, k ∈ rooted.children p ↔ rooted.parents.lookup k = some (some p)

namespace RootedProducts

variable {memo : ProductMemo Key Value} {E E' : Key → Key → Prop} {rooted : RootedProducts Key}
  {key p : Key}

theorem Tree.imp (h : rooted.Tree E)
    (hE : ∀ {k p}, rooted.parents.lookup k = some (some p) → E p k → E' p k) : rooted.Tree E' :=
  ⟨h.witness.imp hE, h.children⟩

theorem Tree.parent_mem (h : rooted.Tree E) {k : Key}
    (hk : rooted.parents.lookup k = some (some p)) : p ∈ rooted.parents :=
  mem_parents.mpr (h.witness.parent_member hk)

theorem Tree.seed_mem (h : rooted.Tree E) : rooted.seed ∈ rooted.parents :=
  mem_parents.mpr h.witness.seed_member

theorem Tree.mem_reach (h : rooted.Tree E) {k : Key} (hk : k ∈ rooted.parents) :
    ReflTransGen E rooted.seed k :=
  h.witness.reach (mem_parents.mp hk)

/-! ## Attaching -/

theorem mem_enter {parent : Option Key} {k : Key} :
    k ∈ (rooted.enter key parent).parents ↔ k = key ∨ k ∈ rooted.parents :=
  Finmap.mem_insert

theorem Tree.enter (h : rooted.Tree E) (hkey : key ∉ rooted.parents) (hp : p ∈ rooted.parents)
    (hedge : E p key) : (rooted.enter key (some p)).Tree E := by
  have hself : (rooted.enter key (some p)).parents.lookup key = some (some p) :=
    Finmap.lookup_insert _
  have hother : ∀ x, x ≠ key →
      (rooted.enter key (some p)).parents.lookup x = rooted.parents.lookup x :=
    fun x hx => Finmap.lookup_insert_of_ne _ hx
  refine ⟨h.witness.attach (Finmap.lookup_eq_none.mpr hkey) (mem_parents.mp hp) hedge hself hother,
    fun {q k} => ?_⟩
  show k ∈ Function.update rooted.children p (insert key (rooted.children p)) q ↔ _
  rcases eq_or_ne k key with rfl | hk
  · rw [hself, Option.some.injEq, Option.some.injEq]
    rcases eq_or_ne q p with rfl | hq
    · rw [Function.update_self]
      exact iff_of_true (Finset.mem_insert_self _ _) rfl
    · rw [Function.update_of_ne hq, h.children, Finmap.lookup_eq_none.mpr hkey]
      exact iff_of_false nofun (Ne.symm hq)
  · rw [hother k hk, ← h.children]
    rcases eq_or_ne q p with rfl | hq
    · rw [Function.update_self, Finset.mem_insert, or_iff_right hk]
    · rw [Function.update_of_ne hq]

/-- What attaching keys does to a rooted set. -/
structure Attached (memo : ProductMemo Key Value) (E : Key → Key → Prop)
    (rooted : RootedProducts Key) (out : RootedProducts Key × Finset Key) : Prop where
  tree : out.1.Tree E
  seed : out.1.seed = rooted.seed
  members : ∀ k, k ∈ out.1.parents ↔ k ∈ rooted.parents ∨ k ∈ out.2
  fresh : ∀ k ∈ out.2, k ∉ rooted.parents
  changes : out.1.changes = rooted.changes ∪ out.2
  closed : ∀ x ∈ out.2, ∀ y ∈ memo.membership x, y ∈ out.1.parents

/-- The invariant of the search: what is left to enter has a parent that is there, and every edge of
an entered key is followed or left. -/
structure Attaching (memo : ProductMemo Key Value) (E : Key → Key → Prop)
    (rooted : RootedProducts Key) (key : Key) (pending : List (Key × Option Key))
    (s : RootedProducts Key × Finset Key) : Prop where
  tree : s.1.Tree E
  seed : s.1.seed = rooted.seed
  members : ∀ k, k ∈ s.1.parents ↔ k ∈ rooted.parents ∨ k ∈ s.2
  fresh : ∀ k ∈ s.2, k ∉ rooted.parents
  changes : s.1.changes = rooted.changes ∪ s.2
  supported : ∀ item ∈ pending, ∃ p, item.2 = some p ∧ p ∈ s.1.parents ∧ E p item.1
  closed : ∀ x ∈ s.2, ∀ y ∈ memo.membership x, y ∈ s.1.parents ∨ y ∈ pending.map Prod.fst
  entered : key ∈ s.1.parents ∨ key ∈ pending.map Prod.fst

variable {s : RootedProducts Key × Finset Key}

variable {pending : List (Key × Option Key)}

theorem Attaching.skip {parent : Option Key} {k : Key}
    (h : Attaching memo E rooted key ((k, parent) :: pending) s) (hseen : k ∈ s.1.parents) :
    Attaching memo E rooted key pending s where
  tree := h.tree
  seed := h.seed
  members := h.members
  fresh := h.fresh
  changes := h.changes
  supported item hitem := h.supported item (List.mem_cons_of_mem _ hitem)
  closed x hx y hy := by
    rcases h.closed x hx y hy with hmem | hmem
    · exact .inl hmem
    · rcases List.mem_cons.mp hmem with rfl | hmem
      · exact .inl hseen
      · exact .inr hmem
  entered := by
    rcases h.entered with hmem | hmem
    · exact .inl hmem
    · rcases List.mem_cons.mp hmem with rfl | hmem
      · exact .inl hseen
      · exact .inr hmem

theorem Attaching.visit {parent : Option Key} {k : Key}
    (hE : ∀ {x y}, y ∈ memo.membership x → E x y)
    (h : Attaching memo E rooted key ((k, parent) :: pending) s) (hnew : k ∉ s.1.parents) :
    Attaching memo E rooted key
      ((sorted (memo.membership k)).map (fun child => (child, some k)) ++ pending)
      (s.1.enter k parent, insert k s.2) := by
  obtain ⟨p, hp, hmem, hedge⟩ := h.supported (k, parent) List.mem_cons_self
  obtain rfl : parent = some p := hp
  have hold : k ∉ rooted.parents := fun hk => hnew ((h.members k).mpr (.inl hk))
  have hfollowed : ∀ y, y ∈ s.1.parents ∨ y ∈ ((k, some p) :: pending).map Prod.fst →
      y ∈ (s.1.enter k (some p)).parents ∨ y ∈ ((sorted (memo.membership k)).map
        (fun child => (child, some k)) ++ pending).map Prod.fst := by
    rintro y (hy | hy)
    · exact .inl (mem_enter.mpr (.inr hy))
    · rcases List.mem_cons.mp hy with rfl | hy
      · exact .inl (mem_enter.mpr (.inl rfl))
      · rw [List.map_append]
        exact .inr (List.mem_append_right _ hy)
  refine ⟨h.tree.enter hnew hmem hedge, h.seed, fun x => ?_, fun x hx => ?_, ?_,
    fun item hitem => ?_, fun x hx y hy => ?_, hfollowed key h.entered⟩
  · rw [mem_enter, h.members, Finset.mem_insert]
    tauto
  · rcases Finset.mem_insert.mp hx with rfl | hx
    · exact hold
    · exact h.fresh x hx
  · show insert k s.1.changes = _
    rw [h.changes, Finset.union_insert]
  · rcases List.mem_append.mp hitem with hitem | hitem
    · obtain ⟨child, hchild, rfl⟩ := List.mem_map.mp hitem
      exact ⟨k, rfl, mem_enter.mpr (.inl rfl), hE (mem_sorted.mp hchild)⟩
    · obtain ⟨q, hq, hmem, hedge⟩ := h.supported item (List.mem_cons_of_mem _ hitem)
      exact ⟨q, hq, mem_enter.mpr (.inr hmem), hedge⟩
  · rcases Finset.mem_insert.mp hx with rfl | hx
    · refine .inr ?_
      rw [List.map_append, List.map_map]
      exact List.mem_append_left _ (List.mem_map.mpr ⟨y, mem_sorted.mpr hy, rfl⟩)
    · exact hfollowed y (h.closed x hx y hy)

theorem membership_eq_empty (hk : key ∉ memo.entries.keys) : memo.membership key = ∅ := by
  rw [ProductMemo.membership, Finmap.lookup_eq_none.mpr fun h => hk (Finmap.mem_keys.mpr h)]
  rfl

/-- The edges of the keys that are not reached yet. -/
def edgesLeft (memo : ProductMemo Key Value) (rooted : RootedProducts Key) : Nat :=
  ∑ x ∈ memo.entries.keys \ rooted.parents.keys, (memo.membership x).card

theorem edgesLeft_enter {parent : Option Key} (hkey : key ∉ rooted.parents) :
    (memo.membership key).card + edgesLeft memo (rooted.enter key parent) ≤
      edgesLeft memo rooted := by
  have hkeys : (rooted.enter key parent).parents.keys = insert key rooted.parents.keys := by
    ext k
    rw [Finmap.mem_keys, mem_enter, Finset.mem_insert, Finmap.mem_keys]
  unfold edgesLeft
  rw [hkeys]
  have hweight : key ∉ memo.entries.keys → (memo.membership key).card = 0 := fun h => by
    rw [membership_eq_empty h, Finset.card_empty]
  have hvisited : key ∉ rooted.parents.keys := fun h => hkey (Finmap.mem_keys.mp h)
  exact @Base.sum_left_pays _ _ memo.entries.keys _ (fun x => (memo.membership x).card) key
    hvisited hweight

theorem edgesLeft_le : edgesLeft memo rooted ≤ memo.edgeCount :=
  Finset.sum_le_sum_of_subset Finset.sdiff_subset

theorem attaching_loop (hE : ∀ {x y}, y ∈ memo.membership x → E x y) {fuel : Nat}
    (hfuel : pending.length + edgesLeft memo s.1 ≤ fuel)
    (h : Attaching memo E rooted key pending s) :
    Attaching memo E rooted key [] (Base.worklist (fun s item => item.1 ∈ s.1.parents)
      (fun s item => (s.1.enter item.1 item.2, insert item.1 s.2))
      (fun item => (sorted (memo.membership item.1)).map fun child => (child, some item.1))
      fuel pending s) := by
  refine Base.worklist_rule (Attaching memo E rooted key) (fun s => edgesLeft memo s.1)
    (fun {item pending s} hseen h => h.skip (of_decide_eq_true hseen))
    (fun {item pending s} hseen h => ?_) hfuel h
  have hnew := of_decide_eq_false hseen
  refine ⟨h.visit hE hnew, ?_⟩
  rw [List.length_map, length_sorted]
  exact edgesLeft_enter hnew

theorem Attaching.done
    (h : Attaching memo E rooted key [] s) : Attached memo E rooted s ∧ key ∈ s.1.parents := by
  refine ⟨⟨h.tree, h.seed, h.members, h.fresh, h.changes, fun x hx y hy => ?_⟩, ?_⟩
  · exact (h.closed x hx y hy).resolve_right nofun
  · exact h.entered.resolve_right nofun

theorem attach_attached (hE : ∀ {x y}, y ∈ memo.membership x → E x y) (h : rooted.Tree E)
    (hp : p ∈ rooted.parents) (hedge : E p key) :
    Attached memo E rooted (rooted.attach memo key (some p)) ∧
      key ∈ (rooted.attach memo key (some p)).1.parents := by
  have hstart : Attaching memo E rooted key [(key, some p)] (rooted, ∅) := by
    refine ⟨h, rfl, fun k => ?_, fun k hk => absurd hk (Finset.notMem_empty k),
      (Finset.union_empty _).symm, fun item hitem => ?_,
      fun k hk => absurd hk (Finset.notMem_empty k), .inr (List.mem_singleton_self key)⟩
    · exact ⟨.inl, fun hk => hk.resolve_right (Finset.notMem_empty k)⟩
    · obtain rfl := List.mem_singleton.mp hitem
      exact ⟨p, rfl, hp, hedge⟩
  exact (attaching_loop hE (Nat.add_le_add_left edgesLeft_le 1) hstart).done

theorem Tree.enter_seed (seed : Key) : ((new seed).enter seed none).Tree E := by
  have hself : ((new seed).enter seed none).parents.lookup seed = some none :=
    Finmap.lookup_insert _
  have hother : ∀ x, x ≠ seed → ((new seed).enter seed none).parents.lookup x = none :=
    fun x hx => (Finmap.lookup_insert_of_ne _ hx).trans (Finmap.lookup_empty x)
  refine ⟨.single hself hother, fun {p k} => ?_⟩
  refine iff_of_false (Finset.notMem_empty k) fun hk => ?_
  rcases eq_or_ne k seed with rfl | hne
  · exact nomatch hself.symm.trans hk
  · exact nomatch (hother k hne).symm.trans hk

theorem attach_seed (hE : ∀ {x y}, y ∈ memo.membership x → E x y) (seed : Key) :
    Attached memo E (new seed) ((new seed).attach memo seed none) := by
  have hnew : seed ∉ (new seed).parents := Finmap.notMem_empty
  have hfuel : (memo.membership seed).card + edgesLeft memo ((new seed).enter seed none) ≤
      memo.edgeCount := (edgesLeft_enter hnew).trans edgesLeft_le
  have hstart : Attaching memo E (new seed) seed
      ((sorted (memo.membership seed)).map (fun child => (child, some seed)) ++ [])
      ((new seed).enter seed none, insert seed ∅) := by
    refine ⟨Tree.enter_seed seed, rfl, fun k => ?_, fun k _ => Finmap.notMem_empty,
      (Finset.empty_union _).symm, fun item hitem => ?_, fun x hx y hy => .inr ?_,
      .inl (mem_enter.mpr (.inl rfl))⟩
    · rw [mem_enter, insert_empty_eq, Finset.mem_singleton, or_comm]
    · rw [List.append_nil] at hitem
      obtain ⟨child, hchild, rfl⟩ := List.mem_map.mp hitem
      exact ⟨seed, rfl, mem_enter.mpr (.inl rfl), hE (mem_sorted.mp hchild)⟩
    · obtain rfl := Finset.mem_singleton.mp hx
      rw [List.append_nil, List.map_map]
      exact List.mem_map.mpr ⟨y, mem_sorted.mpr hy, rfl⟩
  unfold attach
  rw [Nat.add_comm, Base.worklist, if_neg (by simpa using hnew)]
  refine (attaching_loop hE ?_ hstart).done.1
  rw [List.append_nil, List.length_map, length_sorted]
  exact hfuel

/-! ## Another parent -/

theorem belowLoop_none (ancestor : Key) (fuel : Nat) :
    rooted.belowLoop ancestor fuel none = false := by
  cases fuel <;> rfl

theorem belowLoop_iff {ancestor k : Key} {n fuel : Nat}
    (hn : Base.Depth (fun k => rooted.parents.lookup k) k n) (hfuel : n < fuel) :
    rooted.belowLoop ancestor fuel (some k) = true ↔
      Base.Under (fun k => rooted.parents.lookup k) k ancestor := by
  induction hn generalizing fuel with
  | @root k hroot =>
    obtain ⟨fuel, rfl⟩ := Nat.exists_eq_succ_of_ne_zero (Nat.ne_of_gt hfuel)
    have hstop : (rooted.parents.lookup k).getD none = none := by
      rw [show rooted.parents.lookup k = some none from hroot]
      rfl
    rw [belowLoop, hstop, belowLoop_none, Bool.or_false, beq_iff_eq]
    constructor
    · rintro rfl
      exact .refl
    · intro hup
      rcases ReflTransGen.cases_head hup with rfl | ⟨q, hstep, _⟩
      · rfl
      · exact nomatch hroot.symm.trans hstep
  | @child k q n hchild _ ih =>
    obtain ⟨fuel, rfl⟩ := Nat.exists_eq_succ_of_ne_zero (Nat.ne_of_gt (Nat.zero_lt_of_lt hfuel))
    have hnext : (rooted.parents.lookup k).getD none = some q := by
      rw [show rooted.parents.lookup k = some (some q) from hchild]
      rfl
    rw [belowLoop, hnext, Bool.or_eq_true, beq_iff_eq, ih (Nat.lt_of_succ_lt_succ hfuel)]
    constructor
    · rintro (rfl | hup)
      · exact .refl
      · exact .head hchild hup
    · intro hup
      rcases ReflTransGen.cases_head hup with rfl | ⟨r, hstep, hup⟩
      · exact .inl rfl
      · obtain rfl := Option.some.inj (Option.some.inj (hchild.symm.trans hstep))
        exact .inr hup

theorem Tree.below_iff (h : rooted.Tree E) {k ancestor : Key} (hk : k ∈ rooted.parents) :
    rooted.below k ancestor = true ↔ Base.Under (fun k => rooted.parents.lookup k) k ancestor := by
  obtain ⟨n, hn⟩ := h.witness.grounded (mem_parents.mp hk)
  exact belowLoop_iff hn (hn.lt_card fun x hx => Finmap.mem_keys.mpr (mem_parents.mpr hx))

theorem Tree.alternate_not_under (h : rooted.Tree E) {q : Key}
    (hq : q ∈ rooted.alternates memo key) : q ∈ memo.membershipReaders key ∧ q ∈ rooted.parents ∧
      ¬ Base.Under (fun k => rooted.parents.lookup k) q key := by
  obtain ⟨hreader, hne, hmem, hfree⟩ := Finset.mem_filter.mp hq
  refine ⟨hreader, hmem, fun hup => ?_⟩
  rcases hfree with hleaf | hbelow
  · rcases ReflTransGen.cases_tail hup with heq | ⟨x, _, hstep⟩
    · exact hne heq.symm
    · have hchild := h.children.mpr hstep
      rw [hleaf] at hchild
      exact absurd hchild (Finset.notMem_empty x)
  · rw [(h.below_iff hmem).mpr hup] at hbelow
    cases hbelow

theorem mem_reparent (hkey : key ∈ rooted.parents) {q k : Key} :
    k ∈ (rooted.reparent key q).parents ↔ k ∈ rooted.parents := by
  refine Finmap.mem_insert.trans ⟨?_, .inr⟩
  rintro (rfl | hk)
  · exact hkey
  · exact hk

theorem lookup_reparent_self {q : Key} :
    (rooted.reparent key q).parents.lookup key = some (some q) :=
  Finmap.lookup_insert _

theorem Tree.reparent (h : rooted.Tree E) {q : Key}
    (hkey : rooted.parents.lookup key = some (some p)) (hq : q ∈ rooted.parents)
    (hunder : ¬ Base.Under (fun k => rooted.parents.lookup k) q key) (hedge : E q key) :
    (rooted.reparent key q).Tree E := by
  have hother : ∀ x, x ≠ key → (rooted.reparent key q).parents.lookup x = rooted.parents.lookup x :=
    fun x hx => Finmap.lookup_insert_of_ne _ hx
  refine ⟨h.witness.move hkey (mem_parents.mp hq) hunder hedge lookup_reparent_self hother,
    fun {r k} => ?_⟩
  have hcut : ∀ {r k}, k ∈ Function.update rooted.children p ((rooted.children p).erase key) r ↔
      k ≠ key ∧ k ∈ rooted.children r := by
    intro r k
    rcases eq_or_ne r p with rfl | hr
    · rw [Function.update_self, Finset.mem_erase]
    · rw [Function.update_of_ne hr, iff_and_self]
      rintro hk rfl
      rw [h.children, hkey] at hk
      exact hr (Option.some.inj (Option.some.inj hk)).symm
  unfold RootedProducts.reparent
  rw [hkey]
  show k ∈ Function.update (Function.update rooted.children p ((rooted.children p).erase key)) q
    (insert key (Function.update rooted.children p ((rooted.children p).erase key) q)) r ↔
      (rooted.parents.insert key (some q)).lookup k = some (some r)
  rcases eq_or_ne k key with rfl | hk
  · rw [Finmap.lookup_insert, Option.some.injEq, Option.some.injEq]
    rcases eq_or_ne r q with rfl | hr
    · rw [Function.update_self]
      exact iff_of_true (Finset.mem_insert_self _ _) rfl
    · rw [Function.update_of_ne hr, hcut]
      exact iff_of_false (fun h => h.1 rfl) (Ne.symm hr)
  · rw [Finmap.lookup_insert_of_ne _ hk, ← h.children]
    rcases eq_or_ne r q with rfl | hr
    · rw [Function.update_self, Finset.mem_insert, or_iff_right hk, hcut, and_iff_right hk]
    · rw [Function.update_of_ne hr, hcut, and_iff_right hk]

/-! ## Cutting off -/

theorem Tree.mem_subtree (h : rooted.Tree E) {k : Key} :
    k ∈ rooted.subtree key ↔ Base.Under (fun k => rooted.parents.lookup k) k key := by
  have hrun : (∀ x ∈ rooted.subtree key, Base.Under (fun k => rooted.parents.lookup k) x key) ∧
      (∀ x ∈ ([] : List Key), Base.Under (fun k => rooted.parents.lookup k) x key) ∧
      (∀ x ∈ rooted.subtree key, ∀ c ∈ rooted.children x,
        c ∈ rooted.subtree key ∨ c ∈ ([] : List Key)) ∧
      (key ∈ rooted.subtree key ∨ key ∈ ([] : List Key)) := by
    refine Base.worklist_rule (fun pending detached =>
      (∀ x ∈ detached, Base.Under (fun k => rooted.parents.lookup k) x key) ∧
      (∀ x ∈ pending, Base.Under (fun k => rooted.parents.lookup k) x key) ∧
      (∀ x ∈ detached, ∀ c ∈ rooted.children x, c ∈ detached ∨ c ∈ pending) ∧
      (key ∈ detached ∨ key ∈ pending))
      (fun detached => ∑ x ∈ rooted.parents.keys \ detached, (rooted.children x).card)
      ?_ ?_ ?_ ?_
    · rintro member pending detached hseen ⟨hin, hleft, hclosed, hkey⟩
      have hmem := of_decide_eq_true hseen
      have hshift : ∀ {c}, c ∈ detached ∨ c ∈ member :: pending → c ∈ detached ∨ c ∈ pending := by
        rintro c (hc | hc)
        · exact .inl hc
        · rcases List.mem_cons.mp hc with rfl | hc
          · exact .inl hmem
          · exact .inr hc
      exact ⟨hin, fun x hx => hleft x (List.mem_cons_of_mem _ hx),
        fun x hx c hc => hshift (hclosed x hx c hc), hshift hkey⟩
    · rintro member pending detached hseen ⟨hin, hleft, hclosed, hkey⟩
      have hnew := of_decide_eq_false hseen
      have hup := hleft member List.mem_cons_self
      have hshift : ∀ {c}, c ∈ detached ∨ c ∈ member :: pending →
          c ∈ insert member detached ∨ c ∈ sorted (rooted.children member) ++ pending := by
        rintro c (hc | hc)
        · exact .inl (Finset.mem_insert_of_mem hc)
        · rcases List.mem_cons.mp hc with rfl | hc
          · exact .inl (Finset.mem_insert_self _ _)
          · exact .inr (List.mem_append_right _ hc)
      refine ⟨⟨fun x hx => ?_, fun x hx => ?_, fun x hx c hc => ?_, hshift hkey⟩, ?_⟩
      · rcases Finset.mem_insert.mp hx with rfl | hx
        · exact hup
        · exact hin x hx
      · rcases List.mem_append.mp hx with hx | hx
        · exact .head (h.children.mp (mem_sorted.mp hx)) hup
        · exact hleft x (List.mem_cons_of_mem _ hx)
      · rcases Finset.mem_insert.mp hx with rfl | hx
        · exact .inr (List.mem_append_left _ (mem_sorted.mpr hc))
        · exact hshift (hclosed x hx c hc)
      · rw [length_sorted]
        refine @Base.sum_left_pays _ _ rooted.parents.keys detached
          (fun x => (rooted.children x).card) member hnew fun hout => ?_
        rw [Finset.card_eq_zero, Finset.eq_empty_iff_forall_notMem]
        exact fun c hc => hout (Finmap.mem_keys.mpr (h.parent_mem (h.children.mp hc)))
    · rw [Finset.sdiff_empty]
      exact le_rfl
    · exact ⟨fun x hx => absurd hx (Finset.notMem_empty x),
        fun x hx => List.mem_singleton.mp hx ▸ .refl,
        fun x hx => absurd hx (Finset.notMem_empty x), .inr (List.mem_singleton_self key)⟩
  obtain ⟨hin, _, hclosed, hkey⟩ := hrun
  refine ⟨hin k, fun hup => ?_⟩
  induction hup using ReflTransGen.head_induction_on with
  | refl => exact hkey.resolve_right nofun
  | head hstep _ ih => exact (hclosed _ ih _ (h.children.mpr hstep)).resolve_right nofun

theorem lookup_foldl_erase (members : List Key) (parents : Finmap fun _ : Key => Option Key)
    (k : Key) : (members.foldl (fun parents member => parents.erase member) parents).lookup k =
      if k ∈ members then none else parents.lookup k := by
  induction members generalizing parents with
  | nil => rfl
  | cons member members ih =>
    rw [List.foldl_cons, ih]
    rcases eq_or_ne k member with rfl | hk
    · rw [Finmap.lookup_erase, if_pos List.mem_cons_self, ite_self]
    · rw [Finmap.lookup_erase_ne hk]
      simp only [List.mem_cons, hk, false_or]

theorem lookup_detach {detached : Finset Key} {k : Key} :
    (rooted.detach p key detached).parents.lookup k =
      if k ∈ detached then none else rooted.parents.lookup k := by
  refine (lookup_foldl_erase (sorted detached) rooted.parents k).trans ?_
  simp only [mem_sorted]

theorem mem_detach {detached : Finset Key} {k : Key} :
    k ∈ (rooted.detach p key detached).parents ↔ k ∈ rooted.parents ∧ k ∉ detached := by
  rw [mem_parents, lookup_detach, mem_parents]
  by_cases hk : k ∈ detached
  · rw [if_pos hk]
    exact iff_of_false (fun h => h rfl) fun h => h.2 hk
  · rw [if_neg hk, and_iff_left hk]

theorem Tree.detach (h : rooted.Tree E) (hkey : rooted.parents.lookup key = some (some p)) :
    (rooted.detach p key (rooted.subtree key)).Tree E := by
  have hseed : rooted.seed ∉ rooted.subtree key := by
    rw [h.mem_subtree]
    intro hup
    rcases ReflTransGen.cases_head hup with heq | ⟨q, hstep, _⟩
    · exact nomatch (heq ▸ h.witness.seed_root).symm.trans hkey
    · exact nomatch h.witness.seed_root.symm.trans hstep
  refine ⟨h.witness.cut (D := (· ∈ rooted.subtree key)) hseed (fun {x y} hstep hy => ?_)
    (fun x hx => ?_) (fun x hx => ?_), fun {q k} => ?_⟩
  · exact h.mem_subtree.mpr (.head hstep (h.mem_subtree.mp hy))
  · exact lookup_detach.trans (if_pos hx)
  · exact lookup_detach.trans (if_neg hx)
  · rw [lookup_detach]
    show k ∈ (if q ∈ rooted.subtree key then ∅ else if q = p then (rooted.children p).erase key
      else rooted.children q) ↔ _
    by_cases hq : q ∈ rooted.subtree key
    · rw [if_pos hq]
      refine iff_of_false (Finset.notMem_empty k) fun hk => ?_
      split at hk
      · cases hk
      · rename_i hout
        exact hout (h.mem_subtree.mpr (.head hk (h.mem_subtree.mp hq)))
    · rw [if_neg hq]
      -- Of the keys that stay, only the key itself loses its parent.
      have hunder : k ∈ rooted.children q → (k ∈ rooted.subtree key ↔ k = key) := by
        intro hk
        have hstep := h.children.mp hk
        refine ⟨fun hin => ?_, fun heq => heq ▸ h.mem_subtree.mpr .refl⟩
        rcases ReflTransGen.cases_head (h.mem_subtree.mp hin) with heq | ⟨r, hr, hup⟩
        · exact heq
        · obtain rfl := Option.some.inj (Option.some.inj (hstep.symm.trans hr))
          exact absurd (h.mem_subtree.mpr hup) hq
      by_cases hk : k ∈ rooted.children q
      · have hstep := h.children.mp hk
        rcases eq_or_ne k key with rfl | hne
        · obtain rfl := Option.some.inj (Option.some.inj (hstep.symm.trans hkey))
          rw [if_pos rfl, if_pos ((hunder hk).mpr rfl)]
          exact iff_of_false (Finset.notMem_erase _ _) nofun
        · rw [if_neg fun hin => hne ((hunder hk).mp hin), hstep]
          refine iff_of_true ?_ rfl
          split
          · rename_i heq
            exact Finset.mem_erase.mpr ⟨hne, heq ▸ hk⟩
          · exact hk
      · refine iff_of_false (fun hin => hk ?_) fun hin => hk ?_
        · split at hin
          · rename_i heq
            exact heq ▸ Finset.mem_of_mem_erase hin
          · exact hin
        · split at hin
          · cases hin
          · exact h.children.mpr hin

/-! ## Entering again -/

theorem Attached.rfl' (h : rooted.Tree E) : Attached memo E rooted (rooted, ∅) where
  tree := h
  seed := rfl
  members k := ⟨.inl, fun hk => hk.resolve_right (Finset.notMem_empty k)⟩
  fresh k hk := absurd hk (Finset.notMem_empty k)
  changes := (Finset.union_empty _).symm
  closed x hx := absurd hx (Finset.notMem_empty x)

variable {out : RootedProducts Key × Finset Key}

theorem Attached.trans {middle : RootedProducts Key} {touched : Finset Key}
    (h : Attached memo E rooted (middle, touched))
    (h' : Attached memo E middle out) : Attached memo E rooted (out.1, touched ∪ out.2) where
  tree := h'.tree
  seed := h'.seed.trans h.seed
  members k := by
    rw [h'.members, h.members, Finset.mem_union, or_assoc]
  fresh k hk := by
    rcases Finset.mem_union.mp hk with hk | hk
    · exact h.fresh k hk
    · exact fun hold => h'.fresh k hk ((h.members k).mpr (.inl hold))
  changes := by
    rw [h'.changes, h.changes, Finset.union_assoc]
  closed x hx y hy := by
    rcases Finset.mem_union.mp hx with hx | hx
    · exact (h'.members y).mpr (.inl (h.closed x hx y hy))
    · exact h'.closed x hx y hy

theorem reenter_attached (hE : ∀ {x y}, y ∈ memo.membership x → E x y) {ways : List (Key × Key)}
    (hs : Attached memo E rooted s) (hways : ∀ way ∈ ways, way.2 ∈ rooted.parents ∧ E way.2 way.1) :
    Attached memo E rooted (reenter memo ways s) ∧
      (∀ k ∈ s.1.parents, k ∈ (reenter memo ways s).1.parents) ∧
      ∀ way ∈ ways, way.1 ∈ (reenter memo ways s).1.parents := by
  induction ways generalizing s with
  | nil => exact ⟨hs, fun _ hk => hk, nofun⟩
  | cons way ways ih =>
    obtain ⟨member, parent⟩ := way
    obtain ⟨r, touched⟩ := s
    obtain ⟨⟨hparent, hedge⟩, hways⟩ := List.forall_mem_cons.mp hways
    by_cases hmem : member ∈ r.parents
    · rw [show reenter memo ((member, parent) :: ways) (r, touched) =
        reenter memo ways (r, touched) from if_pos hmem]
      obtain ⟨hout, hgrow, hentered⟩ := ih hs hways
      exact ⟨hout, hgrow, List.forall_mem_cons.mpr ⟨hgrow member hmem, hentered⟩⟩
    · rw [show reenter memo ((member, parent) :: ways) (r, touched) =
        reenter memo ways ((r.attach memo member (some parent)).1,
          touched ∪ (r.attach memo member (some parent)).2) from if_neg hmem]
      obtain ⟨hattached, hself⟩ :=
        attach_attached hE hs.tree ((hs.members parent).mpr (.inl hparent)) hedge
      obtain ⟨hout, hgrow, hentered⟩ := ih (hs.trans hattached) hways
      refine ⟨hout, fun k hk => ?_, List.forall_mem_cons.mpr ⟨hgrow member hself, hentered⟩⟩
      exact hgrow k ((hattached.members k).mpr (.inl hk))

/-! ## Removing an edge -/

/-- What a repair does to a rooted set: it notes the keys whose membership moved, and no edge
between keys that were both reached leads out. -/
structure Moved (memo : ProductMemo Key Value) (rooted : RootedProducts Key)
    (out : RootedProducts Key × Finset Key) : Prop where
  seed : out.1.seed = rooted.seed
  changes : ∀ x, x ∈ out.1.changes ↔ x ∈ rooted.changes ∨ ¬ (x ∈ rooted.parents ↔ x ∈ out.1.parents)
  touched : ∀ x, ¬ (x ∈ rooted.parents ↔ x ∈ out.1.parents) → x ∈ out.2
  closed : ∀ x ∈ out.1.parents, ∀ y ∈ memo.membership x,
    (x ∈ rooted.parents → y ∈ rooted.parents) → y ∈ out.1.parents

theorem Attached.moved (h : Attached memo E rooted out) : Moved memo rooted out where
  seed := h.seed
  changes x := by
    rw [h.changes, Finset.mem_union, h.members]
    have := h.fresh x
    tauto
  touched x hx := by
    rw [h.members] at hx
    tauto
  closed x hx y hy hold := by
    rcases (h.members x).mp hx with hx | hx
    · exact (h.members y).mpr (.inl (hold hx))
    · exact h.closed x hx y hy

theorem Moved.of_same (hseed : out.1.seed = rooted.seed) (hchanges : out.1.changes = rooted.changes)
    (hmembers : ∀ k, k ∈ out.1.parents ↔ k ∈ rooted.parents) : Moved memo rooted out where
  seed := hseed
  changes x := by
    rw [hchanges, hmembers]
    tauto
  touched x hx := absurd (hmembers x).symm hx
  closed x hx y _ hold := (hmembers y).mpr (hold ((hmembers x).mp hx))

theorem mem_entrances {detached : Finset Key} {way : Key × Key} :
    way ∈ rooted.entrances memo detached ↔
      way.1 ∈ detached ∧ way.2 ∈ memo.membershipReaders way.1 ∧ way.2 ∈ rooted.parents := by
  obtain ⟨member, parent⟩ := way
  simp only [entrances, List.mem_flatMap, List.mem_map, mem_sorted, Finset.mem_filter]
  constructor
  · rintro ⟨k, hk, q, hq, heq⟩
    cases heq
    exact ⟨hk, hq⟩
  · rintro ⟨hk, hq⟩
    exact ⟨member, hk, parent, hq, rfl⟩

theorem settled_iff {S D A C : Prop} (hcut : D → S) (hnew : A → ¬ (S ∧ ¬ D)) :
    (((C ∨ A) ∧ ¬ ((D ∧ (S ∧ ¬ D ∨ A)) ∧ ¬ C)) ∨ D ∧ ¬ (S ∧ ¬ D ∨ A)) ↔
      (C ∨ ¬ (S ↔ S ∧ ¬ D ∨ A)) := by
  by_cases hS : S <;> by_cases hD : D <;> by_cases hA : A <;> simp_all

theorem touched_of_moved {S D A : Prop} (hcut : D → S) (hnew : A → ¬ (S ∧ ¬ D))
    (hmoved : ¬ (S ↔ S ∧ ¬ D ∨ A)) : A ∧ ¬ (D ∧ (S ∧ ¬ D ∨ A)) ∨ D ∧ ¬ (S ∧ ¬ D ∨ A) := by
  by_cases hS : S <;> by_cases hD : D <;> by_cases hA : A <;> simp_all

/-- A subtree that is cut off is entered again wherever an edge leads into it. -/
theorem settle_moved (h : rooted.Tree E) (hkey : rooted.parents.lookup key = some (some p))
    (hreaders : ∀ {x y}, x ∈ memo.membershipReaders y ↔ y ∈ memo.membership x)
    (hout : Attached memo E' (rooted.detach p key (rooted.subtree key)) out)
    (hentered : ∀ way ∈ (rooted.detach p key (rooted.subtree key)).entrances memo
      (rooted.subtree key), way.1 ∈ out.1.parents) :
    Moved memo rooted (settle rooted (rooted.subtree key) out.1 out.2) := by
  have hin : ∀ {x}, x ∈ rooted.subtree key → x ∈ rooted.parents := by
    intro x hx
    rcases ReflTransGen.cases_head (h.mem_subtree.mp hx) with rfl | ⟨q, hstep, _⟩
    · exact mem_parents.mpr (by rw [hkey]; exact nofun)
    · exact mem_parents.mpr (by rw [show rooted.parents.lookup x = _ from hstep]; exact nofun)
  have hmembers : ∀ x, x ∈ out.1.parents ↔
      (x ∈ rooted.parents ∧ x ∉ rooted.subtree key) ∨ x ∈ out.2 := fun x => by
    rw [hout.members, mem_detach]
  have hfresh : ∀ x, x ∈ out.2 → ¬ (x ∈ rooted.parents ∧ x ∉ rooted.subtree key) :=
    fun x hx hold => hout.fresh x hx (mem_detach.mpr hold)
  refine ⟨hout.seed, fun x => ?_, fun x hx => ?_, fun x hx y hy hold => ?_⟩
  · show x ∈ (out.1.changes \ ((rooted.subtree key).filter (· ∈ out.1.parents) \ rooted.changes)) ∪
      (rooted.subtree key).filter (· ∉ out.1.parents) ↔
        x ∈ rooted.changes ∨ ¬ (x ∈ rooted.parents ↔ x ∈ out.1.parents)
    have hchanges : x ∈ out.1.changes ↔ x ∈ rooted.changes ∨ x ∈ out.2 := by
      rw [hout.changes, Finset.mem_union]
      rfl
    simp only [Finset.mem_union, Finset.mem_sdiff, Finset.mem_filter, hchanges, hmembers]
    exact settled_iff hin (hfresh x)
  · show x ∈ (out.2 \ (rooted.subtree key).filter (· ∈ out.1.parents)) ∪
      (rooted.subtree key).filter (· ∉ out.1.parents)
    replace hx : ¬ (x ∈ rooted.parents ↔ x ∈ out.1.parents) := hx
    simp only [Finset.mem_union, Finset.mem_sdiff, Finset.mem_filter, hmembers] at hx ⊢
    exact touched_of_moved hin (hfresh x) hx
  · replace hx : x ∈ out.1.parents := hx
    show y ∈ out.1.parents
    rcases (hmembers x).mp hx with hstays | hnew
    · by_cases hcut : y ∈ rooted.subtree key
      · exact hentered (y, x) (mem_entrances.mpr ⟨hcut, hreaders.mpr hy, mem_detach.mpr hstays⟩)
      · exact (hmembers y).mpr (.inl ⟨hold hstays.1, hcut⟩)
    · exact hout.closed x hnew y hy

theorem removeEdge_moved (hE : ∀ {x y}, E x y → ¬ (x = p ∧ y = key) → E' x y)
    (hnext : ∀ {x y}, y ∈ memo.membership x → E' x y)
    (hreaders : ∀ {x y}, x ∈ memo.membershipReaders y ↔ y ∈ memo.membership x)
    (hsub : ∀ {x y}, E' x y → E x y) (h : rooted.Tree E) :
    Moved memo rooted (rooted.removeEdge memo p key) ∧
      (rooted.removeEdge memo p key).1.Tree E' := by
  unfold removeEdge
  by_cases hkey : rooted.parents.lookup key = some (some p)
  swap
  · rw [if_pos hkey]
    refine ⟨.of_same rfl rfl fun k => Iff.rfl, h.imp fun {k q} hk hedge => hE hedge ?_⟩
    rintro ⟨rfl, rfl⟩
    exact hkey hk
  rw [if_neg (not_not.mpr hkey)]
  have hmem : key ∈ rooted.parents := mem_parents.mpr (by rw [hkey]; exact nofun)
  split
  · rename_i q hq
    have hq' := List.mem_of_mem_head? hq
    obtain ⟨hreader, hqmem, hunder⟩ := h.alternate_not_under (mem_sorted.mp hq')
    have hedge := hnext (hreaders.mp hreader)
    refine ⟨.of_same rfl rfl fun k => mem_reparent hmem, ?_⟩
    refine (h.reparent hkey hqmem hunder (hsub hedge)).imp fun {k r} hk hold => ?_
    rcases eq_or_ne k key with rfl | hne
    · obtain rfl := Option.some.inj (Option.some.inj (lookup_reparent_self.symm.trans hk))
      exact hedge
    · exact hE hold fun heq => hne heq.2
  · have hcut : (rooted.detach p key (rooted.subtree key)).Tree E' := by
      refine (h.detach hkey).imp fun {k q} hk hold => hE hold ?_
      rintro ⟨rfl, rfl⟩
      rw [lookup_detach, if_pos (h.mem_subtree.mpr .refl)] at hk
      cases hk
    have hways : ∀ way ∈ (rooted.detach p key (rooted.subtree key)).entrances memo
        (rooted.subtree key), way.2 ∈ (rooted.detach p key (rooted.subtree key)).parents ∧
          E' way.2 way.1 := by
      intro way hway
      obtain ⟨_, hreader, hparent⟩ := mem_entrances.mp hway
      exact ⟨hparent, hnext (hreaders.mp hreader)⟩
    obtain ⟨hout, _, hentered⟩ := reenter_attached hnext (Attached.rfl' hcut) hways
    exact ⟨settle_moved h hkey hreaders hout hentered, hout.tree.witness, hout.tree.children⟩

end RootedProducts

end Fz.Pull
