import Fz.Pull.DirtyWitnessExact

/-!
# The operations keep the index exact

Marking a member first lists its ancestors up to one that is indexed (`ensurePath_spec`).  Taking a
mark away prunes the branch as far as it ends unmarked (`prune_spec`).  Moving a node does both: it
cuts the path before the node, lists its new ancestors and prunes below the old one.
-/

namespace Fz.Pull

open Base

variable {Key : Type} [DecidableEq Key]

/-- The parent pointers lead up to the seed. -/
abbrev Tree (seed : Key) (parents : Parents Key) : Prop :=
  Witness (fun _ _ => True) seed fun key => parents.lookup key

namespace DirtyWitness

/-- The marks are the members of a set. -/
structure Marks (marks : Finset Key) (w : DirtyWitness Key) : Prop where
  contains_iff : ∀ {k}, w.contains k = true ↔ k ∈ marks
  count : w.marked = marks.card

/-- The index over a tree, where some nodes may have lost their last child. -/
structure Indexed (seed : Key) (parents : Parents Key) (spare : Key → Prop) (marks : Finset Key)
    (w : DirtyWitness Key) : Prop where
  shape : Shape parents (fun _ => False) spare w.kids w.contains
  path : OnPath seed w.kids w.contains w.position w.active
  marks : Marks marks w

variable {seed key previous parent : Key} {parents parents' : Parents Key}
  {loose spare : Key → Prop} {marks : Finset Key} {w w' : DirtyWitness Key} {cs : List Key}

theorem Marks.of_eq (h : Marks marks w) (hcontains : w'.contains = w.contains)
    (hmarked : w'.marked = w.marked) : Marks marks w' :=
  ⟨by rw [hcontains]; exact h.contains_iff, by rw [hmarked, h.count]⟩

theorem Indexed.unspare (h : Indexed seed parents spare marks w)
    (hspare : ∀ k, spare k → w.kids k = some [] → w.contains k = true) :
    Indexed seed parents (fun _ => False) marks w where
  shape :=
    { member := h.shape.member
      child := h.shape.child
      nodup := h.shape.nodup
      up := h.shape.up
      leaf := fun {k} hk _ => by
        by_cases hs : spare k
        · exact hspare k hs hk
        · exact h.shape.leaf hk hs }
  path := h.path
  marks := h.marks

theorem depth_lt_fuel {n : Nat} (h : Depth (fun k => parents.lookup k) key n) :
    n < parents.keys.card := by
  refine h.lt_card fun x hx => Finmap.mem_keys.mpr ?_
  by_contra hnot
  exact hx (Finmap.lookup_eq_none.mpr hnot)

/-! ## Listing the ancestors -/

theorem ensureLoop_spec {n : Nat} (hdepth : Depth (fun k => parents.lookup k) key n) :
    ∀ {fuel : Nat} {w : DirtyWitness Key}, n < fuel →
      Shape parents (fun x => loose x ∨ x = key) spare w.kids w.contains → w.kids key = some cs →
      ∃ w', ensureLoop parents fuel key w = some w' ∧ KidsOnly w w' ∧ Grows w w' ∧
        Shape parents loose spare w'.kids w'.contains := by
  induction hdepth generalizing cs with
  | @root key hroot =>
    intro fuel w hfuel hshape hkids
    obtain ⟨fuel, rfl⟩ := Nat.exists_eq_succ_of_ne_zero (Nat.ne_of_gt hfuel)
    refine ⟨w, ?_, KidsOnly.refl w, Grows.refl w, ?_⟩
    · simp only [ensureLoop, hroot]
    · refine ⟨hshape.member, hshape.child, hshape.nodup, fun {x ds p} hx hloose hup => ?_,
        hshape.leaf⟩
      refine hshape.up hx ?_ hup
      rintro (hl | rfl)
      · exact hloose hl
      · exact nomatch hroot.symm.trans hup
  | @child key parent n hchild hparent ih =>
    intro fuel w hfuel hshape hkids
    obtain ⟨fuel, rfl⟩ := Nat.exists_eq_succ_of_ne_zero (Nat.ne_of_gt (Nat.zero_lt_of_lt hfuel))
    have honly := insertChild_only w parent key
    have hgrows := insertChild_grows w parent key
    by_cases hindexed : parent ∈ w.nodes
    · obtain ⟨ds, hds⟩ := mem_nodes_iff.mp hindexed
      refine ⟨w.insertChild parent key, ?_, honly, hgrows, ?_⟩
      · simp only [ensureLoop, hchild, hindexed, if_true]
      · rw [kids_insertChild, honly.contains, hds]
        refine (hshape.addChild hds hkids hchild).mono ?_ fun k hs => hs.1
        rintro k ⟨hl | hl, hne⟩
        · exact hl
        · exact absurd hl hne
    · have hnone : w.kids parent = none := by
        rw [kids_eq_none_iff]
        exact Finmap.lookup_eq_none.mpr hindexed
      obtain ⟨above, habove⟩ : ∃ above, parents.lookup parent = some above :=
        Option.ne_none_iff_exists'.mp hparent.member
      have hstep : Shape parents (fun x => loose x ∨ x = parent) spare
          (w.insertChild parent key).kids (w.insertChild parent key).contains := by
        have hne : key ≠ parent := fun heq => by
          rw [heq, hnone] at hkids
          cases hkids
        have hleaf := hshape.addLeaf hnone habove
        have hadd := hleaf.addChild (Function.update_self ..)
          ((Function.update_of_ne hne ..).trans hkids) hchild
        rw [kids_insertChild, honly.contains, hnone]
        rw [Function.update_idem] at hadd
        refine hadd.mono ?_ ?_
        · rintro k ⟨(hl | hl) | hl, hk⟩
          · exact .inl hl
          · exact absurd hl hk
          · exact .inr hl
        · rintro k ⟨hs | hs, hk⟩
          · exact hs
          · exact absurd hs hk
      have hlisted : (w.insertChild parent key).kids parent = some (insertKey [] key) := by
        rw [kids_insertChild, hnone, Function.update_self]
        rfl
      obtain ⟨w', hrun, honly', hgrows', hshape'⟩ := @ih _ fuel _ (by omega) hstep hlisted
      refine ⟨w', ?_, honly.trans honly', hgrows.trans hgrows', hshape'⟩
      simp only [ensureLoop, hchild, hindexed, if_false, hrun]

/-- The node and its ancestors are listed; the node itself may be a leaf without a mark. -/
theorem ensurePath_spec (htree : Tree seed parents)
    (hshape : Shape parents loose spare w.kids w.contains) (hmember : key ∈ parents) :
    ∃ w', w.ensurePath key parents = some w' ∧ KidsOnly w w' ∧ Grows w w' ∧
      Shape parents loose (fun x => spare x ∨ x = key) w'.kids w'.contains ∧
      ∃ cs, w'.kids key = some cs := by
  rw [ensurePath]
  by_cases hindexed : key ∈ w.nodes
  · rw [if_pos hindexed]
    exact ⟨w, rfl, KidsOnly.refl w, Grows.refl w, hshape.mono (fun _ => id) fun _ => .inl,
      mem_nodes_iff.mp hindexed⟩
  · have hnone : w.kids key = none := by
      rw [kids_eq_none_iff]
      exact Finmap.lookup_eq_none.mpr hindexed
    have honly : KidsOnly w (w.setNode key .default) := by
      refine ⟨?_, ?_, rfl, rfl⟩
      · rw [contains_setNode, Function.update_eq_self_iff, contains_of_none hnone]
        rfl
      · rw [position_setNode, Function.update_eq_self_iff, position_of_none hnone]
        rfl
    have hgrows : Grows w (w.setNode key .default) := by
      intro k cs hk
      have hne : k ≠ key := fun heq => by
        rw [heq, hnone] at hk
        cases hk
      exact ⟨cs, by rw [kids_setNode, Function.update_of_ne hne, hk], List.prefix_rfl⟩
    obtain ⟨above, habove⟩ := Finmap.mem_iff.mp hmember
    obtain ⟨n, hn⟩ := htree.grounded (k := key) (by rw [habove]; exact nofun)
    have hleaf : Shape parents (fun x => loose x ∨ x = key) (fun x => spare x ∨ x = key)
        (w.setNode key .default).kids (w.setNode key .default).contains := by
      rw [honly.contains, kids_setNode]
      exact hshape.addLeaf hnone habove
    have hlisted : (w.setNode key .default).kids key = some [] := by
      rw [kids_setNode, Function.update_self]
      rfl
    obtain ⟨w', hrun, honly', hgrows', hshape'⟩ :=
      ensureLoop_spec hn (depth_lt_fuel hn) hleaf hlisted
    obtain ⟨cs, hcs, -⟩ := hgrows' key _ hlisted
    exact ⟨w', by rw [if_neg hindexed, hrun], honly.trans honly', hgrows.trans hgrows', hshape',
      cs, hcs⟩

/-! ## Marking -/

theorem insert_spec (htree : Tree seed parents)
    (h : Indexed seed parents (fun _ => False) marks w) (hmember : key ∈ parents) :
    ∃ w', w.insert key parents = some (w', decide (key ∉ marks)) ∧
      Indexed seed parents (fun _ => False) (insert key marks) w' := by
  obtain ⟨w₁, hrun, honly, hgrows, hshape, cs, hcs⟩ := ensurePath_spec htree h.shape hmember
  have hpath := OnPath.grow h.path hgrows honly
  have hmarks := h.marks.of_eq honly.contains honly.marked
  obtain ⟨node, hlookup, rfl⟩ := lookup_of_kids hcs
  have hcontains := contains_of_lookup hlookup
  have hkids : (w₁.setNode key { node with marked := true }).kids = w₁.kids := by
    rw [kids_setNode, Function.update_eq_self_iff, kids_of_lookup hlookup]
  have hposition : (w₁.setNode key { node with marked := true }).position = w₁.position := by
    rw [position_setNode, Function.update_eq_self_iff, position_of_lookup hlookup]
  have hshape' : Shape parents (fun _ => False) (fun _ => False) w₁.kids
      (Function.update w₁.contains key true) := by
    refine hshape.remark (fun k hk _ => ?_) ?_
    · rcases eq_or_ne k key with rfl | hne
      · rw [Function.update_self]
      · rw [Function.update_of_ne hne, hk]
    · rintro k (hs | rfl) _
      · exact absurd hs id
      · rw [Function.update_self]
  rw [DirtyWitness.insert, hrun]
  simp only [Option.bind_eq_bind, Option.bind_some, hlookup]
  cases hmarked : node.marked with
  | true =>
    rw [hmarked] at hcontains
    have hsame : Function.update w₁.contains key true = w₁.contains :=
      Function.update_eq_self_iff.mpr hcontains.symm
    have hmem := hmarks.contains_iff.mp hcontains
    rw [hsame] at hshape'
    refine ⟨_, by rw [decide_eq_false (not_not.mpr hmem)]; rfl, ⟨?_, ?_, ?_⟩⟩
    · rw [hkids, contains_setNode, hsame]
      exact hshape'
    · rw [hkids, contains_setNode, hposition, hsame]
      exact hpath
    · rw [Finset.insert_eq_of_mem hmem]
      exact hmarks.of_eq (contains_setNode.trans hsame) rfl
  | false =>
    rw [hmarked] at hcontains
    have hnot : key ∉ marks := fun hmem => by
      rw [hmarks.contains_iff.mpr hmem] at hcontains
      cases hcontains
    rw [decide_eq_true hnot]
    have hnew : ∀ active, OnPath seed w₁.kids (Function.update w₁.contains key true) w₁.position
        active → Indexed seed parents (fun _ => False) (insert key marks)
          { w₁.setNode key { node with marked := true } with
            marked := w₁.marked + 1, active := active } := by
      intro active hactive
      refine ⟨?_, ?_, ⟨fun {k} => ?_, ?_⟩⟩
      · show Shape parents _ _ (w₁.setNode key _).kids (w₁.setNode key _).contains
        rw [hkids, contains_setNode]
        exact hshape'
      · show OnPath seed (w₁.setNode key _).kids (w₁.setNode key _).contains
          (w₁.setNode key _).position active
        rw [hkids, contains_setNode, hposition]
        exact hactive
      · show (w₁.setNode key _).contains k = true ↔ _
        rw [contains_setNode, Finset.mem_insert]
        rcases eq_or_ne k key with rfl | hne
        · simp
        · rw [Function.update_of_ne hne, hmarks.contains_iff]
          exact (or_iff_right hne).symm
      · rw [Finset.card_insert_of_notMem hnot, hmarks.count]
    rw [if_neg Bool.false_ne_true]
    split
    · rename_i i hi
      rcases positionOf_spec hpath hlookup with ⟨j, hj, hget⟩ | ⟨hnone, -⟩
      · obtain rfl : j = i := Option.some.inj (hj.symm.trans hi)
        refine ⟨_, by rw [truncateActive_eq], ?_⟩
        exact hnew _ (hpath.mark_of_getElem? hshape htree.seed_root hget)
      · exact nomatch hnone.symm.trans hi
    · rename_i hi
      rcases positionOf_spec hpath hlookup with ⟨j, hj, -⟩ | ⟨-, hout⟩
      · exact nomatch hj.symm.trans hi
      · exact ⟨_, rfl, hnew _ (hpath.mark_of_notMem hout)⟩

/-! ## Pruning -/

theorem Indexed.descend (h : Indexed seed parents spare marks w) {child : Key}
    (hlast : ∀ a ∈ w.active.getLast?, Leads w.kids w.contains a child)
    (hhead : w.active = [] → child = seed) (hchild : w.kids child = some cs)
    (hnot : child ∉ w.active) :
    ∃ w', w.descend child = some w' ∧ PathOnly w w' ∧ w'.active = w.active ++ [child] ∧
      Indexed seed parents spare marks w' := by
  obtain ⟨w', hrun, honly, hposition, hactive⟩ := descend_spec hchild
  refine ⟨w', hrun, honly, hactive, ?_, ?_, h.marks.of_eq honly.contains honly.marked⟩
  · rw [honly.kids, honly.contains]
    exact h.shape
  · rw [honly.kids, honly.contains, hposition, hactive]
    exact h.path.push hlast hhead hchild hnot

theorem Indexed.descend_first (htree : Tree seed parents) (h : Indexed seed parents spare marks w)
    {child : Key} (hlast : w.active.getLast? = some key) (hclean : w.contains key = false)
    (hkids : w.kids key = some (child :: cs)) :
    ∃ w', w.descend child = some w' ∧ PathOnly w w' ∧ w'.active = w.active ++ [child] ∧
      Indexed seed parents spare marks w' := by
  obtain ⟨⟨ds, hds⟩, -⟩ := h.shape.child hkids (.head _)
  refine h.descend (fun a ha => ?_) (fun hnil => ?_) hds
    (h.path.notMem_of_last h.shape htree.seed_root hlast hkids (.head _))
  · obtain rfl := Option.some.inj (hlast.symm.trans ha)
    exact ⟨hclean, cs, hkids⟩
  · rw [hnil] at hlast
    cases hlast

theorem pruneLoop_none (fuel : Nat) (w : DirtyWitness Key) :
    pruneLoop parents fuel none w = some w := by
  cases fuel <;> rfl

theorem pruneLoop_leaf {node : DirtyNode Key} (h : Indexed seed parents spare marks w)
    (hlookup : w.nodes.lookup key = some node) (hmarked : node.marked = false)
    (hchildren : node.children = []) :
    ∃ w₁ : DirtyWitness Key, w₁.kids = Function.update w.kids key none ∧
      w₁.contains = w.contains ∧ w₁.marked = w.marked ∧ key ∉ w₁.active ∧
      OnPath seed w₁.kids w₁.contains w₁.position w₁.active ∧
      ∀ fuel, pruneLoop parents (fuel + 1) (some key) w =
        match parents.lookup key with
        | none => none
        | some none => some w₁
        | some (some parent) =>
          (w₁.removeChild parent key).bind fun w => pruneLoop parents fuel (some parent) w := by
  obtain ⟨m, hleave, hnot⟩ := leaveActive_spec h.path hlookup
  have hcontains := contains_of_lookup hlookup
  rw [hmarked] at hcontains
  have hclean : Function.update w.contains key false = w.contains :=
    Function.update_eq_self_iff.mpr hcontains.symm
  refine ⟨⟨w.nodes.erase key, w.marked, w.active.take m⟩, kids_erase, contains_erase.trans hclean,
    rfl, hnot, ?_, fun fuel => ?_⟩
  · rw [kids_erase, contains_erase, position_erase]
    exact (h.path.take m).dropLeaf hnot
  · simp only [pruneLoop, hlookup, hmarked, Bool.false_eq_true, if_false, hchildren,
      List.head?_nil, hleave, pruneLoop_none]
    rfl

theorem pruneLoop_spec (htree : Tree seed parents) {n : Nat}
    (hdepth : Depth (fun k => parents.lookup k) key n) :
    ∀ {fuel : Nat} {w : DirtyWitness Key}, n < fuel →
      Indexed seed parents (fun k => k = key) marks w →
      ∃ w', pruneLoop parents fuel (some key) w = some w' ∧
        Indexed seed parents (fun _ => False) marks w' := by
  induction n using Nat.strongRecOn generalizing key with
  | ind n ih =>
    intro fuel w hfuel h
    obtain ⟨fuel, rfl⟩ := Nat.exists_eq_succ_of_ne_zero (Nat.ne_of_gt (Nat.zero_lt_of_lt hfuel))
    cases hlookup : w.nodes.lookup key with
    | none =>
      refine ⟨w, by simp only [pruneLoop, hlookup], h.unspare ?_⟩
      rintro k rfl hk
      rw [kids_eq_none_iff.mpr hlookup] at hk
      cases hk
    | some node =>
      have hcontains := contains_of_lookup hlookup
      have hkids := kids_of_lookup hlookup
      cases hmarked : node.marked with
      | true =>
        refine ⟨w, by simp only [pruneLoop, hlookup, hmarked, if_true], h.unspare ?_⟩
        rintro k rfl -
        rw [hcontains, hmarked]
      | false =>
        rw [hmarked] at hcontains
        cases hchildren : node.children with
        | cons child rest =>
          rw [hchildren] at hkids
          have h' := h.unspare fun k hk hnil => by
            rw [hk, hkids] at hnil
            cases hnil
          by_cases hlast : w.active.getLast? = some key
          · obtain ⟨w', hrun, -, -, hw'⟩ := h'.descend_first htree hlast hcontains hkids
            refine ⟨w', ?_, hw'⟩
            simp only [pruneLoop, hlookup, hmarked, Bool.false_eq_true, if_false, hchildren,
              List.head?_cons, hlast, if_true, hrun]
          · refine ⟨w, ?_, h'⟩
            simp only [pruneLoop, hlookup, hmarked, Bool.false_eq_true, if_false, hchildren,
              List.head?_cons, hlast]
        | nil =>
          rw [hchildren] at hkids
          obtain ⟨w₁, hkids₁, hcontains₁, hmarked₁, hnot, hpath, hrun⟩ :=
            pruneLoop_leaf h hlookup hmarked hchildren
          have hmarks := h.marks.of_eq hcontains₁ hmarked₁
          cases hdepth with
          | root hroot =>
            refine ⟨w₁, by rw [hrun, hroot], ?_, hpath, hmarks⟩
            rw [hkids₁, hcontains₁]
            refine (h.shape.dropLeaf hkids fun p cs hp hmem => ?_).mono (fun _ hl => hl.1)
              fun _ hs => absurd hs.1 hs.2
            exact nomatch (h.shape.child hp hmem).2.symm.trans hroot
          | @child _ parent n hchild hparent =>
            obtain ⟨cs, hcs, hmem⟩ := h.shape.up hkids id hchild
            have hne : parent ≠ key := by
              rintro rfl
              rw [hkids] at hcs
              cases hcs
              exact absurd hmem List.not_mem_nil
            have hcs₁ : w₁.kids parent = some cs := by
              rw [hkids₁, Function.update_of_ne hne, hcs]
            obtain ⟨w₂, hremove, honly, hkids₂⟩ := removeChild_spec hcs₁ key
            have hshape : Shape parents (fun _ => False) (fun k => k = parent) w₂.kids
                w₂.contains := by
              rw [hkids₂, hkids₁, honly.contains, hcontains₁, Function.update_comm hne.symm]
              have hout := h.shape.removeChild hcs hchild hchild
                fun _ _ => rfl
              refine (hout.dropLeaf ?_ fun p ds hp hmem' => ?_).mono ?_ ?_
              · rw [Function.update_of_ne hne.symm, hkids]
              · obtain ⟨hup⟩ := Option.some.inj ((hout.child hp hmem').2.symm.trans hchild)
                rw [Function.update_self] at hp
                cases hp
                exact ((mem_swapRemove (h.shape.nodup hcs)).mp hmem').1 rfl
              · rintro k ⟨hl | hl, hk⟩
                · exact hl
                · exact hk hl
              · rintro k ⟨hs | hs, hk⟩
                · exact absurd hs hk
                · exact hs
            have hpath₂ : OnPath seed w₂.kids w₂.contains w₂.position w₂.active := by
              rw [hkids₂, honly.contains, honly.position, honly.active]
              exact hpath.removeChild hnot hcs₁
            obtain ⟨w', hrun', hw'⟩ := @ih n (Nat.lt_succ_self n) parent hparent fuel _
              (by omega) ⟨hshape, hpath₂, hmarks.of_eq honly.contains honly.marked⟩
            refine ⟨w', ?_, hw'⟩
            rw [hrun, hchild]
            simp only [hremove, Option.bind_some, hrun']

theorem prune_spec (htree : Tree seed parents) (hmember : key ∈ parents)
    (h : Indexed seed parents (fun k => k = key) marks w) :
    ∃ w', w.prune key parents = some w' ∧ Indexed seed parents (fun _ => False) marks w' := by
  obtain ⟨above, habove⟩ := Finmap.mem_iff.mp hmember
  obtain ⟨n, hn⟩ := htree.grounded (k := key) (by rw [habove]; exact nofun)
  exact pruneLoop_spec htree hn (depth_lt_fuel hn) h

variable (key) in
theorem remove_spec (htree : Tree seed parents)
    (h : Indexed seed parents (fun _ => False) marks w) :
    ∃ w', w.remove key parents = some (w', decide (key ∈ marks)) ∧
      Indexed seed parents (fun _ => False) (marks.erase key) w' := by
  cases hlookup : w.nodes.lookup key with
  | none =>
    have hnot : key ∉ marks := fun hmem => by
      have := h.marks.contains_iff.mpr hmem
      rw [contains_of_none (kids_eq_none_iff.mpr hlookup)] at this
      cases this
    rw [Finset.erase_eq_of_notMem hnot, decide_eq_false hnot]
    exact ⟨w, by rw [remove, hlookup], h⟩
  | some node =>
    have hcontains := contains_of_lookup hlookup
    have hkids : (w.setNode key { node with marked := false }).kids = w.kids := by
      rw [kids_setNode, Function.update_eq_self_iff, kids_of_lookup hlookup]
    have hposition : (w.setNode key { node with marked := false }).position = w.position := by
      rw [position_setNode, Function.update_eq_self_iff, position_of_lookup hlookup]
    cases hmarked : node.marked with
    | false =>
      rw [hmarked] at hcontains
      have hsame : (w.setNode key { node with marked := false }).contains = w.contains := by
        rw [contains_setNode, Function.update_eq_self_iff, hcontains]
      have hnot : key ∉ marks := fun hmem => by
        rw [h.marks.contains_iff.mpr hmem] at hcontains
        cases hcontains
      rw [Finset.erase_eq_of_notMem hnot, decide_eq_false hnot]
      refine ⟨_, by simp only [remove, hlookup, hmarked, Bool.false_eq_true, if_false], ?_, ?_,
        h.marks.of_eq hsame rfl⟩
      · rw [hkids, hsame]
        exact h.shape
      · rw [hkids, hsame, hposition]
        exact h.path
    | true =>
      rw [hmarked] at hcontains
      have hmem := h.marks.contains_iff.mp hcontains
      have hindexed : Indexed seed parents (fun k => k = key) (marks.erase key)
          { w.setNode key { node with marked := false } with marked := w.marked - 1 } := by
        refine ⟨?_, ?_, ⟨fun {k} => ?_, ?_⟩⟩
        · show Shape parents _ _ (w.setNode key _).kids (w.setNode key _).contains
          rw [hkids, contains_setNode]
          refine h.shape.remark (fun k hk hne => ?_) fun k hf => absurd hf id
          rw [Function.update_of_ne hne, hk]
        · show OnPath seed (w.setNode key _).kids (w.setNode key _).contains
            (w.setNode key _).position w.active
          rw [hkids, contains_setNode, hposition]
          refine h.path.congr h.path.indexed (fun a _ b _ hlead => ⟨?_, hlead.2⟩) fun _ _ => rfl
          rcases eq_or_ne a key with rfl | hne
          · rw [Function.update_self]
          · rw [Function.update_of_ne hne, hlead.1]
        · show (w.setNode key _).contains k = true ↔ _
          rw [contains_setNode, Finset.mem_erase]
          rcases eq_or_ne k key with rfl | hne
          · simp
          · rw [Function.update_of_ne hne, h.marks.contains_iff]
            exact (and_iff_right hne).symm
        · rw [Finset.card_erase_of_mem hmem, h.marks.count]
      obtain ⟨above, habove⟩ := h.shape.member (kids_of_lookup hlookup)
      obtain ⟨w', hrun, hw'⟩ := prune_spec htree (Finmap.mem_of_lookup_eq_some habove) hindexed
      refine ⟨w', ?_, hw'⟩
      rw [decide_eq_true hmem]
      simp only [remove, hlookup, hmarked, if_true, Option.bind_eq_bind]
      exact congrArg (fun pruned => pruned.bind fun w => some (w, true)) hrun

/-! ## Moving a node -/

theorem reparent_spec (htree : Tree seed parents) (htree' : Tree seed parents')
    (hprevious : parents.lookup key = some (some previous))
    (hparent : parents'.lookup key = some (some parent))
    (hother : ∀ x, x ≠ key → parents'.lookup x = parents.lookup x)
    (h : Indexed seed parents (fun _ => False) marks w) :
    ∃ w', w.reparent key previous parent parents' = some w' ∧
      Indexed seed parents' (fun _ => False) marks w' := by
  cases hlookup : w.nodes.lookup key with
  | none =>
    have hnone := kids_eq_none_iff.mpr hlookup
    refine ⟨w, by rw [reparent, hlookup], h.shape.retree fun k cs hk => hother k ?_, h.path,
      h.marks⟩
    rintro rfl
    rw [hnone] at hk
    cases hk
  | some node =>
    have hkids := kids_of_lookup hlookup
    obtain ⟨m, hleave, hnot⟩ := leaveActive_spec h.path hlookup
    obtain ⟨cs, hcs, -⟩ := h.shape.up hkids id hprevious
    -- Out of the old list, with the path cut before it.
    obtain ⟨w₁, hremove, honly₁, hkids₁⟩ :=
      removeChild_spec (w := { w with active := w.active.take m }) hcs key
    have hshape₁ : Shape parents' (fun k => False ∨ k = key) (fun k => False ∨ k = previous)
        w₁.kids w₁.contains := by
      rw [hkids₁, honly₁.contains]
      exact h.shape.removeChild hcs hprevious hparent hother
    have hpath₁ : OnPath seed w₁.kids w₁.contains w₁.position w₁.active := by
      rw [hkids₁, honly₁.contains, honly₁.position, honly₁.active]
      exact (h.path.take m).removeChild hnot hcs
    have hkey₁ : ∃ ds, w₁.kids key = some ds := by
      rw [hkids₁]
      rcases eq_or_ne key previous with rfl | hne
      · exact ⟨_, Function.update_self ..⟩
      · exact ⟨node.children, (Function.update_of_ne hne ..).trans hkids⟩
    -- The new parent is listed, and then the node below it.
    have hmember : parent ∈ parents' := by
      by_contra hout
      exact htree'.parent_member hparent (Finmap.lookup_eq_none.mpr hout)
    obtain ⟨w₂, hensure, honly₂, hgrows₂, hshape₂, ds, hds⟩ :=
      ensurePath_spec htree' hshape₁ hmember
    have hpath₂ := OnPath.grow hpath₁ hgrows₂ honly₂
    obtain ⟨es, hes⟩ := hkey₁
    obtain ⟨fs, hfs, -⟩ := hgrows₂ key es hes
    have honly₃ := insertChild_only w₂ parent key
    have hindexed : Indexed seed parents' (fun k => k = previous) marks
        (w₂.insertChild parent key) := by
      refine ⟨?_, OnPath.grow hpath₂ (insertChild_grows w₂ parent key) honly₃, ?_⟩
      · rw [kids_insertChild, honly₃.contains, hds]
        refine (hshape₂.addChild hds hfs hparent).mono ?_ ?_
        · rintro k ⟨hl | hl, hk⟩
          · exact hl
          · exact hk hl
        · rintro k ⟨(hs | hs) | hs, hk⟩
          · exact absurd hs id
          · exact hs
          · exact absurd hs hk
      · have hmarks₁ : Marks marks w₁ := h.marks.of_eq honly₁.contains honly₁.marked
        have hmarks₂ := hmarks₁.of_eq honly₂.contains honly₂.marked
        exact hmarks₂.of_eq honly₃.contains honly₃.marked
    have hprevMember : previous ∈ parents' := by
      by_contra hout
      have hne : previous ≠ key := by
        rintro rfl
        exact htree.not_under hprevious .refl
      have := htree.parent_member hprevious
      rw [← hother previous hne] at this
      exact this (Finmap.lookup_eq_none.mpr hout)
    obtain ⟨w', hrun, hw'⟩ := prune_spec htree' hprevMember hindexed
    refine ⟨w', ?_, hw'⟩
    rw [reparent, hlookup]
    simp only [hleave, hremove, hensure, Option.bind_eq_bind, Option.bind_some, hrun]

end DirtyWitness

end Fz.Pull
