import Fz.Pull.DirtyWitness

/-!
# What the dirty index holds

The index is looked at through what it tells of a key: its children if it is indexed (`kids`),
whether it is marked, and the position it knows.  `Shape` says that the children are the tree's and
that no branch ends unmarked.  While an operation is under way some nodes are not yet listed below
their parents (`loose`) and some have lost their last child (`spare`).  `OnPath` says that the
active path goes from the seed down first children through nodes that are not marked.

Each operation is a few changes of these functions, and each change keeps both.
-/

namespace Fz.Pull

open Base

variable {Key : Type}

/-! ## The active path -/

/-- The next node of a path is the first child of one that is not marked. -/
def Leads (kids : Key → Option (List Key)) (marked : Key → Bool) (a b : Key) : Prop :=
  marked a = false ∧ ∃ cs, kids a = some (b :: cs)

structure OnPath (seed : Key) (kids : Key → Option (List Key)) (marked : Key → Bool)
    (position : Key → Option Nat) (active : List Key) : Prop where
  head : ∀ a ∈ active.head?, a = seed
  chain : active.IsChain (Leads kids marked)
  indexed : ∀ a ∈ active, ∃ cs, kids a = some cs
  position : ∀ {i a}, active[i]? = some a → position a = some i

namespace OnPath

variable {seed : Key}
  {kids kids' : Key → Option (List Key)} {marked marked' : Key → Bool}
  {position position' : Key → Option Nat} {active : List Key}

theorem nil : OnPath seed kids marked position [] where
  head := nofun
  chain := .nil
  indexed := nofun
  position h := nomatch h

theorem congr (h : OnPath seed kids marked position active)
    (hindexed : ∀ a ∈ active, ∃ cs, kids' a = some cs)
    (hleads : ∀ a ∈ active, ∀ b ∈ active, Leads kids marked a b → Leads kids' marked' a b)
    (hposition : ∀ a ∈ active, position' a = position a) :
    OnPath seed kids' marked' position' active where
  head := h.head
  chain := h.chain.imp_of_mem_imp fun a b ha hb => hleads a ha b hb
  indexed := hindexed
  position hi := by rw [hposition _ (List.mem_of_getElem? hi), h.position hi]

theorem take (h : OnPath seed kids marked position active) (n : Nat) :
    OnPath seed kids marked position (active.take n) where
  head a ha := by
    refine h.head a ?_
    cases n with
    | zero => exact nomatch ha
    | succ n => cases active with
      | nil => exact nomatch ha
      | cons b active => exact ha
  chain := h.chain.take n
  indexed a ha := h.indexed a (List.mem_of_mem_take ha)
  position {i a} hi := by
    rw [List.getElem?_take] at hi
    split at hi
    · exact h.position hi
    · exact nomatch hi

theorem index_unique (h : OnPath seed kids marked position active) {i j : Nat} {a : Key}
    (hi : active[i]? = some a) (hj : active[j]? = some a) : i = j :=
  Option.some.inj ((h.position hi).symm.trans (h.position hj))

theorem nodup (h : OnPath seed kids marked position active) : active.Nodup := by
  rw [List.nodup_iff_getElem?_ne_getElem?]
  intro i j hij hj heq
  have ha := List.getElem?_eq_getElem hj
  exact absurd (h.index_unique (heq.trans ha) ha) hij.ne

end OnPath

/-! ## The shape of the index -/

variable [DecidableEq Key]

structure Shape (parents : Parents Key) (loose spare : Key → Prop)
    (kids : Key → Option (List Key)) (marked : Key → Bool) : Prop where
  member : ∀ {k cs}, kids k = some cs → ∃ above, parents.lookup k = some above
  child : ∀ {k cs c}, kids k = some cs → c ∈ cs →
    (∃ ds, kids c = some ds) ∧ parents.lookup c = some (some k)
  nodup : ∀ {k cs}, kids k = some cs → cs.Nodup
  up : ∀ {k cs p}, kids k = some cs → ¬loose k → parents.lookup k = some (some p) →
    ∃ ds, kids p = some ds ∧ k ∈ ds
  leaf : ∀ {k}, kids k = some [] → ¬spare k → marked k = true

namespace Shape

variable {parents parents' : Parents Key} {loose spare loose' spare' : Key → Prop}
  {kids : Key → Option (List Key)} {marked marked' : Key → Bool} {k p c : Key} {cs ds : List Key}

theorem mono (h : Shape parents loose spare kids marked) (hloose : ∀ k, loose k → loose' k)
    (hspare : ∀ k, spare k → spare' k) : Shape parents loose' spare' kids marked where
  member := h.member
  child := h.child
  nodup := h.nodup
  up hk hnot := h.up hk fun hl => hnot (hloose _ hl)
  leaf hk hnot := h.leaf hk fun hs => hnot (hspare _ hs)

theorem remark (h : Shape parents loose spare kids marked)
    (hmarked : ∀ k, marked k = true → ¬spare' k → marked' k = true)
    (hspare : ∀ k, spare k → ¬spare' k → marked' k = true) :
    Shape parents loose spare' kids marked' where
  member := h.member
  child := h.child
  nodup := h.nodup
  up := h.up
  leaf {k} hk hnot := by
    by_cases hs : spare k
    · exact hspare k hs hnot
    · exact hmarked k (h.leaf hk hs) hnot

theorem retree (h : Shape parents loose spare kids marked)
    (heq : ∀ k cs, kids k = some cs → parents'.lookup k = parents.lookup k) :
    Shape parents' loose spare kids marked where
  member {k cs} hk := by
    rw [heq k cs hk]
    exact h.member hk
  child {k cs c} hk hc := by
    obtain ⟨⟨ds, hds⟩, hup⟩ := h.child hk hc
    exact ⟨⟨ds, hds⟩, by rw [heq c ds hds, hup]⟩
  nodup := h.nodup
  up {k cs p} hk hnot hup := h.up hk hnot (by rw [← heq k cs hk, hup])
  leaf := h.leaf

theorem addLeaf (h : Shape parents loose spare kids marked) (hk : kids k = none)
    {above : Option Key} (hmember : parents.lookup k = some above) :
    Shape parents (fun x => loose x ∨ x = k) (fun x => spare x ∨ x = k)
      (Function.update kids k (some [])) marked where
  member {x cs} hx := by
    rcases eq_or_ne x k with rfl | hne
    · exact ⟨above, hmember⟩
    · rw [Function.update_of_ne hne] at hx
      exact h.member hx
  child {x cs c} hx hc := by
    rcases eq_or_ne x k with rfl | hne
    · rw [Function.update_self] at hx
      cases hx
      exact absurd hc List.not_mem_nil
    · rw [Function.update_of_ne hne] at hx
      obtain ⟨⟨ds, hds⟩, hparent⟩ := h.child hx hc
      have hck : c ≠ k := fun heq => by
        rw [heq, hk] at hds
        cases hds
      exact ⟨⟨ds, by rw [Function.update_of_ne hck, hds]⟩, hparent⟩
  nodup {x cs} hx := by
    rcases eq_or_ne x k with rfl | hne
    · rw [Function.update_self] at hx
      cases hx
      exact List.nodup_nil
    · rw [Function.update_of_ne hne] at hx
      exact h.nodup hx
  up {x cs p} hx hnot hparent := by
    have hne : x ≠ k := fun heq => hnot (.inr heq)
    rw [Function.update_of_ne hne] at hx
    obtain ⟨ds, hds, hmem⟩ := h.up hx (fun hl => hnot (.inl hl)) hparent
    have hpk : p ≠ k := fun heq => by
      rw [heq, hk] at hds
      cases hds
    exact ⟨ds, by rw [Function.update_of_ne hpk, hds], hmem⟩
  leaf {x} hx hnot := by
    have hne : x ≠ k := fun heq => hnot (.inr heq)
    rw [Function.update_of_ne hne] at hx
    exact h.leaf hx fun hs => hnot (.inl hs)

theorem addChild (h : Shape parents loose spare kids marked) (hp : kids p = some cs)
    (hc : kids c = some ds) (hparent : parents.lookup c = some (some p)) :
    Shape parents (fun x => loose x ∧ x ≠ c) (fun x => spare x ∧ x ≠ p)
      (Function.update kids p (some (insertKey cs c))) marked where
  member {x es} hx := by
    rcases eq_or_ne x p with rfl | hne
    · exact h.member hp
    · rw [Function.update_of_ne hne] at hx
      exact h.member hx
  child {x es y} hx hy := by
    have hindexed : ∀ {y fs}, kids y = some fs →
        ∃ fs, Function.update kids p (some (insertKey cs c)) y = some fs := by
      intro y fs hy
      rcases eq_or_ne y p with rfl | hne
      · exact ⟨_, Function.update_self ..⟩
      · exact ⟨fs, by rw [Function.update_of_ne hne, hy]⟩
    rcases eq_or_ne x p with rfl | hne
    · rw [Function.update_self] at hx
      cases hx
      rcases mem_insertKey.mp hy with hy | rfl
      · obtain ⟨⟨fs, hfs⟩, hup⟩ := h.child hp hy
        exact ⟨hindexed hfs, hup⟩
      · exact ⟨hindexed hc, hparent⟩
    · rw [Function.update_of_ne hne] at hx
      obtain ⟨⟨fs, hfs⟩, hup⟩ := h.child hx hy
      exact ⟨hindexed hfs, hup⟩
  nodup {x es} hx := by
    rcases eq_or_ne x p with rfl | hne
    · rw [Function.update_self] at hx
      cases hx
      exact nodup_insertKey (h.nodup hp) c
    · rw [Function.update_of_ne hne] at hx
      exact h.nodup hx
  up {x es q} hx hnot hup := by
    have hlist : ∃ fs, kids q = some fs ∧ (x ∈ fs ∨ q = p ∧ x = c) := by
      rcases eq_or_ne x c with rfl | hxc
      · obtain rfl := Option.some.inj (Option.some.inj (hup.symm.trans hparent))
        exact ⟨cs, hp, .inr ⟨rfl, rfl⟩⟩
      · have hx' : ∃ es, kids x = some es := by
          rcases eq_or_ne x p with rfl | hne
          · exact ⟨cs, hp⟩
          · exact ⟨es, by rwa [Function.update_of_ne hne] at hx⟩
        obtain ⟨es', hx'⟩ := hx'
        obtain ⟨fs, hfs, hmem⟩ := h.up hx' (fun hl => hnot ⟨hl, hxc⟩) hup
        exact ⟨fs, hfs, .inl hmem⟩
    obtain ⟨fs, hfs, hmem⟩ := hlist
    rcases eq_or_ne q p with rfl | hne
    · cases hp.symm.trans hfs
      exact ⟨_, Function.update_self .., mem_insertKey.mpr (hmem.imp_right And.right)⟩
    · exact ⟨fs, by rw [Function.update_of_ne hne, hfs],
        hmem.resolve_right fun heq => hne heq.1⟩
  leaf {x} hx hnot := by
    rcases eq_or_ne x p with rfl | hne
    · rw [Function.update_self] at hx
      have hmem : c ∈ insertKey cs c := mem_insertKey.mpr (.inr rfl)
      rw [Option.some.inj hx] at hmem
      exact absurd hmem List.not_mem_nil
    · rw [Function.update_of_ne hne] at hx
      exact h.leaf hx fun hs => hnot ⟨hs, hne⟩

/-- A node taken from its parent's list, where the tree may have moved it. -/
theorem removeChild (h : Shape parents loose spare kids marked) (hp : kids p = some cs)
    (hc : parents.lookup c = some (some p)) {above : Option Key}
    (hc' : parents'.lookup c = some above)
    (hother : ∀ x, x ≠ c → parents'.lookup x = parents.lookup x) :
    Shape parents' (fun x => loose x ∨ x = c) (fun x => spare x ∨ x = p)
      (Function.update kids p (some (swapRemove cs c))) marked where
  member {x es} hx := by
    rcases eq_or_ne x c with rfl | hxc
    · exact ⟨above, hc'⟩
    · rw [hother x hxc]
      rcases eq_or_ne x p with rfl | hne
      · exact h.member hp
      · rw [Function.update_of_ne hne] at hx
        exact h.member hx
  child {x es y} hx hy := by
    have hold : ∃ fs, kids x = some fs ∧ y ∈ fs ∧ y ≠ c := by
      rcases eq_or_ne x p with rfl | hne
      · rw [Function.update_self] at hx
        cases hx
        obtain ⟨hyc, hy⟩ := (mem_swapRemove (h.nodup hp)).mp hy
        exact ⟨cs, hp, hy, hyc⟩
      · rw [Function.update_of_ne hne] at hx
        refine ⟨es, hx, hy, fun heq => hne ?_⟩
        have hup := (h.child hx hy).2
        rw [heq, hc] at hup
        exact (Option.some.inj (Option.some.inj hup)).symm
    obtain ⟨fs, hfs, hy, hyc⟩ := hold
    obtain ⟨⟨gs, hgs⟩, hup⟩ := h.child hfs hy
    refine ⟨?_, by rw [hother y hyc, hup]⟩
    rcases eq_or_ne y p with rfl | hne
    · exact ⟨_, Function.update_self ..⟩
    · exact ⟨gs, by rw [Function.update_of_ne hne, hgs]⟩
  nodup {x es} hx := by
    rcases eq_or_ne x p with rfl | hne
    · rw [Function.update_self] at hx
      cases hx
      exact nodup_swapRemove (h.nodup hp) c
    · rw [Function.update_of_ne hne] at hx
      exact h.nodup hx
  up {x es q} hx hnot hup := by
    have hxc : x ≠ c := fun heq => hnot (.inr heq)
    rw [hother x hxc] at hup
    have hx' : ∃ es, kids x = some es := by
      rcases eq_or_ne x p with rfl | hne
      · exact ⟨cs, hp⟩
      · exact ⟨es, by rwa [Function.update_of_ne hne] at hx⟩
    obtain ⟨es', hx'⟩ := hx'
    obtain ⟨fs, hfs, hmem⟩ := h.up hx' (fun hl => hnot (.inl hl)) hup
    rcases eq_or_ne q p with rfl | hne
    · cases hp.symm.trans hfs
      exact ⟨_, Function.update_self .., (mem_swapRemove (h.nodup hp)).mpr ⟨hxc, hmem⟩⟩
    · exact ⟨fs, by rw [Function.update_of_ne hne, hfs], hmem⟩
  leaf {x} hx hnot := by
    have hne : x ≠ p := fun heq => hnot (.inr heq)
    rw [Function.update_of_ne hne] at hx
    exact h.leaf hx fun hs => hnot (.inl hs)

/-- A leaf that stands in no list is taken out. -/
theorem dropLeaf (h : Shape parents loose spare kids marked) (hk : kids k = some [])
    (hnot : ∀ p cs, kids p = some cs → k ∉ cs) :
    Shape parents (fun x => loose x ∧ x ≠ k) (fun x => spare x ∧ x ≠ k)
      (Function.update kids k none) marked where
  member {x cs} hx := by
    rcases eq_or_ne x k with rfl | hne
    · rw [Function.update_self] at hx
      cases hx
    · rw [Function.update_of_ne hne] at hx
      exact h.member hx
  child {x cs c} hx hc := by
    rcases eq_or_ne x k with rfl | hne
    · rw [Function.update_self] at hx
      cases hx
    · rw [Function.update_of_ne hne] at hx
      have hck : c ≠ k := fun heq => hnot x cs hx (heq ▸ hc)
      rw [Function.update_of_ne hck]
      exact h.child hx hc
  nodup {x cs} hx := by
    rcases eq_or_ne x k with rfl | hne
    · rw [Function.update_self] at hx
      cases hx
    · rw [Function.update_of_ne hne] at hx
      exact h.nodup hx
  up {x cs p} hx hloose hup := by
    rcases eq_or_ne x k with rfl | hne
    · rw [Function.update_self] at hx
      cases hx
    · rw [Function.update_of_ne hne] at hx
      obtain ⟨ds, hds, hmem⟩ := h.up hx (fun hl => hloose ⟨hl, hne⟩) hup
      have hpk : p ≠ k := fun heq => by
        rw [heq, hk] at hds
        cases hds
        exact absurd hmem List.not_mem_nil
      exact ⟨ds, by rw [Function.update_of_ne hpk, hds], hmem⟩
  leaf {x} hx hspare := by
    rcases eq_or_ne x k with rfl | hne
    · rw [Function.update_self] at hx
      cases hx
    · rw [Function.update_of_ne hne] at hx
      exact h.leaf hx fun hs => hspare ⟨hs, hne⟩

end Shape

namespace OnPath

variable {parents : Parents Key} {loose spare : Key → Prop} {seed : Key}
  {kids : Key → Option (List Key)} {marked : Key → Bool} {position : Key → Option Nat}
  {active : List Key}

theorem notMem_of_last (h : OnPath seed kids marked position active)
    (hshape : Shape parents loose spare kids marked) (hseed : parents.lookup seed = some none)
    {a c : Key} {cs : List Key} (hlast : active.getLast? = some a) (ha : kids a = some cs)
    (hc : c ∈ cs) : c ∉ active := by
  intro hmem
  have hup := (hshape.child ha hc).2
  obtain ⟨i, hi⟩ := List.getElem?_of_mem hmem
  cases i with
  | zero =>
    rw [← List.head?_eq_getElem?] at hi
    rw [h.head c hi, hseed] at hup
    cases hup
  | succ i =>
    obtain ⟨hlt, hget⟩ := List.getElem?_eq_some_iff.mp hi
    obtain ⟨-, ds, hds⟩ := List.isChain_iff_getElem.mp h.chain i hlt
    rw [hget] at hds
    have hup' := (hshape.child hds (.head _)).2
    rw [hup] at hup'
    have heq : active[i] = a := (Option.some.inj (Option.some.inj hup')).symm
    rw [List.getLast?_eq_getElem?] at hlast
    have := h.index_unique (List.getElem?_eq_some_iff.mpr ⟨by omega, heq⟩) hlast
    omega

theorem dropLeaf (h : OnPath seed kids marked position active) {key : Key} (hnot : key ∉ active) :
    OnPath seed (Function.update kids key none) (Function.update marked key false)
      (Function.update position key none) active := by
  have hne : ∀ a ∈ active, a ≠ key := fun a ha heq => hnot (heq ▸ ha)
  refine h.congr (fun a ha => ?_) (fun a ha b _ hlead => ?_) fun a ha => ?_
  · rw [Function.update_of_ne (hne a ha)]
    exact h.indexed a ha
  · rw [Leads, Function.update_of_ne (hne a ha), Function.update_of_ne (hne a ha)]
    exact hlead
  · rw [Function.update_of_ne (hne a ha)]

theorem removeChild (h : OnPath seed kids marked position active) {key p : Key} {cs : List Key}
    (hnot : key ∉ active) (hp : kids p = some cs) :
    OnPath seed (Function.update kids p (some (swapRemove cs key))) marked position active := by
  refine h.congr (fun a ha => ?_) (fun a _ b hb hlead => ⟨hlead.1, ?_⟩) fun _ _ => rfl
  · rcases eq_or_ne a p with rfl | hne
    · exact ⟨_, Function.update_self ..⟩
    · rw [Function.update_of_ne hne]
      exact h.indexed a ha
  · obtain ⟨ds, hds⟩ := hlead.2
    rcases eq_or_ne a p with rfl | hne
    · obtain rfl := Option.some.inj (hp.symm.trans hds)
      obtain ⟨es, hes⟩ := swapRemove_cons (fun heq : b = key => hnot (heq ▸ hb)) ds
      exact ⟨es, by rw [Function.update_self, hes]⟩
    · exact ⟨ds, by rw [Function.update_of_ne hne, hds]⟩

theorem mark_of_notMem (h : OnPath seed kids marked position active) {key : Key}
    (hnot : key ∉ active) : OnPath seed kids (Function.update marked key true) position active := by
  refine h.congr h.indexed (fun a ha b _ hlead => ⟨?_, hlead.2⟩) fun _ _ => rfl
  have hne : a ≠ key := fun heq => hnot (heq ▸ ha)
  rw [Function.update_of_ne hne, hlead.1]

theorem mark_of_getElem? (h : OnPath seed kids marked position active)
    (hshape : Shape parents loose spare kids marked) (hseed : parents.lookup seed = some none)
    {key : Key} {i : Nat} (hi : active[i]? = some key) :
    OnPath seed kids (Function.update marked key true) position (active.take (i + 1)) := by
  have hcut := h.take (i + 1)
  have hlt : i < active.length := (List.getElem?_eq_some_iff.mp hi).1
  have hlast : (active.take (i + 1)).getLast? = some key := by
    rw [List.getLast?_eq_getElem?, List.length_take, Nat.min_eq_left (by omega), Nat.add_sub_cancel,
      List.getElem?_take, if_pos (Nat.lt_succ_self i), hi]
  refine hcut.congr hcut.indexed (fun a _ b hb hlead => ⟨?_, hlead.2⟩) fun _ _ => rfl
  have hne : a ≠ key := by
    rintro rfl
    obtain ⟨cs, hcs⟩ := hlead.2
    exact hcut.notMem_of_last hshape hseed hlast hcs (.head _) hb
  rw [Function.update_of_ne hne, hlead.1]

theorem push (h : OnPath seed kids marked position active) {child : Key} {cs : List Key}
    (hlast : ∀ a ∈ active.getLast?, Leads kids marked a child)
    (hhead : active = [] → child = seed) (hchild : kids child = some cs) (hnot : child ∉ active) :
    OnPath seed kids marked (Function.update position child (some active.length))
      (active ++ [child]) where
  head a ha := by
    cases active with
    | nil =>
      cases ha
      exact hhead rfl
    | cons b active => exact h.head a ha
  chain := by
    refine List.isChain_append.mpr ⟨h.chain, .singleton _, fun a ha b hb => ?_⟩
    cases hb
    exact hlast a ha
  indexed a ha := by
    rcases List.mem_append.mp ha with ha | ha
    · exact h.indexed a ha
    · exact ⟨cs, by rw [List.mem_singleton.mp ha, hchild]⟩
  position {i a} hi := by
    rw [List.getElem?_append] at hi
    split at hi
    · have hne : a ≠ child := fun heq => hnot (heq ▸ List.mem_of_getElem? hi)
      rw [Function.update_of_ne hne, h.position hi]
    · rw [List.getElem?_singleton] at hi
      split at hi
      · cases hi
        rw [Function.update_self]
        congr 1
        omega
      · exact nomatch hi

end OnPath

/-! ## What the index tells -/

namespace DirtyWitness

def kids (w : DirtyWitness Key) (k : Key) : Option (List Key) :=
  (w.nodes.lookup k).map DirtyNode.children

def position (w : DirtyWitness Key) (k : Key) : Option Nat :=
  (w.nodes.lookup k).bind DirtyNode.activePosition

variable {w w' w'' : DirtyWitness Key} {key parent child : Key} {node : DirtyNode Key}
  {cs : List Key}

theorem mem_nodes_iff : key ∈ w.nodes ↔ ∃ cs, w.kids key = some cs := by
  rw [Finmap.mem_iff, kids]
  cases w.nodes.lookup key <;> simp

theorem kids_of_lookup (h : w.nodes.lookup key = some node) : w.kids key = some node.children := by
  rw [kids, h]
  rfl

theorem contains_of_lookup (h : w.nodes.lookup key = some node) : w.contains key = node.marked := by
  rw [contains, h]
  rfl

theorem position_of_lookup (h : w.nodes.lookup key = some node) :
    w.position key = node.activePosition := by
  rw [position, h]
  rfl

theorem lookup_of_kids (h : w.kids key = some cs) :
    ∃ node, w.nodes.lookup key = some node ∧ node.children = cs := by
  rw [kids, Option.map_eq_some_iff] at h
  exact h

theorem kids_eq_none_iff : w.kids key = none ↔ w.nodes.lookup key = none := by
  rw [kids, Option.map_eq_none_iff]

theorem contains_of_none (h : w.kids key = none) : w.contains key = false := by
  rw [contains, kids_eq_none_iff.mp h]
  rfl

theorem position_of_none (h : w.kids key = none) : w.position key = none := by
  rw [position, kids_eq_none_iff.mp h]
  rfl

theorem kids_setNode : (w.setNode key node).kids = Function.update w.kids key node.children := by
  funext k
  rcases eq_or_ne k key with rfl | hne
  · rw [Function.update_self, kids, setNode, Finmap.lookup_insert]
    rfl
  · rw [Function.update_of_ne hne, kids, setNode, Finmap.lookup_insert_of_ne _ hne, kids]

theorem contains_setNode :
    (w.setNode key node).contains = Function.update w.contains key node.marked := by
  funext k
  rcases eq_or_ne k key with rfl | hne
  · rw [Function.update_self, contains, setNode, Finmap.lookup_insert]
    rfl
  · rw [Function.update_of_ne hne, contains, setNode, Finmap.lookup_insert_of_ne _ hne, contains]

theorem position_setNode :
    (w.setNode key node).position = Function.update w.position key node.activePosition := by
  funext k
  rcases eq_or_ne k key with rfl | hne
  · rw [Function.update_self, position, setNode, Finmap.lookup_insert]
    rfl
  · rw [Function.update_of_ne hne, position, setNode, Finmap.lookup_insert_of_ne _ hne, position]

theorem kids_erase {n : Nat} {active : List Key} :
    (⟨w.nodes.erase key, n, active⟩ : DirtyWitness Key).kids = Function.update w.kids key none := by
  funext k
  rcases eq_or_ne k key with rfl | hne
  · rw [Function.update_self, kids, Finmap.lookup_erase]
    rfl
  · rw [Function.update_of_ne hne, kids, Finmap.lookup_erase_ne hne, kids]

theorem contains_erase {n : Nat} {active : List Key} :
    (⟨w.nodes.erase key, n, active⟩ : DirtyWitness Key).contains =
      Function.update w.contains key false := by
  funext k
  rcases eq_or_ne k key with rfl | hne
  · rw [Function.update_self, contains, Finmap.lookup_erase]
    rfl
  · rw [Function.update_of_ne hne, contains, Finmap.lookup_erase_ne hne, contains]

theorem position_erase {n : Nat} {active : List Key} :
    (⟨w.nodes.erase key, n, active⟩ : DirtyWitness Key).position =
      Function.update w.position key none := by
  funext k
  rcases eq_or_ne k key with rfl | hne
  · rw [Function.update_self, position, Finmap.lookup_erase]
    rfl
  · rw [Function.update_of_ne hne, position, Finmap.lookup_erase_ne hne, position]

/-- Only lists of children change. -/
structure KidsOnly (w w' : DirtyWitness Key) : Prop where
  contains : w'.contains = w.contains
  position : w'.position = w.position
  marked : w'.marked = w.marked
  active : w'.active = w.active

theorem KidsOnly.refl (w : DirtyWitness Key) : KidsOnly w w := ⟨rfl, rfl, rfl, rfl⟩

theorem KidsOnly.trans (h : KidsOnly w w') (h' : KidsOnly w' w'') : KidsOnly w w'' :=
  ⟨h'.contains.trans h.contains, h'.position.trans h.position, h'.marked.trans h.marked,
    h'.active.trans h.active⟩

/-- Nothing is taken out, and new children stand behind the others. -/
def Grows (w w' : DirtyWitness Key) : Prop :=
  ∀ k cs, w.kids k = some cs → ∃ ds, w'.kids k = some ds ∧ cs <+: ds

theorem Grows.refl (w : DirtyWitness Key) : Grows w w := fun _ cs h => ⟨cs, h, List.prefix_rfl⟩

theorem Grows.trans (h : Grows w w') (h' : Grows w' w'') : Grows w w'' := by
  intro k cs hk
  obtain ⟨ds, hds, hpre⟩ := h k cs hk
  obtain ⟨es, hes, hpre'⟩ := h' k ds hds
  exact ⟨es, hes, hpre.trans hpre'⟩

theorem OnPath.grow {seed : Key} (h : OnPath seed w.kids w.contains w.position w.active)
    (hgrows : Grows w w') (honly : KidsOnly w w') :
    OnPath seed w'.kids w'.contains w'.position w'.active := by
  rw [honly.active]
  refine h.congr (fun a ha => ?_) (fun a _ b _ hlead => ?_) fun a _ => by rw [honly.position]
  · obtain ⟨cs, hcs⟩ := h.indexed a ha
    obtain ⟨ds, hds, -⟩ := hgrows a cs hcs
    exact ⟨ds, hds⟩
  · obtain ⟨hmarked, cs, hcs⟩ := hlead
    obtain ⟨ds, hds, es, rfl⟩ := hgrows a _ hcs
    exact ⟨by rw [honly.contains, hmarked], _, hds⟩

theorem kids_insertChild : (w.insertChild parent child).kids =
    Function.update w.kids parent (some (insertKey ((w.kids parent).getD []) child)) := by
  rw [insertChild, kids_setNode]
  cases hlookup : w.nodes.lookup parent with
  | none =>
    rw [kids_eq_none_iff.mpr hlookup]
    rfl
  | some node =>
    rw [kids_of_lookup hlookup]
    rfl

theorem insertChild_only (w : DirtyWitness Key) (parent child : Key) :
    KidsOnly w (w.insertChild parent child) := by
  refine ⟨?_, ?_, rfl, rfl⟩
  · rw [insertChild, contains_setNode, Function.update_eq_self_iff]
    cases hlookup : w.nodes.lookup parent with
    | none => rw [contains_of_none (kids_eq_none_iff.mpr hlookup)]; rfl
    | some node => rw [contains_of_lookup hlookup]; rfl
  · rw [insertChild, position_setNode, Function.update_eq_self_iff]
    cases hlookup : w.nodes.lookup parent with
    | none => rw [position_of_none (kids_eq_none_iff.mpr hlookup)]; rfl
    | some node => rw [position_of_lookup hlookup]; rfl

theorem insertChild_grows (w : DirtyWitness Key) (parent child : Key) :
    Grows w (w.insertChild parent child) := by
  intro k cs hk
  rw [kids_insertChild]
  rcases eq_or_ne k parent with rfl | hne
  · rw [Function.update_self, hk]
    exact ⟨_, rfl, prefix_insertKey cs child⟩
  · rw [Function.update_of_ne hne]
    exact ⟨cs, hk, List.prefix_rfl⟩

theorem removeChild_spec (hparent : w.kids parent = some cs) (child : Key) :
    ∃ w', w.removeChild parent child = some w' ∧ KidsOnly w w' ∧
      w'.kids = Function.update w.kids parent (some (swapRemove cs child)) := by
  obtain ⟨node, hlookup, rfl⟩ := lookup_of_kids hparent
  refine ⟨w.setNode parent { node with children := swapRemove node.children child }, ?_,
    ⟨?_, ?_, rfl, rfl⟩, kids_setNode⟩
  · rw [removeChild, hlookup]
    rfl
  · rw [contains_setNode, Function.update_eq_self_iff, contains_of_lookup hlookup]
  · rw [position_setNode, Function.update_eq_self_iff, position_of_lookup hlookup]

/-- Only the active path changes. -/
structure PathOnly (w w' : DirtyWitness Key) : Prop where
  kids : w'.kids = w.kids
  contains : w'.contains = w.contains
  marked : w'.marked = w.marked

theorem PathOnly.refl (w : DirtyWitness Key) : PathOnly w w := ⟨rfl, rfl, rfl⟩

theorem PathOnly.trans (h : PathOnly w w') (h' : PathOnly w' w'') : PathOnly w w'' :=
  ⟨h'.kids.trans h.kids, h'.contains.trans h.contains, h'.marked.trans h.marked⟩

theorem positionOf_spec {seed : Key} (h : OnPath seed w.kids w.contains w.position w.active)
    (hlookup : w.nodes.lookup key = some node) :
    (∃ i, w.positionOf key node = some i ∧ w.active[i]? = some key) ∨
      (w.positionOf key node = none ∧ key ∉ w.active) := by
  rw [positionOf]
  by_cases hmem : key ∈ w.active
  · obtain ⟨i, hi⟩ := List.getElem?_of_mem hmem
    have hposition := h.position hi
    rw [position_of_lookup hlookup] at hposition
    exact .inl ⟨i, by simp [hposition, hi], hi⟩
  · refine .inr ⟨?_, hmem⟩
    rw [Option.filter_eq_none_iff]
    intro i _ hi
    exact hmem (List.mem_of_getElem? (decide_eq_true_eq.mp hi))

theorem leaveActive_spec {seed : Key} (h : OnPath seed w.kids w.contains w.position w.active)
    (hlookup : w.nodes.lookup key = some node) :
    ∃ n, w.leaveActive key node = { w with active := w.active.take n } ∧
      key ∉ w.active.take n := by
  rw [leaveActive]
  rcases positionOf_spec h hlookup with ⟨i, hi, hget⟩ | ⟨hnone, hnot⟩
  · rw [hi]
    refine ⟨i, truncateActive_eq w i, fun hmem => ?_⟩
    obtain ⟨j, hj⟩ := List.getElem?_of_mem hmem
    rw [List.getElem?_take] at hj
    split at hj
    · have := h.index_unique hj hget
      omega
    · exact nomatch hj
  · rw [hnone]
    exact ⟨w.active.length, by rw [List.take_length], by rwa [List.take_length]⟩

theorem descend_spec (hchild : w.kids child = some cs) :
    ∃ w', w.descend child = some w' ∧ PathOnly w w' ∧
      w'.position = Function.update w.position child (some w.active.length) ∧
      w'.active = w.active ++ [child] := by
  obtain ⟨node, hlookup, rfl⟩ := lookup_of_kids hchild
  refine ⟨{ w.setNode child { node with activePosition := some w.active.length } with
    active := w.active ++ [child] }, ?_, ⟨?_, ?_, rfl⟩, ?_, rfl⟩
  · rw [descend, hlookup]
    rfl
  · exact kids_setNode.trans (Function.update_eq_self_iff.mpr (kids_of_lookup hlookup).symm)
  · exact contains_setNode.trans (Function.update_eq_self_iff.mpr (contains_of_lookup hlookup).symm)
  · exact position_setNode

end DirtyWitness

end Fz.Pull
