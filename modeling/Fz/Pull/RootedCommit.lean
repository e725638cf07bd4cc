import Fz.Pull.RootedRepair

/-!
# A commit at one reader

A commit replaces the edges of several owners at once, and a rooted set takes over the owners one
after another (`takeOver`).  In between, an owner that is still to do may have pointers along edges
that are gone (`Settling`).  When the last owner is done, the pointers are a witness along the
committed edges, and the rooted set is closed under them.

The reader notes every key whose membership moves at any stage.  A key may move twice, so what is
noted can be more than what differs in the end.  `Noted` is the bound: where every stage lies
between two sets, only keys between the two sets are noted.  `Steady` is a condition on the edges
before and after the commit under which the two sets are what is reached both before and after and
what is reached before or after.  A commit of one product is always steady.
-/

namespace Fz.Pull

open Relation
open Base (sorted mem_sorted)

variable {Key Value : Type} [LinearOrder Key]

namespace RootedProducts

variable {memo : ProductMemo Key Value} {E U : Key → Key → Prop} {rooted out : RootedProducts Key}
  {owner : Key}

/-! ## Sequences of repairs -/

/-- One repair after another, with the pointers along the edges `U` throughout. -/
def Moves (memo : ProductMemo Key Value) (U : Key → Key → Prop) :
    RootedProducts Key → RootedProducts Key → Prop :=
  ReflTransGen fun r r' => (∃ touched, Moved memo r (r', touched)) ∧ r'.Tree U

/-- The keys that the seed reaches without leaving the rooted set. -/
def Inside (memo : ProductMemo Key Value) (rooted : RootedProducts Key) : Key → Prop :=
  ReflTransGen (fun x y => y ∈ memo.membership x ∧ y ∈ rooted.parents) rooted.seed

theorem Tree.inside_mem (h : rooted.Tree E) {x : Key} (hx : rooted.Inside memo x) :
    x ∈ rooted.parents := by
  cases hx with
  | refl => exact h.seed_mem
  | tail _ hstep => exact hstep.2

theorem Moved.inside {touched : Finset Key} (h : Moved memo rooted (out, touched))
    (hout : out.Tree U) {x : Key} (hx : rooted.Inside memo x) : out.Inside memo x := by
  have hseed : out.seed = rooted.seed := h.seed
  induction hx with
  | refl => exact hseed ▸ .refl
  | @tail y z _ hedge ih =>
    exact ih.tail ⟨hedge.1, h.closed y (hout.inside_mem ih) z hedge.1 fun _ => hedge.2⟩

namespace Moves

theorem seed_eq (h : Moves memo U rooted out) : out.seed = rooted.seed := by
  induction h with
  | refl => rfl
  | tail _ hstep ih =>
    obtain ⟨⟨_, hmoved⟩, _⟩ := hstep
    exact hmoved.seed.trans ih

theorem tree (h : Moves memo U rooted out) (hrooted : rooted.Tree U) : out.Tree U := by
  cases h with
  | refl => exact hrooted
  | tail _ hstep => exact hstep.2

theorem closed (h : Moves memo U rooted out) {P : Key → Key → Prop}
    (hclosed : ∀ x ∈ rooted.parents, ∀ y ∈ memo.membership x, P x y → y ∈ rooted.parents) :
    ∀ x ∈ out.parents, ∀ y ∈ memo.membership x, P x y → y ∈ out.parents := by
  induction h with
  | refl => exact hclosed
  | tail _ hstep ih =>
    obtain ⟨⟨_, hmoved⟩, _⟩ := hstep
    exact fun x hx y hy hP => hmoved.closed x hx y hy fun hold => ih x hold y hy hP

theorem changes_subset (h : Moves memo U rooted out) {x : Key} (hx : x ∈ rooted.changes) :
    x ∈ out.changes := by
  induction h with
  | refl => exact hx
  | tail _ hstep ih =>
    obtain ⟨⟨_, hmoved⟩, _⟩ := hstep
    exact (hmoved.changes x).mpr (.inl ih)

theorem changes_of_moved (h : Moves memo U rooted out) {x : Key}
    (hx : ¬ (x ∈ rooted.parents ↔ x ∈ out.parents)) : x ∈ out.changes := by
  induction h with
  | refl => exact absurd Iff.rfl hx
  | @tail middle out _ hstep ih =>
    obtain ⟨⟨_, hmoved⟩, _⟩ := hstep
    rw [hmoved.changes]
    by_cases hmiddle : x ∈ rooted.parents ↔ x ∈ middle.parents
    · exact .inr fun hlast => hx (hmiddle.trans hlast)
    · exact .inl (ih hmiddle)

theorem inside (h : Moves memo U rooted out) {x : Key} (hx : rooted.Inside memo x) :
    out.Inside memo x := by
  induction h with
  | refl => exact hx
  | tail _ hstep ih =>
    obtain ⟨⟨_, hmoved⟩, htree⟩ := hstep
    exact hmoved.inside htree ih

theorem changes_between (h : Moves memo U rooted out) {lo hi : Key → Prop}
    (hrooted : rooted.Tree U) (hlo : ∀ x, lo x → rooted.Inside memo x)
    (hhi : ∀ x, ReflTransGen U rooted.seed x → hi x) {x : Key} (hx : x ∈ out.changes) :
    x ∈ rooted.changes ∨ hi x ∧ ¬ lo x := by
  induction h with
  | refl => exact .inl hx
  | @tail middle out hmoves hstep ih =>
    obtain ⟨⟨_, hmoved⟩, htree⟩ := hstep
    have hmiddle := Moves.tree hmoves hrooted
    rcases (hmoved.changes x).mp hx with hold | hdiffers
    · exact ih hold
    · right
      constructor
      · by_cases hbefore : x ∈ middle.parents
        · exact hhi x (Moves.seed_eq hmoves ▸ hmiddle.mem_reach hbefore)
        · have hafter : x ∈ out.parents := by
            by_contra hout
            exact hdiffers (iff_of_false hbefore hout)
          have hreach := htree.mem_reach hafter
          rw [show out.seed = rooted.seed from hmoved.seed.trans (Moves.seed_eq hmoves)] at hreach
          exact hhi x hreach
      · intro hin
        have hbefore := Moves.inside hmoves (hlo x hin)
        have hafter := hmoved.inside htree hbefore
        exact hdiffers (iff_of_true (hmiddle.inside_mem hbefore) (htree.inside_mem hafter))

end Moves

/-! ## One owner -/

variable {s : RootedProducts Key × Finset Key}

theorem attachAll_attached (hE : ∀ {x y}, y ∈ memo.membership x → E x y) {children : List Key}
    (hs : Attached memo E rooted s)
    (howner : owner ∈ rooted.parents) (hchildren : ∀ c ∈ children, E owner c) :
    Attached memo E rooted (attachAll memo owner children s) ∧
      (∀ k ∈ s.1.parents, k ∈ (attachAll memo owner children s).1.parents) ∧
      ∀ c ∈ children, c ∈ (attachAll memo owner children s).1.parents := by
  induction children generalizing s with
  | nil => exact ⟨hs, fun _ hk => hk, nofun⟩
  | cons child children ih =>
    obtain ⟨r, touched⟩ := s
    obtain ⟨hchild, hchildren⟩ := List.forall_mem_cons.mp hchildren
    obtain ⟨hattached, hself⟩ :=
      attach_attached hE hs.tree ((hs.members owner).mpr (.inl howner)) hchild
    obtain ⟨hout, hgrow, hentered⟩ := ih (hs.trans hattached) hchildren
    refine ⟨hout, fun k hk => ?_, List.forall_mem_cons.mpr ⟨hgrow child hself, hentered⟩⟩
    exact hgrow k ((hattached.members k).mpr (.inl hk))

/-- The committed edges, some stale ones, and those that an owner still has to give up. -/
def edgesWith (memo : ProductMemo Key Value) (stale : Key → Key → Prop) (owner : Key)
    (left : List Key) (x y : Key) : Prop :=
  y ∈ memo.membership x ∨ stale x y ∨ x = owner ∧ y ∈ left

theorem removeAll_moves {stale : Key → Key → Prop}
    (hreaders : ∀ {x y}, x ∈ memo.membershipReaders y ↔ y ∈ memo.membership x) {left : List Key}
    (htree : s.1.Tree (edgesWith memo stale owner left))
    (hU : ∀ {x y}, edgesWith memo stale owner left x y → U x y) :
    (removeAll memo owner left s).1.Tree (edgesWith memo stale owner []) ∧
      Moves memo U s.1 (removeAll memo owner left s).1 ∧
      (∀ x ∈ s.2, x ∈ (removeAll memo owner left s).2) ∧
      ∀ x, ¬ (x ∈ s.1.parents ↔ x ∈ (removeAll memo owner left s).1.parents) →
        x ∈ (removeAll memo owner left s).2 := by
  induction left generalizing s with
  | nil => exact ⟨htree, .refl, fun _ hx => hx, fun _ hx => absurd Iff.rfl hx⟩
  | cons child left ih =>
    obtain ⟨r, touched⟩ := s
    have hless : ∀ {x y}, edgesWith memo stale owner left x y →
        edgesWith memo stale owner (child :: left) x y := by
      rintro x y (h | h | ⟨rfl, h⟩)
      · exact .inl h
      · exact .inr (.inl h)
      · exact .inr (.inr ⟨rfl, List.mem_cons_of_mem _ h⟩)
    have hgone : ∀ {x y}, edgesWith memo stale owner (child :: left) x y →
        ¬ (x = owner ∧ y = child) → edgesWith memo stale owner left x y := by
      rintro x y (h | h | ⟨rfl, h⟩) hne
      · exact .inl h
      · exact .inr (.inl h)
      · rcases List.mem_cons.mp h with rfl | h
        · exact absurd ⟨rfl, rfl⟩ hne
        · exact .inr (.inr ⟨rfl, h⟩)
    obtain ⟨hmoved, htree'⟩ := removeEdge_moved hgone .inl hreaders hless htree
    obtain ⟨hdone, hmoves, hkept, htouched⟩ := ih (s := ((r.removeEdge memo owner child).1,
      touched ∪ (r.removeEdge memo owner child).2)) htree' fun h => hU (hless h)
    refine ⟨hdone, .head ⟨⟨_, hmoved⟩, htree'.imp fun _ h => hU (hless h)⟩ hmoves,
      fun x hx => hkept x (Finset.mem_union_left _ hx), fun x hx => ?_⟩
    by_cases hfirst : x ∈ r.parents ↔ x ∈ (r.removeEdge memo owner child).1.parents
    · exact htouched x fun hrest => hx (hfirst.trans hrest)
    · exact hkept x (Finset.mem_union_right _ (hmoved.touched x hfirst))

/-- A rooted set in the middle of a commit: the owners to do may still have pointers along their
previous edges, and need not have followed their new ones. -/
structure Settling (memo : ProductMemo Key Value) (previous : Key → Finset Key) (todo : List Key)
    (rooted : RootedProducts Key) : Prop where
  tree : rooted.Tree fun x y => y ∈ memo.membership x ∨ x ∈ todo ∧ y ∈ previous x
  closed : ∀ x ∈ rooted.parents, ∀ y ∈ memo.membership x, (x ∈ todo → y ∈ previous x) →
    y ∈ rooted.parents

/-- The edges before or after a commit. -/
def eitherEdge (memo : ProductMemo Key Value) (previous : Key → Finset Key) (x y : Key) : Prop :=
  y ∈ memo.membership x ∨ y ∈ previous x

theorem Attached.imp (h : Attached memo E rooted s)
    (hE : ∀ {x y}, E x y → U x y) : Attached memo U rooted s where
  tree := h.tree.imp fun _ => hE
  seed := h.seed
  members := h.members
  fresh := h.fresh
  changes := h.changes
  closed := h.closed

variable {previous : Key → Finset Key} {todo : List Key}

theorem Settling.tree_either (h : Settling memo previous todo rooted) :
    rooted.Tree (eitherEdge memo previous) :=
  h.tree.imp fun _ => Or.imp id And.right

/-- An owner first follows its new edges, then gives up the ones that are gone. -/
theorem Settling.replaceEdges
    (hreaders : ∀ {x y}, x ∈ memo.membershipReaders y ↔ y ∈ memo.membership x)
    (h : Settling memo previous (owner :: todo) rooted) (howner : owner ∈ rooted.parents)
    (htodo : owner ∉ todo) :
    ∃ grown touched, Attached memo (eitherEdge memo previous) rooted (grown, touched) ∧
      (∀ y ∈ memo.membership owner, y ∈ grown.parents) ∧ Moves memo (eitherEdge memo previous) grown
        (rooted.replaceEdges memo owner (previous owner)).1 ∧
      Settling memo previous todo (rooted.replaceEdges memo owner (previous owner)).1 ∧
      ∀ x, ¬ (x ∈ rooted.parents ↔
          x ∈ (rooted.replaceEdges memo owner (previous owner)).1.parents) →
        x ∈ (rooted.replaceEdges memo owner (previous owner)).2 := by
  obtain ⟨hgrown, _, hentered⟩ := attachAll_attached .inl (Attached.rfl' h.tree) howner
    fun c hc => Or.inl (Finset.mem_sdiff.mp (mem_sorted.mp hc)).1
  dsimp only [RootedProducts.replaceEdges]
  generalize attachAll memo owner (sorted (memo.membership owner \ previous owner)) (rooted, ∅) = s
    at hgrown hentered ⊢
  obtain ⟨grown, touched⟩ := s
  have hfollowed : ∀ y ∈ memo.membership owner, y ∈ grown.parents := by
    intro y hy
    by_cases hold : y ∈ previous owner
    · exact (hgrown.members y).mpr (.inl (h.closed owner howner y hy fun _ => hold))
    · exact hentered y (mem_sorted.mpr (Finset.mem_sdiff.mpr ⟨hy, hold⟩))
  have htree : grown.Tree (edgesWith memo (fun x y => x ∈ todo ∧ y ∈ previous x) owner
      (sorted (previous owner \ memo.membership owner))) := by
    refine hgrown.tree.imp fun {y x} _ hedge => ?_
    rcases hedge with hedge | ⟨hx, hy⟩
    · exact .inl hedge
    · rcases List.mem_cons.mp hx with rfl | hx
      · by_cases hnext : y ∈ memo.membership x
        · exact .inl hnext
        · exact .inr (.inr ⟨rfl, mem_sorted.mpr (Finset.mem_sdiff.mpr ⟨hy, hnext⟩)⟩)
      · exact .inr (.inl ⟨hx, hy⟩)
  obtain ⟨hdone, hmoves, hkept, htouched⟩ :=
    removeAll_moves (U := eitherEdge memo previous) (s := (grown, touched)) hreaders htree (by
      rintro x y (hedge | ⟨_, hedge⟩ | ⟨rfl, hedge⟩)
      · exact .inl hedge
      · exact .inr hedge
      · exact .inr (Finset.mem_sdiff.mp (mem_sorted.mp hedge)).1)
  refine ⟨grown, touched, hgrown.imp (Or.imp id And.right), hfollowed, hmoves, ⟨?_, ?_⟩,
    fun x hx => ?_⟩
  · refine hdone.imp fun _ hedge => ?_
    rcases hedge with hedge | hedge | ⟨_, hedge⟩
    · exact .inl hedge
    · exact .inr hedge
    · cases hedge
  · refine hmoves.closed (P := fun x y => x ∈ todo → y ∈ previous x) fun x hx y hy hstale => ?_
    rcases (hgrown.members x).mp hx with hold | hnew
    · rcases eq_or_ne x owner with rfl | hne
      · exact hfollowed y hy
      · refine (hgrown.members y).mpr (.inl (h.closed x hold y hy fun hx => hstale ?_))
        exact (List.mem_cons.mp hx).resolve_left hne
    · exact hgrown.closed x hnew y hy
  · by_cases hgrew : x ∈ rooted.parents ↔ x ∈ grown.parents
    · exact htouched x fun hrest => hx (hgrew.trans hrest)
    · exact hkept x (hgrown.moved.touched x hgrew)

theorem Settling.pass (h : Settling memo previous (owner :: todo) rooted)
    (howner : owner ∉ rooted.parents) : Settling memo previous todo rooted where
  tree := h.tree.imp fun {y x} hy hedge => by
    rcases hedge with hedge | ⟨hx, hedge⟩
    · exact .inl hedge
    · rcases List.mem_cons.mp hx with rfl | hx
      · exact absurd (h.tree.parent_mem hy) howner
      · exact .inr ⟨hx, hedge⟩
  closed x hx y hy hstale := h.closed x hx y hy fun hmem => by
    rcases List.mem_cons.mp hmem with rfl | hmem
    · exact absurd hx howner
    · exact hstale hmem

/-! ## A commit -/

/-- A rooted set takes over the edges of an owner that it reaches. -/
def takeOver (memo : ProductMemo Key Value) (rooted : RootedProducts Key)
    (member : Prepared Key Value) : RootedProducts Key :=
  if member.key ∈ rooted.parents then
    (rooted.replaceEdges memo member.key member.previous).1.ownerSettled member.key member.changed
  else rooted

variable {member : Prepared Key Value}

theorem Settling.takeOver (hreaders : ∀ {x y}, x ∈ memo.membershipReaders y ↔ y ∈ memo.membership x)
    (hprevious : member.previous = previous member.key)
    (h : Settling memo previous (member.key :: todo) rooted) (htodo : member.key ∉ todo) :
    Settling memo previous todo (rooted.takeOver memo member) := by
  unfold RootedProducts.takeOver
  split
  · rename_i howner
    rw [hprevious]
    obtain ⟨_, _, _, _, _, hsettling, _⟩ := h.replaceEdges hreaders howner htodo
    exact ⟨⟨hsettling.tree.witness, hsettling.tree.children⟩, hsettling.closed⟩
  · rename_i howner
    exact h.pass howner

theorem Settling.takeOver_seed
    (hreaders : ∀ {x y}, x ∈ memo.membershipReaders y ↔ y ∈ memo.membership x)
    (hprevious : member.previous = previous member.key)
    (h : Settling memo previous (member.key :: todo) rooted) (htodo : member.key ∉ todo) :
    (rooted.takeOver memo member).seed = rooted.seed := by
  unfold RootedProducts.takeOver
  split
  · rename_i howner
    rw [hprevious]
    obtain ⟨grown, _, hgrown, _, hmoves, _, _⟩ := h.replaceEdges hreaders howner htodo
    exact hmoves.seed_eq.trans hgrown.seed
  · rfl

/-- What a reader has noted since the start of a commit, where its rooted set lies between two sets
of keys: the keys whose membership differs, the changed owners that it kept, and no others. -/
structure Noted (lo hi : Key → Prop) (start : RootedProducts Key) (done : List (Prepared Key Value))
    (rooted : RootedProducts Key) : Prop where
  seed : rooted.seed = start.seed
  differs : ∀ x, x ∈ start.changes ∨ ¬ (x ∈ start.parents ↔ x ∈ rooted.parents) → x ∈ rooted.changes
  owners : ∀ member ∈ done, member.changed = true → lo member.key → member.key ∈ rooted.changes
  only : ∀ x ∈ rooted.changes, x ∈ start.changes ∨ hi x ∧ ¬ lo x ∨
    ∃ member ∈ done, member.changed = true ∧ member.key = x ∧ hi x

variable {lo hi : Key → Prop} {start : RootedProducts Key} {done : List (Prepared Key Value)}

omit [LinearOrder Key] in
theorem Noted.nothing (lo hi : Key → Prop) (start : RootedProducts Key) :
    Noted lo hi start ([] : List (Prepared Key Value)) start where
  seed := rfl
  differs _ hx := hx.resolve_right fun h => h Iff.rfl
  owners := nofun
  only _ hx := .inl hx

omit [LinearOrder Key] in
theorem Noted.pass (h : Noted lo hi start done rooted) (hlo : ∀ x, lo x → x ∈ rooted.parents)
    (howner : member.key ∉ rooted.parents) : Noted lo hi start (done ++ [member]) rooted where
  seed := h.seed
  differs := h.differs
  owners other hother hchanged hin := by
    rcases List.mem_append.mp hother with hother | hother
    · exact h.owners other hother hchanged hin
    · obtain rfl := List.mem_singleton.mp hother
      exact absurd (hlo _ hin) howner
  only x hx := by
    rcases h.only x hx with hx | hx | ⟨other, hother, hx⟩
    · exact .inl hx
    · exact .inr (.inl hx)
    · exact .inr (.inr ⟨other, List.mem_append_left _ hother, hx⟩)

/-- An owner is taken over. -/
theorem Noted.replaced {grown : RootedProducts Key} {touched : Finset Key}
    (h : Noted lo hi start done rooted) (hrooted : rooted.Tree U)
    (hlo : ∀ x, lo x → x ∈ rooted.parents) (hhi : ∀ x, ReflTransGen U rooted.seed x → hi x)
    (hgrown : Attached memo U rooted (grown, touched)) (hinside : ∀ x, lo x → grown.Inside memo x)
    (hmoves : Moves memo U grown out) (howner : member.key ∈ rooted.parents) :
    Noted lo hi start (done ++ [member]) (out.ownerSettled member.key member.changed) := by
  have hseed : grown.seed = rooted.seed := hgrown.seed
  have hchanges : ∀ x, x ∈ (out.ownerSettled member.key member.changed).changes ↔
      x ∈ out.changes ∨ member.changed = true ∧ x = member.key := by
    intro x
    unfold ownerSettled
    cases member.changed with
    | true => simp only [if_true, Finset.mem_insert, true_and, or_comm]
    | false => simp
  have hgrew : ∀ x, x ∈ grown.changes ↔ x ∈ rooted.changes ∨ x ∈ touched := fun x => by
    rw [hgrown.changes, Finset.mem_union]
  refine ⟨(Moves.seed_eq hmoves).trans (hseed.trans h.seed), fun x hx => (hchanges x).mpr (.inl ?_),
    fun other hother hchanged hin => (hchanges _).mpr ?_, fun x hx => ?_⟩
  · by_cases hfirst : x ∈ start.changes ∨ ¬ (x ∈ start.parents ↔ x ∈ rooted.parents)
    · exact hmoves.changes_subset ((hgrew x).mpr (.inl (h.differs x hfirst)))
    · rw [not_or, not_not] at hfirst
      by_cases hsecond : x ∈ rooted.parents ↔ x ∈ grown.parents
      · refine hmoves.changes_of_moved fun hthird => ?_
        exact hx.elim hfirst.1 fun hx => hx (hfirst.2.trans (hsecond.trans hthird))
      · exact hmoves.changes_subset ((hgrew x).mpr (.inr (hgrown.moved.touched x hsecond)))
  · rcases List.mem_append.mp hother with hother | hother
    · exact .inl (hmoves.changes_subset ((hgrew _).mpr (.inl (h.owners other hother hchanged hin))))
    · obtain rfl := List.mem_singleton.mp hother
      exact .inr ⟨hchanged, rfl⟩
  · rcases (hchanges x).mp hx with hx | ⟨hchanged, rfl⟩
    · rcases hmoves.changes_between hgrown.tree hinside (fun x hx => hhi x (hseed ▸ hx)) hx with
        hx | hx
      · rcases (hgrew x).mp hx with hx | hx
        · rcases h.only x hx with hx | hx | ⟨other, hother, hx⟩
          · exact .inl hx
          · exact .inr (.inl hx)
          · exact .inr (.inr ⟨other, List.mem_append_left _ hother, hx⟩)
        · have hnew := hgrown.fresh x hx
          have hreach := hgrown.tree.mem_reach ((hgrown.members x).mpr (.inr hx))
          exact .inr (.inl ⟨hhi x (hseed ▸ hreach), fun hin => hnew (hlo x hin)⟩)
      · exact .inr (.inl hx)
    · refine .inr (.inr ⟨member, List.mem_append_right _ (List.mem_singleton_self _), hchanged, rfl,
        hhi _ (hrooted.mem_reach howner)⟩)

theorem Attached.inside (h : Attached memo E rooted s)
    {x : Key} (hx : rooted.Inside memo x) : s.1.Inside memo x :=
  h.moved.inside h.tree hx

theorem Settling.noted (hreaders : ∀ {x y}, x ∈ memo.membershipReaders y ↔ y ∈ memo.membership x)
    (hprevious : member.previous = previous member.key)
    (h : Settling memo previous (member.key :: todo) rooted) (htodo : member.key ∉ todo)
    (hhi : ∀ x, ReflTransGen (eitherEdge memo previous) rooted.seed x → hi x)
    (hnoted : Noted lo hi start done rooted) (hlo : ∀ x, lo x → x ∈ rooted.parents)
    (hpass : member.key ∉ rooted.parents → ∀ x, lo x → rooted.Inside memo x)
    (hgrow : member.key ∈ rooted.parents → ∀ grown touched,
      Attached memo (eitherEdge memo previous) rooted (grown, touched) →
      (∀ y ∈ memo.membership member.key, y ∈ grown.parents) → ∀ x, lo x → grown.Inside memo x) :
    Noted lo hi start (done ++ [member]) (rooted.takeOver memo member) ∧
      ∀ x, lo x → (rooted.takeOver memo member).Inside memo x := by
  unfold RootedProducts.takeOver
  split
  · rename_i howner
    rw [hprevious]
    obtain ⟨grown, touched, hgrown, hfollowed, hmoves, _, _⟩ := h.replaceEdges hreaders howner htodo
    have hinside := hgrow howner grown touched hgrown hfollowed
    exact ⟨hnoted.replaced h.tree_either hlo hhi hgrown hinside hmoves howner,
      fun x hx => hmoves.inside (hinside x hx)⟩
  · rename_i howner
    exact ⟨hnoted.pass hlo howner, hpass howner⟩

theorem Settling.noted_all {members : List (Prepared Key Value)}
    (hreaders : ∀ {x y}, x ∈ memo.membershipReaders y ↔ y ∈ memo.membership x)
    (hprevious : ∀ member ∈ members, member.previous = previous member.key)
    (hnodup : (members.map Prepared.key).Nodup)
    (h : Settling memo previous (members.map Prepared.key) rooted)
    (hhi : ∀ x, ReflTransGen (eitherEdge memo previous) rooted.seed x → hi x)
    (hnoted : Noted lo hi start done rooted) (hlo : ∀ x, lo x → rooted.Inside memo x) :
    Noted lo hi start (done ++ members) (members.foldl (RootedProducts.takeOver memo) rooted) := by
  induction members generalizing rooted done with
  | nil => exact (List.append_nil done).symm ▸ hnoted
  | cons member members ih =>
    obtain ⟨hfirst, hprevious⟩ := List.forall_mem_cons.mp hprevious
    obtain ⟨hkey, hnodup⟩ := List.nodup_cons.mp hnodup
    obtain ⟨hnoted', hlo'⟩ := h.noted hreaders hfirst hkey hhi hnoted
      (fun x hx => h.tree.inside_mem (hlo x hx)) (fun _ => hlo)
      fun _ grown touched hgrown _ x hx => hgrown.inside (hlo x hx)
    have hseed : (rooted.takeOver memo member).seed = rooted.seed :=
      hnoted'.seed.trans hnoted.seed.symm
    have hrest := ih hprevious hnodup (h.takeOver hreaders hfirst hkey) (hseed ▸ hhi) hnoted' hlo'
    rwa [List.append_assoc] at hrest

theorem Settling.takeOver_all {members : List (Prepared Key Value)}
    (hreaders : ∀ {x y}, x ∈ memo.membershipReaders y ↔ y ∈ memo.membership x)
    (hprevious : ∀ member ∈ members, member.previous = previous member.key)
    (hnodup : (members.map Prepared.key).Nodup)
    (h : Settling memo previous (members.map Prepared.key) rooted) :
    Settling memo previous [] (members.foldl (RootedProducts.takeOver memo) rooted) ∧
      (members.foldl (RootedProducts.takeOver memo) rooted).seed = rooted.seed := by
  induction members generalizing rooted with
  | nil => exact ⟨h, rfl⟩
  | cons member members ih =>
    obtain ⟨hfirst, hprevious⟩ := List.forall_mem_cons.mp hprevious
    obtain ⟨hkey, hnodup⟩ := List.nodup_cons.mp hnodup
    obtain ⟨hsettling, hseed⟩ := ih hprevious hnodup (h.takeOver hreaders hfirst hkey)
    exact ⟨hsettling, hseed.trans (h.takeOver_seed hreaders hfirst hkey)⟩

end RootedProducts

/-! ## When a commit is steady -/

/-- The keys that edges reach from a seed. -/
def Reach (edges : Key → Finset Key) (seed : Key) : Key → Prop :=
  ReflTransGen (fun x y => y ∈ edges x) seed

/-- The keys that the first owner of a commit brings in: its new edges lead to them, and on through
keys that were not reached before. -/
inductive BroughtIn (before : Key → Prop) (next : Key → Finset Key) (owner : Key) : Key → Prop where
  | edge {y} : before owner → y ∈ next owner → ¬ before y → BroughtIn before next owner y
  | step {x y} : BroughtIn before next owner x → y ∈ next x → ¬ before y →
      BroughtIn before next owner y

/-- A commit does not detour.  What the old and the new edges reach together is reached by one of
them, and what both reach is reached by the new edges through keys that were reached before or that
the first owner brings in. -/
structure Steady (previous next : Key → Finset Key) (first seed : Key) : Prop where
  joint : ∀ x, ReflTransGen (fun x y => y ∈ next x ∨ y ∈ previous x) seed x →
    Reach previous seed x ∨ Reach next seed x
  kept : ∀ x, Reach previous seed x → Reach next seed x →
    ReflTransGen (fun x y => y ∈ next x ∧ (Reach previous seed y ∨
      BroughtIn (Reach previous seed) next first y)) seed x

variable {previous next : Key → Finset Key} {owner seed : Key}

omit [LinearOrder Key] in
theorem reach_owner (h : ∀ x, x ≠ owner → next x = previous x) {x : Key}
    (hx : Reach previous seed x) : Reach next seed x ∨ Reach next seed owner := by
  induction hx with
  | refl => exact .inl .refl
  | @tail x y _ hedge ih =>
    rcases ih with ih | ih
    · rcases eq_or_ne x owner with rfl | hne
      · exact .inr ih
      · exact .inl (ih.tail (show y ∈ next x from h x hne ▸ hedge))
    · exact .inr ih

omit [LinearOrder Key] in
/-- A commit of one product is steady. -/
theorem Steady.single (h : ∀ x, x ≠ owner → next x = previous x) :
    Steady previous next owner seed := by
  have hboth : Reach previous seed owner ↔ Reach next seed owner :=
    ⟨fun hx => (reach_owner h hx).elim id id,
      fun hx => (reach_owner (fun x hne => (h x hne).symm) hx).elim id id⟩
  constructor
  · intro x hx
    induction hx with
    | refl => exact .inl .refl
    | @tail x y _ hedge ih =>
      rcases eq_or_ne x owner with rfl | hne
      · have hold : Reach previous seed x := ih.elim id hboth.mpr
        rcases hedge with hedge | hedge
        · exact .inr ((hboth.mp hold).tail hedge)
        · exact .inl (hold.tail hedge)
      · rw [h x hne, or_self] at hedge
        exact ih.imp (fun ih => ih.tail hedge) fun ih =>
          ih.tail (show y ∈ next x from (h x hne).symm ▸ hedge)
  · intro x hold hx
    clear hold
    have hinside : (Reach previous seed x ∨ BroughtIn (Reach previous seed) next owner x) ∧
        ReflTransGen (fun x y => y ∈ next x ∧ (Reach previous seed y ∨
          BroughtIn (Reach previous seed) next owner y)) seed x := by
      induction hx with
      | refl => exact ⟨.inl .refl, .refl⟩
      | @tail x y _ hedge ih =>
        have hy : Reach previous seed y ∨ BroughtIn (Reach previous seed) next owner y := by
          by_cases hold : Reach previous seed y
          · exact .inl hold
          · rcases ih.1 with hx | hx
            · rcases eq_or_ne x owner with rfl | hne
              · exact .inr (.edge hx hedge hold)
              · exact .inl (hx.tail (show y ∈ previous x from h x hne ▸ hedge))
            · exact .inr (.step hx hedge hold)
        exact ⟨hy, ih.2.tail ⟨hedge, hy⟩⟩
    exact hinside.2

omit [LinearOrder Key] in
theorem BroughtIn.before_owner {before : Key → Prop} {x : Key} (h : BroughtIn before next owner x) :
    before owner := by
  induction h with
  | edge howner _ _ => exact howner
  | step _ _ _ ih => exact ih

omit [LinearOrder Key] in
theorem BroughtIn.not_before {before : Key → Prop} {x : Key} (h : BroughtIn before next owner x) :
    ¬ before x := by
  cases h with
  | edge _ _ hx => exact hx
  | step _ _ hx => exact hx

namespace RootedProducts

variable {memo : ProductMemo Key Value} {rooted : RootedProducts Key}

theorem Attached.brought_in {E : Key → Key → Prop} {grown : RootedProducts Key}
    {touched : Finset Key} (hgrown : Attached memo E rooted (grown, touched))
    (hfollowed : ∀ y ∈ memo.membership owner, y ∈ grown.parents) {x : Key}
    (hx : BroughtIn (· ∈ rooted.parents) memo.membership owner x) : x ∈ grown.parents := by
  induction hx with
  | edge _ hedge _ => exact hfollowed _ hedge
  | @step x y hx hedge _ ih =>
    have hnew := ((hgrown.members x).mp ih).resolve_left hx.not_before
    exact hgrown.closed x hnew y hedge

/-- A steady commit notes exactly the keys whose membership differs and the changed owners that are
reached. -/
theorem Settling.changes_iff {member : Prepared Key Value} {members : List (Prepared Key Value)}
    (hreaders : ∀ {x y}, x ∈ memo.membershipReaders y ↔ y ∈ memo.membership x)
    (hprevious : ∀ other ∈ member :: members, other.previous = previous other.key)
    (hnodup : ((member :: members).map Prepared.key).Nodup)
    (h : Settling memo previous ((member :: members).map Prepared.key) rooted)
    (hbefore : ∀ x, x ∈ rooted.parents ↔ Reach previous rooted.seed x)
    (hafter : ∀ x, x ∈ ((member :: members).foldl (RootedProducts.takeOver memo) rooted).parents ↔
      Reach memo.membership rooted.seed x)
    (hsteady : Steady previous memo.membership member.key rooted.seed) (x : Key) :
    x ∈ ((member :: members).foldl (RootedProducts.takeOver memo) rooted).changes ↔
      x ∈ rooted.changes ∨ ¬ (x ∈ rooted.parents ↔
        x ∈ ((member :: members).foldl (RootedProducts.takeOver memo) rooted).parents) ∨
      ∃ other ∈ member :: members, other.changed = true ∧ other.key = x ∧
        x ∈ ((member :: members).foldl (RootedProducts.takeOver memo) rooted).parents := by
  rw [List.foldl_cons] at hafter ⊢
  obtain ⟨hfirst, hrest⟩ := List.forall_mem_cons.mp hprevious
  obtain ⟨hkey, hnodup⟩ := List.nodup_cons.mp hnodup
  have hhi : ∀ x, ReflTransGen (eitherEdge memo previous) rooted.seed x →
      x ∈ rooted.parents ∨
        x ∈ (members.foldl (RootedProducts.takeOver memo) (rooted.takeOver memo member)).parents :=
    fun x hx => by
      rw [hbefore, hafter]
      exact hsteady.joint x hx
  have hreach : Reach previous rooted.seed = (· ∈ rooted.parents) :=
    funext fun x => propext (hbefore x).symm
  obtain ⟨hnoted, hlo⟩ := h.noted hreaders hfirst hkey hhi
    (Noted.nothing (fun x => x ∈ rooted.parents ∧
      x ∈ (members.foldl (RootedProducts.takeOver memo) (rooted.takeOver memo member)).parents) _
      rooted)
    (fun x hx => hx.1)
    (fun howner x hx => by
      have hpath := hsteady.kept x ((hbefore x).mp hx.1) ((hafter x).mp hx.2)
      refine ReflTransGen.mono (fun a b hedge => ⟨hedge.1, ?_⟩) _ _ hpath
      rw [hreach] at hedge
      exact hedge.2.resolve_right fun hb => howner hb.before_owner)
    fun howner grown touched hgrown hfollowed x hx => by
      have hpath := hsteady.kept x ((hbefore x).mp hx.1) ((hafter x).mp hx.2)
      unfold Inside
      rw [hgrown.seed]
      refine ReflTransGen.mono (fun a b hedge => ⟨hedge.1, ?_⟩) _ _ hpath
      rw [hreach] at hedge
      rcases hedge.2 with hb | hb
      · exact (hgrown.members b).mpr (.inl hb)
      · exact hgrown.brought_in hfollowed hb
  have hall := (h.takeOver hreaders hfirst hkey).noted_all hreaders hrest hnodup
    (hnoted.seed ▸ hhi) hnoted hlo
  refine ⟨fun hx => ?_, ?_⟩
  · rcases hall.only x hx with hx | ⟨hhi, hlo⟩ | ⟨other, hother, hchanged, rfl, hhi⟩
    · exact .inl hx
    · refine .inr (.inl fun hiff => hlo ?_)
      rcases hhi with hhi | hhi
      · exact ⟨hhi, hiff.mp hhi⟩
      · exact ⟨hiff.mpr hhi, hhi⟩
    · by_cases hin : other.key ∈
          (members.foldl (RootedProducts.takeOver memo) (rooted.takeOver memo member)).parents
      · exact .inr (.inr ⟨other, hother, hchanged, rfl, hin⟩)
      · exact .inr (.inl fun hiff => hin (hiff.mp (hhi.resolve_right hin)))
  · rintro (hx | hx | ⟨other, hother, hchanged, rfl, hin⟩)
    · exact hall.differs x (.inl hx)
    · exact hall.differs x (.inr hx)
    · by_cases hold : other.key ∈ rooted.parents
      · exact hall.owners other hother hchanged ⟨hold, hin⟩
      · exact hall.differs _ (.inr fun hiff => hold (hiff.mpr hin))

end RootedProducts

end Fz.Pull
