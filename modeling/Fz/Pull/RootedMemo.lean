import Fz.Pull.RootedCommit

/-!
# The readers of the memo

What a commit does at one reader is lifted to the memo.  Repairs read nothing of the memo but the
membership graph (`SameGraph`), so the readers of an owner do not disturb each other, and at each
reader a commit is its owners taken over one after another (`committedMembers_spec`).  Installing
the members of a completion replaces edges and moves no pointer (`Installed`).  Between operations
the memo is `Settled`: both reverse indexes are exact, and every rooted set is closed under the
committed edges with its pointers along them.
-/

namespace Fz.Pull

open Relation
open Base (sorted mem_sorted nodup_sorted)

variable {Key Value : Type} [LinearOrder Key]

namespace ProductMemo

variable {memo memo' : ProductMemo Key Value} {reader : Key} {rooted : RootedProducts Key}

/-! ## The readers of an owner -/

/-- The membership graph is the same. -/
structure SameGraph (memo memo' : ProductMemo Key Value) : Prop where
  entries : memo'.entries = memo.entries
  membershipReaders : memo'.membershipReaders = memo.membershipReaders

omit [LinearOrder Key] in
theorem SameGraph.trans {memo'' : ProductMemo Key Value} (h : SameGraph memo memo')
    (h' : SameGraph memo' memo'') : SameGraph memo memo'' :=
  ⟨h'.entries.trans h.entries, h'.membershipReaders.trans h.membershipReaders⟩

theorem SameGraph.membership (h : SameGraph memo memo') : memo'.membership = memo.membership := by
  funext key
  rw [ProductMemo.membership, ProductMemo.membership, h.entries]

theorem SameGraph.attach (h : SameGraph memo memo') (key : Key) (parent : Option Key)
    (rooted : RootedProducts Key) :
    rooted.attach memo' key parent = rooted.attach memo key parent := by
  unfold RootedProducts.attach edgeCount
  rw [h.membership, h.entries]

theorem SameGraph.reenter (h : SameGraph memo memo') (ways : List (Key × Key))
    (s : RootedProducts Key × Finset Key) :
    RootedProducts.reenter memo' ways s = RootedProducts.reenter memo ways s := by
  induction ways generalizing s with
  | nil => rfl
  | cons way ways ih =>
    obtain ⟨r, touched⟩ := s
    simp only [RootedProducts.reenter, h.attach, ih]

theorem SameGraph.removeEdge (h : SameGraph memo memo') (parent key : Key)
    (rooted : RootedProducts Key) :
    rooted.removeEdge memo' parent key = rooted.removeEdge memo parent key := by
  simp only [RootedProducts.removeEdge, RootedProducts.alternates, RootedProducts.entrances,
    h.membershipReaders, h.reenter]

theorem SameGraph.replaceEdges (h : SameGraph memo memo') (owner : Key) (previous : Finset Key)
    (rooted : RootedProducts Key) :
    rooted.replaceEdges memo' owner previous = rooted.replaceEdges memo owner previous := by
  have hattach : ∀ (children : List Key) (s : RootedProducts Key × Finset Key),
      RootedProducts.attachAll memo' owner children s =
        RootedProducts.attachAll memo owner children s := by
    intro children
    induction children with
    | nil => exact fun _ => rfl
    | cons child children ih =>
      rintro ⟨r, touched⟩
      simp only [RootedProducts.attachAll, h.attach, ih]
  have hremove : ∀ (left : List Key) (s : RootedProducts Key × Finset Key),
      RootedProducts.removeAll memo' owner left s = RootedProducts.removeAll memo owner left s := by
    intro left
    induction left with
    | nil => exact fun _ => rfl
    | cons child left ih =>
      rintro ⟨r, touched⟩
      simp only [RootedProducts.removeAll, h.removeEdge, ih]
  simp only [RootedProducts.replaceEdges, hattach, hremove, h.membership]

theorem SameGraph.takeOver (h : SameGraph memo memo') :
    RootedProducts.takeOver memo' = RootedProducts.takeOver memo := by
  funext rooted member
  simp only [RootedProducts.takeOver, h.replaceEdges]

theorem SameGraph.settling (h : SameGraph memo memo') {previous : Key → Finset Key}
    {todo : List Key} (hs : rooted.Settling memo previous todo) :
    rooted.Settling memo' previous todo := by
  refine ⟨?_, ?_⟩
  · rw [h.membership]
    exact hs.tree
  · rw [h.membership]
    exact hs.closed

/-- `rootedReaders` is the reverse index of the readers' members. -/
def Indexed (memo : ProductMemo Key Value) : Prop :=
  ∀ reader k, reader ∈ memo.rootedReaders k ↔
    ∃ rooted, memo.rooted.lookup reader = some rooted ∧ k ∈ rooted.parents

/-- `membershipReaders` is the reverse of the membership edges. -/
def Reversed (memo : ProductMemo Key Value) : Prop :=
  ∀ {x y}, x ∈ memo.membershipReaders y ↔ y ∈ memo.membership x

theorem SameGraph.reversed (h : SameGraph memo memo') (hr : memo.Reversed) : memo'.Reversed := by
  intro x y
  rw [h.membershipReaders, h.membership]
  exact hr

variable {previous : Key → Finset Key} {todo : List Key} {member : Prepared Key Value}

theorem committedReader_spec (hreversed : memo.Reversed) (hindexed : memo.Indexed)
    (hprevious : member.previous = previous member.key) (htodo : member.key ∉ todo)
    (hlookup : memo.rooted.lookup reader = some rooted) (howner : member.key ∈ rooted.parents)
    (hs : rooted.Settling memo previous (member.key :: todo))
    (hmemo : (committedReader member.key member.previous member.changed reader memo).2 = memo') :
    SameGraph memo memo' ∧ memo'.Indexed ∧
      memo'.rooted.lookup reader = some (rooted.takeOver memo member) ∧
      ∀ other, other ≠ reader → memo'.rooted.lookup other = memo.rooted.lookup other := by
  obtain ⟨_, _, _, _, _, _, htouched⟩ := hs.replaceEdges hreversed howner htodo
  rw [← hprevious] at htouched
  have htake : rooted.takeOver memo member =
      (rooted.replaceEdges memo member.key member.previous).1.ownerSettled member.key
        member.changed := if_pos howner
  unfold committedReader at hmemo
  rw [hlookup] at hmemo
  subst hmemo
  rw [htake]
  have hself := Finmap.lookup_insert (a := reader)
    (b := (rooted.replaceEdges memo member.key member.previous).1.ownerSettled member.key
      member.changed) memo.rooted
  have hother : ∀ other, other ≠ reader → (memo.rooted.insert reader
      ((rooted.replaceEdges memo member.key member.previous).1.ownerSettled member.key
        member.changed)).lookup other = memo.rooted.lookup other :=
    fun other hne => Finmap.lookup_insert_of_ne _ hne
  refine ⟨⟨rfl, rfl⟩, fun other k => ?_, hself, hother⟩
  have hold := hindexed other k
  dsimp only
  rcases eq_or_ne other reader with rfl | hne
  · rw [hlookup] at hold
    simp only [hself, Option.some.injEq, exists_eq_left'] at hold ⊢
    split
    · rename_i hout
      refine hold.trans ?_
      by_contra hdiffers
      exact hout (htouched k hdiffers)
    · split
      · rename_i hin
        exact iff_of_true (Finset.mem_insert_self _ _) hin
      · rename_i hin
        exact iff_of_false (Finset.notMem_erase _ _) hin
  · rw [hother other hne, ← hold]
    split
    · rfl
    · split
      · rw [Finset.mem_insert, or_iff_right hne]
      · rw [Finset.mem_erase, and_iff_right hne]

theorem committedReaders_spec {readers : List Key} (hreversed : memo.Reversed)
    (hindexed : memo.Indexed) (hprevious : member.previous = previous member.key)
    (htodo : member.key ∉ todo) (hnodup : readers.Nodup)
    (hreach : ∀ reader ∈ readers, ∃ rooted, memo.rooted.lookup reader = some rooted ∧
      member.key ∈ rooted.parents ∧ rooted.Settling memo previous (member.key :: todo))
    (hmemo : (committedReaders member.key member.previous member.changed readers memo).2 = memo') :
    SameGraph memo memo' ∧ memo'.Indexed ∧ (∀ reader ∈ readers, memo'.rooted.lookup reader =
        (memo.rooted.lookup reader).map fun rooted => rooted.takeOver memo member) ∧
      ∀ reader, reader ∉ readers → memo'.rooted.lookup reader = memo.rooted.lookup reader := by
  induction readers generalizing memo with
  | nil =>
    subst hmemo
    exact ⟨⟨rfl, rfl⟩, hindexed, nofun, fun _ _ => rfl⟩
  | cons reader readers ih =>
    obtain ⟨hreader, hnodup⟩ := List.nodup_cons.mp hnodup
    obtain ⟨⟨rooted, hlookup, howner, hs⟩, hreach⟩ := List.forall_mem_cons.mp hreach
    obtain ⟨memo₁, hmemo₁⟩ : ∃ memo₁,
        (committedReader member.key member.previous member.changed reader memo).2 = memo₁ :=
      ⟨_, rfl⟩
    obtain ⟨hgraph, hindexed₁, hself, hother⟩ :=
      committedReader_spec hreversed hindexed hprevious htodo hlookup howner hs hmemo₁
    have hmemo' : (committedReaders member.key member.previous member.changed readers memo₁).2 =
        memo' := by
      subst hmemo₁
      exact hmemo
    have hne : ∀ {other}, other ∈ readers → other ≠ reader := fun hmem heq => hreader (heq ▸ hmem)
    obtain ⟨hgraph', hindexed', hin, hout⟩ := ih (hgraph.reversed hreversed) hindexed₁ hnodup
      (fun other hmem => by
        obtain ⟨r, hr, hkey, hs⟩ := hreach other hmem
        exact ⟨r, (hother other (hne hmem)).trans hr, hkey, hgraph.settling hs⟩) hmemo'
    refine ⟨hgraph.trans hgraph', hindexed', fun other hmem => ?_, fun other hmem => ?_⟩
    · rcases List.mem_cons.mp hmem with rfl | hmem
      · rw [hout other hreader, hself, hlookup]
        rfl
      · rw [hin other hmem, hother other (hne hmem), hgraph.takeOver]
    · rw [List.mem_cons, not_or] at hmem
      rw [hout other hmem.2, hother other hmem.1]

theorem committedRootedMember_spec (hreversed : memo.Reversed) (hindexed : memo.Indexed)
    (hprevious : member.previous = previous member.key) (htodo : member.key ∉ todo)
    (hs : ∀ reader rooted, memo.rooted.lookup reader = some rooted →
      rooted.Settling memo previous (member.key :: todo))
    (hmemo : (committedRootedMember member.key member.previous member.changed memo).2 = memo') :
    SameGraph memo memo' ∧ memo'.Indexed ∧ ∀ reader, memo'.rooted.lookup reader =
        (memo.rooted.lookup reader).map fun rooted => rooted.takeOver memo member := by
  obtain ⟨hgraph, hindexed', hin, hout⟩ := committedReaders_spec hreversed hindexed hprevious htodo
    (nodup_sorted _) (fun reader hreader => by
      obtain ⟨rooted, hlookup, howner⟩ := (hindexed reader _).mp (mem_sorted.mp hreader)
      exact ⟨rooted, hlookup, howner, hs reader rooted hlookup⟩) hmemo
  refine ⟨hgraph, hindexed', fun reader => ?_⟩
  by_cases hreader : reader ∈ sorted (memo.rootedReaders member.key)
  · exact hin reader hreader
  · rw [hout reader hreader]
    cases hlookup : memo.rooted.lookup reader with
    | none => rfl
    | some rooted =>
      have howner : member.key ∉ rooted.parents := fun h =>
        hreader (mem_sorted.mpr ((hindexed reader _).mpr ⟨rooted, hlookup, h⟩))
      exact congrArg some (if_neg howner).symm

variable {members : List (Prepared Key Value)}

theorem committedMembers_spec (hreversed : memo.Reversed)
    (hindexed : memo.Indexed) (hprevious : ∀ other ∈ members, other.previous = previous other.key)
    (hnodup : (members.map Prepared.key).Nodup)
    (hs : ∀ reader rooted, memo.rooted.lookup reader = some rooted →
      rooted.Settling memo previous (members.map Prepared.key))
    (hmemo : (committedMembers members memo).2 = memo') : SameGraph memo memo' ∧ memo'.Indexed ∧
      ∀ reader, memo'.rooted.lookup reader = (memo.rooted.lookup reader).map fun rooted =>
        members.foldl (RootedProducts.takeOver memo) rooted := by
  induction members generalizing memo with
  | nil =>
    subst hmemo
    exact ⟨⟨rfl, rfl⟩, hindexed, fun _ => Option.map_id'.symm⟩
  | cons member members ih =>
    obtain ⟨hfirst, hprevious⟩ := List.forall_mem_cons.mp hprevious
    obtain ⟨hkey, hnodup⟩ := List.nodup_cons.mp hnodup
    obtain ⟨memo₁, hmemo₁⟩ :
        ∃ memo₁, (committedRootedMember member.key member.previous member.changed memo).2 = memo₁ :=
      ⟨_, rfl⟩
    obtain ⟨hgraph, hindexed₁, hlookup₁⟩ :=
      committedRootedMember_spec hreversed hindexed hfirst hkey hs hmemo₁
    have hmemo' : (committedMembers members memo₁).2 = memo' := by
      subst hmemo₁
      exact hmemo
    obtain ⟨hgraph', hindexed', hlookup'⟩ := ih (hgraph.reversed hreversed) hindexed₁ hprevious
      hnodup (fun reader rooted hlookup => by
        rw [hlookup₁] at hlookup
        obtain ⟨r, hr, rfl⟩ := Option.map_eq_some_iff.mp hlookup
        exact hgraph.settling ((hs reader r hr).takeOver hreversed hfirst hkey)) hmemo'
    refine ⟨hgraph.trans hgraph', hindexed', fun reader => ?_⟩
    rw [hlookup', hlookup₁, Option.map_map, hgraph.takeOver]
    rfl

/-! ## Installing a completion -/

/-- The seed and the pointers are the same. -/
structure SamePointers (rooted rooted' : RootedProducts Key) : Prop where
  seed : rooted'.seed = rooted.seed
  parents : rooted'.parents = rooted.parents
  children : rooted'.children = rooted.children

theorem retireRooted_spec (reader : Key) (hindexed : memo.Indexed) :
    (memo.retireRooted reader).Indexed ∧ (memo.retireRooted reader).rooted.lookup reader = none ∧
      ∀ other, other ≠ reader →
        (memo.retireRooted reader).rooted.lookup other = memo.rooted.lookup other := by
  unfold retireRooted
  cases hlookup : memo.rooted.lookup reader with
  | none => exact ⟨hindexed, hlookup, fun _ _ => rfl⟩
  | some rooted =>
    dsimp only
    have hself : (memo.rooted.erase reader).lookup reader = none := Finmap.lookup_erase _ _
    have hother : ∀ other, other ≠ reader →
        (memo.rooted.erase reader).lookup other = memo.rooted.lookup other :=
      fun other hne => Finmap.lookup_erase_ne hne
    refine ⟨fun other k => ?_, hself, hother⟩
    dsimp only
    have hold := hindexed other k
    rcases eq_or_ne other reader with rfl | hne
    · rw [hlookup] at hold
      simp only [hself, Option.some.injEq, exists_eq_left', reduceCtorEq, false_and,
        exists_false, iff_false] at hold ⊢
      split
      · exact Finset.notMem_erase _ _
      · rename_i hout
        exact fun hk => hout (hold.mp hk)
    · rw [hother other hne, ← hold]
      split
      · rw [Finset.mem_erase, and_iff_right hne]
      · rfl

theorem retireRooted_graph (memo : ProductMemo Key Value) (reader : Key) :
    SameGraph memo (memo.retireRooted reader) := by
  unfold retireRooted
  cases memo.rooted.lookup reader with
  | none => exact ⟨rfl, rfl⟩
  | some rooted => exact ⟨rfl, rfl⟩

/-- What installing members does: their edges are new, and no pointer moves. -/
structure Installed (memo : ProductMemo Key Value) (members : List (Prepared Key Value))
    (memo' : ProductMemo Key Value) : Prop where
  indexed : memo'.Indexed
  membershipReaders : memo'.membershipReaders = memo.membershipReaders
  elsewhere : ∀ k, k ∉ members.map Prepared.key → memo'.membership k = memo.membership k
  membership : ∀ member ∈ members, memo'.membership member.key = member.membership
  others : ∀ reader, reader ∉ members.map Prepared.key →
    memo'.rooted.lookup reader = memo.rooted.lookup reader
  pointers : ∀ reader rooted', memo'.rooted.lookup reader = some rooted' →
    ∃ rooted, memo.rooted.lookup reader = some rooted ∧ SamePointers rooted rooted'

theorem membership_insert {entries : Finmap fun _ : Key => ProductEntry Key Value} {key : Key}
    {entry : ProductEntry Key Value} (hentries : memo'.entries = entries.insert key entry) :
    memo'.membership key = entry.membership ∧ ∀ k, k ≠ key → memo'.membership k =
        ((entries.lookup k).map ProductEntry.membership).getD ∅ := by
  refine ⟨?_, fun k hk => ?_⟩
  · rw [ProductMemo.membership, hentries, Finmap.lookup_insert]
    rfl
  · rw [ProductMemo.membership, hentries, Finmap.lookup_insert_of_ne _ hk]

theorem install_spec (hindexed : memo.Indexed) (h : memo.install member = some memo') :
    memo'.Indexed ∧ memo'.membershipReaders = memo.membershipReaders ∧
      memo'.entries = memo.entries.insert member.key ⟨member.value, member.membership⟩ ∧
      (∀ reader, reader ≠ member.key → memo'.rooted.lookup reader = memo.rooted.lookup reader) ∧
      ∀ reader rooted', memo'.rooted.lookup reader = some rooted' →
        ∃ rooted, memo.rooted.lookup reader = some rooted ∧ SamePointers rooted rooted' := by
  unfold install at h
  cases hread : member.rootedRead with
  | none =>
    rw [hread] at h
    obtain rfl := Option.some.inj h
    obtain ⟨hindexed', hnone, hother⟩ := retireRooted_spec member.key hindexed
    have hgraph := retireRooted_graph memo member.key
    refine ⟨hindexed', hgraph.membershipReaders, ?_, hother, fun reader rooted' hlookup => ?_⟩
    · dsimp only
      rw [hgraph.entries]
    · rcases eq_or_ne reader member.key with rfl | hne
      · exact nomatch hnone.symm.trans hlookup
      · exact ⟨rooted', (hother reader hne).symm.trans hlookup, rfl, rfl, rfl⟩
  | some read =>
    rw [hread] at h
    cases hdelivered : read.delivered with
    | false =>
      simp only [hdelivered, Bool.false_eq_true, if_false, Option.some.injEq] at h
      subst h
      exact ⟨hindexed, rfl, rfl, fun _ _ => rfl, fun reader rooted' hlookup =>
        ⟨rooted', hlookup, rfl, rfl, rfl⟩⟩
    | true =>
      cases hrooted : memo.rooted.lookup member.key with
      | none =>
        simp only [hdelivered, if_true, hrooted] at h
        cases h
      | some rooted =>
        simp only [hdelivered, if_true, hrooted, Option.some.injEq] at h
        subst h
        have hself : (memo.rooted.insert member.key { rooted with changes := ∅ }).lookup
            member.key = some { rooted with changes := ∅ } := Finmap.lookup_insert _
        have hother : ∀ reader, reader ≠ member.key →
            (memo.rooted.insert member.key { rooted with changes := ∅ }).lookup reader =
              memo.rooted.lookup reader := fun reader hne => Finmap.lookup_insert_of_ne _ hne
        have hpointers : ∀ reader rooted', (memo.rooted.insert member.key
            { rooted with changes := ∅ }).lookup reader = some rooted' →
            ∃ old, memo.rooted.lookup reader = some old ∧ SamePointers old rooted' := by
          intro reader rooted' hlookup
          rcases eq_or_ne reader member.key with rfl | hne
          · obtain rfl := Option.some.inj (hself.symm.trans hlookup)
            exact ⟨rooted, hrooted, rfl, rfl, rfl⟩
          · exact ⟨rooted', (hother reader hne).symm.trans hlookup, rfl, rfl, rfl⟩
        refine ⟨fun reader k => ?_, rfl, rfl, hother, hpointers⟩
        refine (hindexed reader k).trans ?_
        rcases eq_or_ne reader member.key with rfl | hne
        · simp only [hrooted, hself, Option.some.injEq, exists_eq_left']
        · simp only [hother reader hne]

theorem installAll_spec (hindexed : memo.Indexed)
    (hnodup : (members.map Prepared.key).Nodup) (h : installAll members memo = some memo') :
    Installed memo members memo' := by
  induction members generalizing memo with
  | nil =>
    obtain rfl := Option.some.inj h
    exact ⟨hindexed, rfl, fun _ _ => rfl, nofun, fun _ _ => rfl, fun reader rooted' hlookup =>
      ⟨rooted', hlookup, rfl, rfl, rfl⟩⟩
  | cons member members ih =>
    obtain ⟨hkey, hnodup⟩ := List.nodup_cons.mp hnodup
    obtain ⟨memo₁, hmemo₁, h⟩ := Option.bind_eq_some_iff.mp h
    obtain ⟨hindexed₁, hreaders, hentries, hothers, hpointers⟩ := install_spec hindexed hmemo₁
    obtain ⟨hself, helsewhere⟩ := membership_insert hentries
    have hrest := ih hindexed₁ hnodup h
    refine ⟨hrest.indexed, hrest.membershipReaders.trans hreaders, fun k hk => ?_,
      fun other hother => ?_, fun reader hreader => ?_, fun reader rooted' hlookup => ?_⟩
    · rw [List.map_cons, List.mem_cons, not_or] at hk
      exact (hrest.elsewhere k hk.2).trans (helsewhere k hk.1)
    · rcases List.mem_cons.mp hother with rfl | hother
      · exact (hrest.elsewhere _ hkey).trans hself
      · exact hrest.membership other hother
    · rw [List.map_cons, List.mem_cons, not_or] at hreader
      exact (hrest.others reader hreader.2).trans (hothers reader hreader.1)
    · obtain ⟨r₁, hr₁, hsame₁⟩ := hrest.pointers reader rooted' hlookup
      obtain ⟨r, hr, hsame⟩ := hpointers reader r₁ hr₁
      exact ⟨r, hr, hsame₁.seed.trans hsame.seed, hsame₁.parents.trans hsame.parents,
        hsame₁.children.trans hsame.children⟩

/-- The reverse edges follow the owners one after another. -/
theorem replaceAllReaders_spec (hprevious : ∀ other ∈ members, other.previous = previous other.key)
    (hnodup : (members.map Prepared.key).Nodup) (hreaders : ∀ x y, x ∈ memo.membershipReaders y ↔
      if x ∈ members.map Prepared.key then y ∈ previous x else y ∈ memo.membership x) :
    (replaceAllReaders members memo).Reversed ∧
      (replaceAllReaders members memo).entries = memo.entries ∧
      (replaceAllReaders members memo).rooted = memo.rooted ∧
      (replaceAllReaders members memo).rootedReaders = memo.rootedReaders := by
  induction members generalizing memo with
  | nil => exact ⟨fun {x y} => hreaders x y, rfl, rfl, rfl⟩
  | cons member members ih =>
    obtain ⟨hfirst, hprevious⟩ := List.forall_mem_cons.mp hprevious
    obtain ⟨hkey, hnodup⟩ := List.nodup_cons.mp hnodup
    refine ih hprevious hnodup fun x y => ?_
    have hold := hreaders x y
    simp only [List.map_cons, List.mem_cons] at hold
    show x ∈ (if y ∈ member.previous \ memo.membership member.key then
        (memo.membershipReaders y).erase member.key
      else if y ∈ memo.membership member.key \ member.previous then
        insert member.key (memo.membershipReaders y)
      else memo.membershipReaders y) ↔
      if x ∈ members.map Prepared.key then y ∈ previous x else y ∈ memo.membership x
    simp only [hfirst, Finset.mem_sdiff]
    rcases eq_or_ne x member.key with rfl | hne
    · rw [if_pos (.inl rfl)] at hold
      rw [if_neg hkey]
      by_cases hnext : y ∈ memo.membership member.key <;>
        by_cases hprev : y ∈ previous member.key <;> simp [hnext, hprev, hold]
    · simp only [or_iff_right hne] at hold
      rw [← hold]
      split
      · rw [Finset.mem_erase, and_iff_right hne]
      · split
        · rw [Finset.mem_insert, or_iff_right hne]
        · rfl

end ProductMemo

/-! ## Between commits -/

namespace RootedProducts

variable {memo : ProductMemo Key Value} {rooted : RootedProducts Key} {edges : Key → Finset Key}

/-- A rooted set between commits: the pointers are a witness along the edges, and the set is closed
under them. -/
structure Settled (edges : Key → Finset Key) (rooted : RootedProducts Key) : Prop where
  tree : rooted.Tree fun x y => y ∈ edges x
  closed : ∀ x ∈ rooted.parents, ∀ y ∈ edges x, y ∈ rooted.parents

theorem Settled.mem_iff (h : rooted.Settled edges) (k : Key) :
    k ∈ rooted.parents ↔ Reach edges rooted.seed k := by
  rw [mem_parents]
  refine h.tree.witness.member_iff fun {x y} hx hedge => ?_
  exact mem_parents.mp (h.closed x (mem_parents.mpr hx) y hedge)

theorem Settled.same {rooted' : RootedProducts Key} (h : rooted.Settled edges)
    (hsame : ProductMemo.SamePointers rooted rooted') : rooted'.Settled edges := by
  obtain ⟨⟨hwitness, hchildren⟩, hclosed⟩ := h
  refine ⟨⟨?_, ?_⟩, ?_⟩
  · rw [hsame.seed, hsame.parents]
    exact hwitness
  · rw [hsame.children, hsame.parents]
    exact hchildren
  · rw [hsame.parents]
    exact hclosed

theorem Settled.settling {todo : List Key} (h : rooted.Settled edges)
    (hmemo : ∀ k, k ∉ todo → memo.membership k = edges k) : rooted.Settling memo edges todo where
  tree := h.tree.imp fun {y x} _ hedge => by
    by_cases hx : x ∈ todo
    · exact .inr ⟨hx, hedge⟩
    · exact .inl (hmemo x hx ▸ hedge)
  closed x hx y hy hstale := h.closed x hx y <| by
    by_cases hmem : x ∈ todo
    · exact hstale hmem
    · exact hmemo x hmem ▸ hy

theorem Settling.settled (h : rooted.Settling memo edges []) : rooted.Settled memo.membership where
  tree := h.tree.imp fun _ hedge => hedge.resolve_right fun hx => nomatch hx.1
  closed x hx y hy := h.closed x hx y hy nofun

theorem attach_seed_settled (memo : ProductMemo Key Value) (seed : Key) :
    (((new seed).attach memo seed none).1.Settled memo.membership) ∧
      ((new seed).attach memo seed none).1.seed = seed := by
  have h := @attach_seed _ _ _ memo (fun x y => y ∈ memo.membership x) id seed
  refine ⟨⟨h.tree, fun x hx => h.closed x ?_⟩, h.seed⟩
  exact ((h.members x).mp hx).resolve_left Finmap.notMem_empty

end RootedProducts

namespace ProductMemo

variable {memo memo' : ProductMemo Key Value} {sameProductValue : Value → Value → Bool}

/-- The memo between operations. -/
structure Settled (memo : ProductMemo Key Value) : Prop where
  reversed : memo.Reversed
  indexed : memo.Indexed
  readers : ∀ reader rooted, memo.rooted.lookup reader = some rooted →
    rooted.Settled memo.membership

theorem settled_empty : (empty : ProductMemo Key Value).Settled where
  reversed {x y} := by
    have hmembership : (empty : ProductMemo Key Value).membership x = ∅ := rfl
    rw [hmembership]
    exact iff_of_false (Finset.notMem_empty x) (Finset.notMem_empty y)
  indexed reader k := iff_of_false (Finset.notMem_empty reader) fun ⟨_, h, _⟩ => nomatch h
  readers _ _ h := nomatch h

theorem Settled.retireRooted (h : memo.Settled) (reader : Key) :
    (memo.retireRooted reader).Settled := by
  have hgraph := retireRooted_graph memo reader
  obtain ⟨hindexed, hnone, hother⟩ := retireRooted_spec reader h.indexed
  refine ⟨hgraph.reversed h.reversed, hindexed, fun other rooted hlookup => ?_⟩
  rw [hgraph.membership]
  rcases eq_or_ne other reader with rfl | hne
  · exact nomatch hnone.symm.trans hlookup
  · exact h.readers other rooted ((hother other hne).symm.trans hlookup)

theorem Settled.insertRooted (h : memo.Settled) {reader : Key} {rooted : RootedProducts Key}
    (hnone : memo.rooted.lookup reader = none) (hrooted : rooted.Settled memo.membership)
    (hentries : memo'.entries = memo.entries)
    (hreaders : memo'.membershipReaders = memo.membershipReaders)
    (hinsert : memo'.rooted = memo.rooted.insert reader rooted)
    (hindex : memo'.rootedReaders = fun member =>
      if member ∈ rooted.parents then insert reader (memo.rootedReaders member)
      else memo.rootedReaders member) : memo'.Settled := by
  have hgraph : SameGraph memo memo' := ⟨hentries, hreaders⟩
  have hself : memo'.rooted.lookup reader = some rooted := by
    rw [hinsert, Finmap.lookup_insert]
  have hother : ∀ other, other ≠ reader →
      memo'.rooted.lookup other = memo.rooted.lookup other := fun other hne => by
    rw [hinsert, Finmap.lookup_insert_of_ne _ hne]
  refine ⟨hgraph.reversed h.reversed, fun other k => ?_, fun other r hlookup => ?_⟩
  · rw [hindex]
    have hold := h.indexed other k
    dsimp only
    rcases eq_or_ne other reader with rfl | hne
    · rw [hnone] at hold
      simp only [hself, Option.some.injEq, exists_eq_left', reduceCtorEq, false_and, exists_false,
        iff_false] at hold ⊢
      split
      · rename_i hin
        exact iff_of_true (Finset.mem_insert_self _ _) hin
      · rename_i hin
        exact iff_of_false hold hin
    · rw [hother other hne, ← hold]
      split
      · rw [Finset.mem_insert, or_iff_right hne]
      · rfl
  · rw [hgraph.membership]
    rcases eq_or_ne other reader with rfl | hne
    · exact Option.some.inj (hself.symm.trans hlookup) ▸ hrooted
    · exact h.readers other r ((hother other hne).symm.trans hlookup)

theorem Settled.registerRooted (h : memo.Settled) (reader seed : Key) :
    (memo.registerRooted reader seed).Settled := by
  unfold ProductMemo.registerRooted
  split
  · exact h
  · obtain ⟨_, hnone, _⟩ := retireRooted_spec reader h.indexed
    have hrooted := (RootedProducts.attach_seed_settled memo seed).1
    rw [← (retireRooted_graph memo reader).membership] at hrooted
    refine (h.retireRooted reader).insertRooted hnone ?_ rfl rfl rfl rfl
    cases memo.rooted.lookup reader with
    | none => exact hrooted
    | some previous => exact hrooted.same ⟨rfl, rfl, rfl⟩

end ProductMemo

end Fz.Pull
