import Fz.Base.Run
import Fz.Pull.RootedMemo

/-!
# Runs of the memo

A completion publishes one product, or the products of a recursive group in the order of their keys
(`finishCompletion`).  A run of the memo is any sequence of readers that register, move to another
seed and retire, formulas that wait for a rooted set, and completions.

In every memo that a run reaches, each rooted set is exactly what its seed reaches through the
committed edges, and both indexes are exact.  What a completion adds to the changes of a reader is
exact only when the commit does not detour (`Steady`).  The owners of a group are repaired one after
another, and a key that an earlier owner loses and a later one gains again, or that is only reached
in between, is noted although nothing changed for it.
-/

namespace Fz.Pull

open Relation

variable {Key Value : Type} [LinearOrder Key]

/-! ## Completions -/

inductive ProductCompletion (Key Value : Type) where
  | single (value : Value) (membership : Finset Key) (rootedRead : Option RootedRead)
  | recursiveGroup (members : List (ProductCommitMember Key Value))

/-- The products that a completion publishes, in the order of the commit. -/
def ProductCompletion.members (requested : Key) :
    ProductCompletion Key Value → List (ProductCommitMember Key Value)
  | single value membership rootedRead => [⟨requested, value, membership, rootedRead⟩]
  | recursiveGroup members => members.insertionSort fun left right => left.key ≤ right.key

namespace ProductMemo

variable (sameProductValue : Value → Value → Bool)

theorem lawfulBEq_key {Key : Type} [LinearOrder Key] : LawfulBEq Key := inferInstance

attribute [local instance] lawfulBEq_key in
/-- Commit a completion that was not invalidated on the way.  A group contains the product that was
requested, and publishes no product twice. -/
def finishCompletion (memo : ProductMemo Key Value) (requested : Key)
    (completion : ProductCompletion Key Value) :
    Option (List (ReaderMutation × Key) × ProductMemo Key Value) :=
  let members := completion.members requested
  if requested ∈ members.map ProductCommitMember.key ∧
      (members.map ProductCommitMember.key).IsChain (· ≠ ·) then
    memo.commitMembers sameProductValue members
  else none

/-- The edges that a completion commits. -/
def edgesAfter (memo : ProductMemo Key Value) (members : List (ProductCommitMember Key Value))
    (key : Key) : Finset Key :=
  match members.find? fun member => member.key = key with
  | some member => member.membership
  | none => memo.membership key

end ProductMemo

theorem ProductCompletion.nodup_members {requested : Key} {completion : ProductCompletion Key Value}
    (h : ((completion.members requested).map ProductCommitMember.key).IsChain (· ≠ ·)) :
    ((completion.members requested).map ProductCommitMember.key).Nodup := by
  have hsorted : ((completion.members requested).map ProductCommitMember.key).Pairwise (· ≤ ·) := by
    cases completion with
    | single value membership rootedRead => exact List.pairwise_singleton _ _
    | recursiveGroup members =>
      have : Std.Total fun left right : ProductCommitMember Key Value => left.key ≤ right.key :=
        ⟨fun left right => le_total left.key right.key⟩
      have : IsTrans (ProductCommitMember Key Value) fun left right => left.key ≤ right.key :=
        ⟨fun _ _ _ => le_trans⟩
      exact List.pairwise_map.mpr (List.pairwise_insertionSort _ members)
  have hlt : ((completion.members requested).map ProductCommitMember.key).IsChain (· < ·) :=
    List.isChain_iff_getElem.mpr fun i hi => lt_of_le_of_ne
      (List.isChain_iff_getElem.mp hsorted.isChain i hi) (List.isChain_iff_getElem.mp h i hi)
  exact hlt.pairwise.imp fun hab => hab.ne

namespace ProductMemo

variable {memo memo' : ProductMemo Key Value} {sameProductValue : Value → Value → Bool}
  {members : List (ProductCommitMember Key Value)} {mutations : List (ReaderMutation × Key)}

theorem map_prepare_key (memo : ProductMemo Key Value) (sameProductValue : Value → Value → Bool)
    (members : List (ProductCommitMember Key Value)) :
    (members.map (memo.prepare sameProductValue)).map Prepared.key =
      members.map ProductCommitMember.key := by
  rw [List.map_map]
  rfl

theorem prepare_previous {member : Prepared Key Value}
    (hmember : member ∈ members.map (memo.prepare sameProductValue)) :
    member.previous = memo.membership member.key := by
  obtain ⟨_, _, rfl⟩ := List.mem_map.mp hmember
  rfl

theorem edgesAfter_of_mem {member : ProductCommitMember Key Value}
    (hnodup : (members.map ProductCommitMember.key).Nodup) (hmember : member ∈ members) :
    memo.edgesAfter members member.key = member.membership := by
  have hfind : members.find? (fun other => other.key = member.key) = some member := by
    induction members with
    | nil => cases hmember
    | cons first members ih =>
      obtain ⟨hfirst, hnodup⟩ := List.nodup_cons.mp hnodup
      rcases List.mem_cons.mp hmember with rfl | hmember
      · exact List.find?_cons_of_pos (decide_eq_true rfl)
      · rw [List.find?_cons_of_neg, ih hnodup hmember]
        intro heq
        exact hfirst (of_decide_eq_true heq ▸ List.mem_map_of_mem hmember)
  rw [edgesAfter, hfind]

theorem edgesAfter_of_notMem {key : Key} (hkey : key ∉ members.map ProductCommitMember.key) :
    memo.edgesAfter members key = memo.membership key := by
  have hfind : members.find? (fun other => other.key = key) = none :=
    List.find?_eq_none.mpr fun member hmember heq =>
      hkey (of_decide_eq_true heq ▸ List.mem_map_of_mem hmember)
  rw [edgesAfter, hfind]

/-- A commit installs its edges, and at each reader takes over its owners one after another. -/
theorem commitMembers_spec (h : memo.Settled) (hnodup : (members.map ProductCommitMember.key).Nodup)
    (hcommit : memo.commitMembers sameProductValue members = some (mutations, memo')) :
    memo'.Settled ∧ memo'.membership = memo.edgesAfter members ∧
      ∀ reader rooted, reader ∉ members.map ProductCommitMember.key →
        memo.rooted.lookup reader = some rooted →
        rooted.Settling memo' memo.membership (members.map ProductCommitMember.key) ∧
        memo'.rooted.lookup reader = some ((members.map (memo.prepare sameProductValue)).foldl
          (RootedProducts.takeOver memo') rooted) := by
  obtain ⟨memo₁, hinstall, hcommitted⟩ := Option.bind_eq_some_iff.mp hcommit
  have hmemo' := congrArg Prod.snd (Option.some.inj hcommitted)
  have hprevious : ∀ member ∈ members.map (memo.prepare sameProductValue),
      member.previous = memo.membership member.key := fun member => prepare_previous
  have hkeys := map_prepare_key memo sameProductValue members
  have hinstalled : Installed memo (members.map (memo.prepare sameProductValue)) memo₁ := by
    have hindexed : ∀ awaiting, Indexed { memo with awaiting } := fun _ => h.indexed
    obtain ⟨hindexed, hreaders, helsewhere, hmembership, hothers, hpointers⟩ :=
      installAll_spec (hindexed _) (hkeys.symm ▸ hnodup) hinstall
    exact ⟨hindexed, hreaders, helsewhere, hmembership, hothers, hpointers⟩
  have helsewhere : ∀ k, k ∉ members.map ProductCommitMember.key →
      memo₁.membership k = memo.membership k := fun k hk => hinstalled.elsewhere k (hkeys.symm ▸ hk)
  have hmembership : memo₁.membership = memo.edgesAfter members := by
    funext k
    by_cases hk : k ∈ members.map ProductCommitMember.key
    · obtain ⟨member, hmember, rfl⟩ := List.mem_map.mp hk
      rw [edgesAfter_of_mem hnodup hmember]
      exact hinstalled.membership _ (List.mem_map_of_mem hmember)
    · rw [helsewhere k hk, edgesAfter_of_notMem hk]
  obtain ⟨hreversed, hentries, hrooted, hindex⟩ := replaceAllReaders_spec hprevious
    (hkeys.symm ▸ hnodup) (fun x y => by
      rw [hinstalled.membershipReaders, hkeys]
      refine h.reversed.trans ?_
      split
      · rfl
      · rename_i hx
        rw [helsewhere x hx])
  generalize replaceAllReaders (members.map (memo.prepare sameProductValue)) memo₁ = memo₂
    at hreversed hentries hrooted hindex hmemo'
  have hmembership₂ : memo₂.membership = memo₁.membership := by
    funext k
    rw [membership, membership, hentries]
  have hindexed : memo₂.Indexed := by
    intro reader k
    rw [hindex, hrooted]
    exact hinstalled.indexed reader k
  have hsettling : ∀ reader rooted, memo₂.rooted.lookup reader = some rooted →
      rooted.Settling memo₂ memo.membership (members.map ProductCommitMember.key) := by
    intro reader rooted hlookup
    rw [hrooted] at hlookup
    obtain ⟨old, hold, hsame⟩ := hinstalled.pointers reader rooted hlookup
    refine ((h.readers reader old hold).same hsame).settling fun k hk => ?_
    rw [hmembership₂, helsewhere k hk]
  obtain ⟨hgraph, hindexed', hlookup'⟩ := committedMembers_spec hreversed hindexed hprevious
    (hkeys.symm ▸ hnodup) (hkeys.symm ▸ hsettling) hmemo'
  refine ⟨⟨hgraph.reversed hreversed, hindexed', fun reader rooted hlookup => ?_⟩,
    (hgraph.membership.trans hmembership₂).trans hmembership,
    fun reader rooted hreader hlookup => ?_⟩
  · rw [hlookup'] at hlookup
    obtain ⟨old, hold, rfl⟩ := Option.map_eq_some_iff.mp hlookup
    rw [hgraph.membership]
    refine (RootedProducts.Settling.takeOver_all hreversed hprevious (hkeys.symm ▸ hnodup)
      ?_).1.settled
    exact hkeys.symm ▸ hsettling reader old hold
  · have hold : memo₂.rooted.lookup reader = some rooted := by
      rw [hrooted, hinstalled.others reader (hkeys.symm ▸ hreader)]
      exact hlookup
    refine ⟨hgraph.settling (hsettling reader rooted hold), ?_⟩
    rw [hlookup', hold, hgraph.takeOver]
    rfl

theorem commitMembers_changes {first : ProductCommitMember Key Value} (h : memo.Settled)
    (hnodup : ((first :: members).map ProductCommitMember.key).Nodup)
    (hcommit : memo.commitMembers sameProductValue (first :: members) = some (mutations, memo'))
    {reader : Key} {rooted : RootedProducts Key}
    (hreader : reader ∉ (first :: members).map ProductCommitMember.key)
    (hlookup : memo.rooted.lookup reader = some rooted)
    (hsteady : Steady memo.membership (memo.edgesAfter (first :: members)) first.key rooted.seed) :
    ∃ rooted', memo'.rooted.lookup reader = some rooted' ∧
      ∀ x, x ∈ rooted'.changes ↔ x ∈ rooted.changes ∨ ¬ (Reach memo.membership rooted.seed x ↔
          Reach (memo.edgesAfter (first :: members)) rooted.seed x) ∨
        ∃ member ∈ first :: members, (memo.prepare sameProductValue member).changed = true ∧
          member.key = x ∧ Reach (memo.edgesAfter (first :: members)) rooted.seed x := by
  obtain ⟨hsettled, hmembership, hreaders⟩ := commitMembers_spec h hnodup hcommit
  obtain ⟨hsettling, hlookup'⟩ := hreaders reader rooted hreader hlookup
  have hkeys := map_prepare_key memo sameProductValue (first :: members)
  rw [← hkeys] at hnodup hsettling
  have hprevious := fun member =>
    @prepare_previous _ _ _ memo sameProductValue (first :: members) member
  have hseed := (hsettling.takeOver_all hsettled.reversed hprevious hnodup).2
  have hbefore := (h.readers reader rooted hlookup).mem_iff
  have hafter := (hsettled.readers reader _ hlookup').mem_iff
  rw [hseed] at hafter
  have hchanges := hsettling.changes_iff hsettled.reversed hprevious hnodup hbefore hafter
    (hmembership ▸ hsteady)
  refine ⟨_, hlookup', fun x => (hchanges x).trans ?_⟩
  rw [← hmembership, ← hbefore x, ← hafter x]
  refine or_congr Iff.rfl (or_congr Iff.rfl ⟨?_, ?_⟩)
  · rintro ⟨other, hother, hchanged, hkey, hin⟩
    rw [← List.map_cons] at hother
    obtain ⟨member, hmember, rfl⟩ := List.mem_map.mp hother
    exact ⟨member, hmember, hchanged, hkey, hin⟩
  · rintro ⟨member, hmember, hchanged, hkey, hin⟩
    exact ⟨_, List.mem_map_of_mem hmember, hchanged, hkey, hin⟩

/-! ## Runs -/

/-- The operations on the memo that touch rooted sets and membership edges. -/
inductive Op (Key Value : Type) where
  | registerRooted (reader seed : Key)
  | retireRooted (reader : Key)
  /-- A formula stops at a read, and waits. -/
  | unblock (key : Key) (rootedRead : Option RootedRead)
  | abort (key : Key)
  | complete (requested : Key) (completion : ProductCompletion Key Value)

/-- One operation, with the mutations it asks for. -/
def step (sameProductValue : Value → Value → Bool) (memo : ProductMemo Key Value) :
    Op Key Value → Option (ProductMemo Key Value × List (ReaderMutation × Key))
  | .registerRooted reader seed => some (memo.registerRooted reader seed, [])
  | .retireRooted reader => some (memo.retireRooted reader, [])
  | .unblock key rootedRead =>
    let waits := rootedRead.any fun read => !read.delivered
    some ({ memo with
      awaiting := if waits then insert key memo.awaiting else memo.awaiting.erase key }, [])
  | .abort key => some ({ memo with awaiting := memo.awaiting.erase key }, [])
  | .complete requested completion =>
    (memo.finishCompletion sameProductValue requested completion).map Prod.swap

theorem finishCompletion_eq {requested : Key} {completion : ProductCompletion Key Value}
    (h : memo.finishCompletion sameProductValue requested completion = some (mutations, memo')) :
    ((completion.members requested).map ProductCommitMember.key).Nodup ∧
      requested ∈ (completion.members requested).map ProductCommitMember.key ∧
      memo.commitMembers sameProductValue (completion.members requested) =
        some (mutations, memo') := by
  dsimp only [finishCompletion] at h
  split at h
  · rename_i hok
    exact ⟨ProductCompletion.nodup_members hok.2, hok.1, h⟩
  · cases h

theorem Settled.step {op : Op Key Value} {events : List (ReaderMutation × Key)} (h : memo.Settled)
    (hstep : memo.step sameProductValue op = some (memo', events)) : memo'.Settled := by
  cases op with
  | registerRooted reader seed =>
    cases hstep
    exact h.registerRooted reader seed
  | retireRooted reader =>
    cases hstep
    exact h.retireRooted reader
  | unblock key rootedRead =>
    cases hstep
    exact ⟨h.reversed, h.indexed, h.readers⟩
  | abort key =>
    cases hstep
    exact ⟨h.reversed, h.indexed, h.readers⟩
  | complete requested completion =>
    obtain ⟨⟨mutations, memo₁⟩, hcomplete, hswap⟩ := Option.map_eq_some_iff.mp hstep
    obtain ⟨rfl, rfl⟩ := Prod.mk.inj hswap
    obtain ⟨hnodup, _, hcommit⟩ := finishCompletion_eq hcomplete
    exact (commitMembers_spec h hnodup hcommit).1

/-- A rooted set is exactly what its seed reaches, with an acyclic witness along the edges. -/
structure ExactlyReached (edges : Key → Finset Key) (rooted : RootedProducts Key) : Prop where
  members : ∀ k, k ∈ rooted.parents ↔ Reach edges rooted.seed k
  edge : ∀ k p, rooted.parents.lookup k = some (some p) → k ∈ edges p
  parentless : ∀ k, rooted.parents.lookup k = some none ↔ k = rooted.seed
  acyclic : ∀ k, ¬ TransGen (fun k p => rooted.parents.lookup k = some (some p)) k k
  children : ∀ p k, k ∈ rooted.children p ↔ rooted.parents.lookup k = some (some p)

theorem exactlyReached {edges : Key → Finset Key} {rooted : RootedProducts Key}
    (h : rooted.Settled edges) : ExactlyReached edges rooted where
  members := h.mem_iff
  edge _ _ hk := h.tree.witness.edge hk
  parentless _ := ⟨h.tree.witness.root_eq, fun hk => hk ▸ h.tree.witness.seed_root⟩
  acyclic := h.tree.witness.acyclic
  children _ _ := h.tree.children

/-- The condition on a commit under which a reader is told exactly what changed: it publishes one
product, or it does not detour from the seed of the reader. -/
def tellsExactly (memo : ProductMemo Key Value) (members : List (ProductCommitMember Key Value))
    (seed : Key) : Prop :=
  members.length = 1 ∨ ∀ first ∈ members.head?,
    Steady memo.membership (memo.edgesAfter members) first.key seed

theorem tellsExactly.steady {first : ProductCommitMember Key Value} {seed : Key}
    (h : memo.tellsExactly (first :: members) seed) :
    Steady memo.membership (memo.edgesAfter (first :: members)) first.key seed := by
  rcases h with hone | hsteady
  · obtain rfl := List.eq_nil_of_length_eq_zero (Nat.succ.inj hone)
    refine Steady.single fun k hk => edgesAfter_of_notMem ?_
    exact fun hmem => hk (List.mem_singleton.mp hmem)
  · exact hsteady first rfl

/-- In every memo that a run reaches, each rooted set is exactly what its seed reaches through the
committed edges, the readers of each member are indexed, and a completion that does not detour tells
every other reader exactly what changed. -/
theorem run_exactlyReached {ops : List (Op Key Value)} {events : List (ReaderMutation × Key)}
    (hrun : Base.Run (step sameProductValue) Base.anyStep empty ops events memo) :
    (∀ reader rooted, memo.rooted.lookup reader = some rooted →
      ExactlyReached memo.membership rooted) ∧ (∀ reader k, reader ∈ memo.rootedReaders k ↔
      ∃ rooted, memo.rooted.lookup reader = some rooted ∧ k ∈ rooted.parents) ∧
    ∀ requested completion mutations memo',
      memo.finishCompletion sameProductValue requested completion = some (mutations, memo') →
      ∀ reader rooted, memo.rooted.lookup reader = some rooted →
        reader ∉ (completion.members requested).map ProductCommitMember.key →
        memo.tellsExactly (completion.members requested) rooted.seed →
        ∃ rooted', memo'.rooted.lookup reader = some rooted' ∧
          ∀ x, x ∈ rooted'.changes ↔ x ∈ rooted.changes ∨
            ¬ (Reach memo.membership rooted.seed x ↔ Reach memo'.membership rooted.seed x) ∨
            ∃ member ∈ completion.members requested,
              (memo.prepare sameProductValue member).changed = true ∧ member.key = x ∧
                Reach memo'.membership rooted.seed x := by
  have hsettled : memo.Settled := hrun.inv settled_empty fun _ _ _ _ h _ hstep => h.step hstep
  refine ⟨fun reader rooted hlookup => exactlyReached (hsettled.readers reader rooted hlookup),
    hsettled.indexed, fun requested completion mutations memo' hcomplete reader rooted hlookup
      hreader hexact => ?_⟩
  obtain ⟨hnodup, hrequested, hcommit⟩ := finishCompletion_eq hcomplete
  rw [(commitMembers_spec hsettled hnodup hcommit).2.1]
  generalize completion.members requested = members at hnodup hrequested hcommit hreader hexact ⊢
  cases members with
  | nil => cases hrequested
  | cons first members =>
    exact commitMembers_changes hsettled hnodup hcommit hreader hlookup hexact.steady

/-- Before a group commit: the seed `0` reaches `1`, `4` and, through `1`, also `2`. -/
def detourStart : List (Op Nat Nat) :=
  [.complete 0 (.single 0 {1, 4} none), .complete 1 (.single 0 {2} none),
    .complete 3 (.single 0 {2} none), .registerRooted 9 0,
    .complete 9 (.single 0 ∅ (some ⟨true⟩))]

theorem run_detourStart : ∃ events memo rooted,
    Base.Run (step (· == ·)) Base.anyStep (empty : ProductMemo Nat Nat) detourStart events memo ∧
      memo.rooted.lookup 9 = some rooted ∧ ExactlyReached memo.membership rooted ∧
      ∃ mutations memo' rooted',
        memo.finishCompletion (· == ·) 1 (.single 1 ∅ none) = some (mutations, memo') ∧
        memo'.rooted.lookup 9 = some rooted' ∧ (2 ∈ rooted'.changes ↔ 2 ∈ rooted.changes ∨
          ¬ (Reach memo.membership rooted.seed 2 ↔ Reach memo'.membership rooted.seed 2) ∨
          ∃ member ∈ [(⟨1, 1, ∅, none⟩ : ProductCommitMember Nat Nat)],
            (memo.prepare (· == ·) member).changed = true ∧ member.key = 2 ∧
              Reach memo'.membership rooted.seed 2) := by
  have hrun : Base.Run (step (· == ·)) Base.anyStep (empty : ProductMemo Nat Nat) detourStart _ _ :=
    Base.Run.of_runActs (.of_forall (fun _ _ _ => trivial) _) rfl
  obtain ⟨hreached, _, hexact⟩ := run_exactlyReached hrun
  obtain ⟨rooted', hlookup', hchanges⟩ := hexact 1 (.single 1 ∅ none) _ _ rfl 9 _ rfl (by decide)
    (.inl rfl)
  exact ⟨_, _, _, hrun, rfl, hreached 9 _ rfl, _, _, rooted', rfl, hlookup', hchanges 2⟩

/-- The group in which `1` gives up its edge to `2`, and `4` gains a path to it through `3`. -/
def detourGroup : ProductCompletion Nat Nat :=
  .recursiveGroup [⟨1, 0, ∅, none⟩, ⟨4, 0, {3}, none⟩]

/-- `2` is reached before and after the group and is not one of its products, and yet it is
reported. -/
theorem detour_reported : ∃ events memo memo' mutations rooted rooted',
    Base.Run (step (· == ·)) Base.anyStep (empty : ProductMemo Nat Nat) detourStart events memo ∧
      memo.finishCompletion (· == ·) 1 detourGroup = some (mutations, memo') ∧
      memo.rooted.lookup 9 = some rooted ∧ memo'.rooted.lookup 9 = some rooted' ∧
      9 ∉ (detourGroup.members 1).map ProductCommitMember.key ∧
      2 ∉ (detourGroup.members 1).map ProductCommitMember.key ∧
      Reach memo.membership rooted.seed 2 ∧ Reach memo'.membership rooted.seed 2 ∧
      2 ∉ rooted.changes ∧ 2 ∈ rooted'.changes := by
  have hrun : Base.Run (step (· == ·)) Base.anyStep (empty : ProductMemo Nat Nat) detourStart _ _ :=
    Base.Run.of_runActs (.of_forall (fun _ _ _ => trivial) _) rfl
  refine ⟨_, _, _, _, _, _, hrun, rfl, rfl, rfl, by decide, by decide, ?_, ?_, by decide, by decide⟩
  · exact .tail (.single (b := 1) (by decide)) (by decide)
  · exact .tail (.tail (.single (b := 4) (by decide)) (c := 3) (by decide)) (by decide)

end ProductMemo

end Fz.Pull
