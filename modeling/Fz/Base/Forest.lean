import Mathlib.Algebra.Order.BigOperators.Group.Finset
import Mathlib.Logic.Relation

/-!
# Parent pointers

A search of a graph from a seed leaves for each node that it reached the node it came from.  The
parent pointers are a proof that the node is reached, as long as every pointer is an edge and every
node leads up to the seed (`Witness`).  The first part says how such a proof is changed: a node is
attached below another, moved below one that is not under it, or cut off with all that is under it.
Where the nodes are closed under the edges, they are the nodes that the graph reaches from the seed
(`Witness.member_iff`).

The second part is the loop of a search: a list of items to visit, where an item that was seen is
skipped and one that was not adds its successors.  `worklist_rule` is its rule of invariants.
-/

namespace Fz.Base

open Relation

variable {α : Type*}

/-! ## Witnesses -/

/-- `n` steps up lead from the node to one without a parent. -/
inductive Depth (parent : α → Option (Option α)) : α → Nat → Prop where
  | root {k} : parent k = some none → Depth parent k 0
  | child {k p n} : parent k = some (some p) → Depth parent p n → Depth parent k (n + 1)

variable {parent : α → Option (Option α)} {E E' : α → α → Prop} {seed k p q : α}

namespace Depth

theorem member {n : Nat} (h : Depth parent k n) : parent k ≠ none := by
  cases h with
  | root h => rw [h]; exact nofun
  | child h _ => rw [h]; exact nofun

theorem unique {m n : Nat} (hm : Depth parent k m) (hn : Depth parent k n) : m = n := by
  induction hm generalizing n with
  | root h =>
    cases hn with
    | root _ => rfl
    | child h' _ => exact nomatch h.symm.trans h'
  | child h _ ih =>
    cases hn with
    | root h' => exact nomatch h.symm.trans h'
    | child h' hn =>
      obtain rfl := Option.some.inj (Option.some.inj (h.symm.trans h'))
      rw [ih hn]

/-- A node is less deep than there are nodes. -/
theorem lt_card {nodes : Finset α} (hnodes : ∀ x, parent x ≠ none → x ∈ nodes) {n : Nat}
    (h : Depth parent k n) : n < nodes.card := by
  classical
  have hchain : ∃ above ⊆ nodes, above.card = n + 1 ∧ ∀ x ∈ above, ∃ m ≤ n, Depth parent x m := by
    induction h with
    | @root k hroot =>
      refine ⟨{k}, Finset.singleton_subset_iff.mpr (hnodes k (by rw [hroot]; exact nofun)), rfl,
        fun x hx => ?_⟩
      obtain rfl := Finset.mem_singleton.mp hx
      exact ⟨0, le_rfl, .root hroot⟩
    | @child k p n hchild hp ih =>
      obtain ⟨above, hsub, hcard, hdepth⟩ := ih
      have hk : k ∉ above := by
        intro hmem
        obtain ⟨m, hm, hk⟩ := hdepth k hmem
        exact absurd (hk.unique (.child hchild hp)) (by omega)
      refine ⟨insert k above, ?_, ?_, fun x hx => ?_⟩
      · exact Finset.insert_subset (hnodes k (by rw [hchild]; exact nofun)) hsub
      · rw [Finset.card_insert_of_notMem hk, hcard]
      · rcases Finset.mem_insert.mp hx with rfl | hx
        · exact ⟨n + 1, le_rfl, .child hchild hp⟩
        · obtain ⟨m, hm, hx⟩ := hdepth x hx
          exact ⟨m, hm.trans (Nat.le_succ n), hx⟩
  obtain ⟨above, hsub, hcard, _⟩ := hchain
  have hle := Finset.card_le_card hsub
  omega

end Depth

/-- The first node is the second or stands somewhere under it. -/
def Under (parent : α → Option (Option α)) : α → α → Prop :=
  ReflTransGen fun a b => parent a = some (some b)

theorem Depth.under_le {m n : Nat} (h : Under parent k p) (hk : Depth parent k m)
    (hp : Depth parent p n) : n ≤ m := by
  induction h using ReflTransGen.head_induction_on generalizing m with
  | refl => exact (hp.unique hk).le
  | head hstep _ ih =>
    cases hk with
    | root h => exact nomatch h.symm.trans hstep
    | child h hk =>
      obtain rfl := Option.some.inj (Option.some.inj (h.symm.trans hstep))
      exact (ih hk).trans (Nat.le_succ _)

/-- Parent pointers along the edges, each leading up to the seed. -/
structure Witness (E : α → α → Prop) (seed : α) (parent : α → Option (Option α)) : Prop where
  seed_root : parent seed = some none
  root_eq : ∀ {k}, parent k = some none → k = seed
  edge : ∀ {k p}, parent k = some (some p) → E p k
  grounded : ∀ {k}, parent k ≠ none → ∃ n, Depth parent k n

namespace Witness

theorem seed_member (h : Witness E seed parent) : parent seed ≠ none := by
  rw [h.seed_root]
  exact nofun

theorem parent_member (h : Witness E seed parent) (hk : parent k = some (some p)) :
    parent p ≠ none := by
  obtain ⟨n, hn⟩ := h.grounded (k := k) (by rw [hk]; exact nofun)
  cases hn with
  | root h' => exact nomatch hk.symm.trans h'
  | child h' hp =>
    obtain rfl := Option.some.inj (Option.some.inj (hk.symm.trans h'))
    exact hp.member

theorem imp (h : Witness E seed parent) (hE : ∀ {k p}, parent k = some (some p) → E p k → E' p k) :
    Witness E' seed parent where
  seed_root := h.seed_root
  root_eq := h.root_eq
  edge hk := hE hk (h.edge hk)
  grounded := h.grounded

/-- The pointers lead back along the edges. -/
theorem reach (h : Witness E seed parent) (hk : parent k ≠ none) : ReflTransGen E seed k := by
  obtain ⟨n, hn⟩ := h.grounded hk
  induction hn with
  | root hroot =>
    obtain rfl := h.root_eq hroot
    exact .refl
  | child hchild hp ih => exact (ih hp.member).tail (h.edge hchild)

theorem acyclic (h : Witness E seed parent) (k : α) :
    ¬ TransGen (fun a b => parent a = some (some b)) k k := by
  intro hcycle
  obtain ⟨p, hstep, hup⟩ := TransGen.head'_iff.mp hcycle
  obtain ⟨n, hn⟩ := h.grounded (h.parent_member hstep)
  exact absurd (Depth.under_le hup hn (.child hstep hn)) (Nat.not_succ_le_self n)

/-- A node is not under its own child. -/
theorem not_under (h : Witness E seed parent) (hk : parent k = some (some p)) :
    ¬ Under parent p k := by
  intro hup
  exact h.acyclic k (TransGen.head' hk hup)

/-- Nodes that are closed under the edges are the ones reached from the seed. -/
theorem member_iff (h : Witness E seed parent)
    (hclosed : ∀ {x y}, parent x ≠ none → E x y → parent y ≠ none) :
    parent k ≠ none ↔ ReflTransGen E seed k := by
  refine ⟨h.reach, fun hreach => ?_⟩
  induction hreach with
  | refl => exact h.seed_member
  | tail _ hstep ih => exact hclosed ih hstep

section Change

variable {parent' : α → Option (Option α)}

/-- The seed alone. -/
theorem single (hself : parent' seed = some none) (hother : ∀ x, x ≠ seed → parent' x = none) :
    Witness E seed parent' := by
  have honly : ∀ {x}, parent' x ≠ none → x = seed := fun {x} hx => by
    by_contra hne
    exact hx (hother x hne)
  refine ⟨hself, fun {x} hx => ?_, fun {x y} hx => ?_, fun {x} hx => ?_⟩
  · exact honly (by rw [hx]; exact nofun)
  · rw [honly (x := x) (by rw [hx]; exact nofun), hself] at hx
    cases hx
  · rw [honly hx]
    exact ⟨0, .root hself⟩

/-- A new node below one that is there. -/
theorem attach (h : Witness E seed parent) (hk : parent k = none) (hp : parent p ≠ none)
    (hedge : E p k) (hself : parent' k = some (some p))
    (hother : ∀ x, x ≠ k → parent' x = parent x) : Witness E seed parent' := by
  have hold : ∀ {x}, parent x ≠ none → parent' x = parent x := fun {x} hx =>
    hother x fun heq => hx (by rw [heq, hk])
  have hdepth : ∀ {x n}, Depth parent x n → Depth parent' x n := by
    intro x n hx
    induction hx with
    | root hroot => exact .root ((hold (by rw [hroot]; exact nofun)).trans hroot)
    | child hchild _ ih => exact .child ((hold (by rw [hchild]; exact nofun)).trans hchild) ih
  refine ⟨(hold h.seed_member).trans h.seed_root, fun {x} hx => ?_, fun {x y} hx => ?_,
    fun {x} hx => ?_⟩
  · rcases eq_or_ne x k with rfl | hne
    · exact nomatch hself.symm.trans hx
    · exact h.root_eq ((hother x hne).symm.trans hx)
  · rcases eq_or_ne x k with rfl | hne
    · cases hself.symm.trans hx
      exact hedge
    · exact h.edge ((hother x hne).symm.trans hx)
  · rcases eq_or_ne x k with rfl | hne
    · obtain ⟨m, hm⟩ := h.grounded hp
      exact ⟨m + 1, .child hself (hdepth hm)⟩
    · rw [hother x hne] at hx
      obtain ⟨n, hn⟩ := h.grounded hx
      exact ⟨n, hdepth hn⟩

/-- A node, with all that is under it, below another that is not under it. -/
theorem move (h : Witness E seed parent) (hk : parent k = some (some p)) (hq : parent q ≠ none)
    (hunder : ¬ Under parent q k) (hedge : E q k) (hself : parent' k = some (some q))
    (hother : ∀ x, x ≠ k → parent' x = parent x) : Witness E seed parent' := by
  have hrest : ∀ {x n}, Depth parent x n → ¬ Under parent x k → Depth parent' x n := by
    intro x n hx
    induction hx with
    | @root x hroot =>
      intro hout
      refine .root ((hother x fun heq => hout ?_).trans hroot)
      rw [heq]
      exact .refl
    | @child x y n hchild _ ih =>
      intro hout
      refine .child ((hother x fun heq => hout ?_).trans hchild)
        (ih fun hup => hout (.head hchild hup))
      rw [heq]
      exact .refl
  have hseed : seed ≠ k := fun heq => nomatch (heq ▸ h.seed_root).symm.trans hk
  refine ⟨(hother seed hseed).trans h.seed_root, fun {x} hx => ?_, fun {x y} hx => ?_,
    fun {x} hx => ?_⟩
  · rcases eq_or_ne x k with rfl | hne
    · exact nomatch hself.symm.trans hx
    · exact h.root_eq ((hother x hne).symm.trans hx)
  · rcases eq_or_ne x k with rfl | hne
    · cases hself.symm.trans hx
      exact hedge
    · exact h.edge ((hother x hne).symm.trans hx)
  · obtain ⟨m, hm⟩ := h.grounded hq
    have hmoved : Depth parent' k (m + 1) := .child hself (hrest hm hunder)
    rcases eq_or_ne x k with rfl | hne
    · exact ⟨m + 1, hmoved⟩
    · rw [hother x hne] at hx
      obtain ⟨n, hn⟩ := h.grounded hx
      -- What was under the node stays under it, at another depth.
      clear hx hne
      induction hn with
      | @root x hroot =>
        refine ⟨0, .root ((hother x fun heq => ?_).trans hroot)⟩
        exact nomatch (heq ▸ hroot).symm.trans hk
      | @child x y n hchild _ ih =>
        rcases eq_or_ne x k with rfl | hne
        · exact ⟨m + 1, hmoved⟩
        · obtain ⟨i, hi⟩ := ih
          exact ⟨i + 1, .child ((hother x hne).trans hchild) hi⟩

/-- A set of nodes, with all that is under them, cut off. -/
theorem cut (h : Witness E seed parent) {D : α → Prop} (hseed : ¬ D seed)
    (hD : ∀ {x y}, parent x = some (some y) → D y → D x) (hgone : ∀ x, D x → parent' x = none)
    (hother : ∀ x, ¬ D x → parent' x = parent x) : Witness E seed parent' := by
  have hstays : ∀ {x}, parent' x ≠ none → ¬ D x := fun hx hin => hx (hgone _ hin)
  refine ⟨(hother seed hseed).trans h.seed_root, fun {x} hx => ?_, fun {x y} hx => ?_,
    fun {x} hx => ?_⟩
  · exact h.root_eq ((hother x (hstays (by rw [hx]; exact nofun))).symm.trans hx)
  · exact h.edge ((hother x (hstays (by rw [hx]; exact nofun))).symm.trans hx)
  · have hout := hstays hx
    rw [hother x hout] at hx
    obtain ⟨n, hn⟩ := h.grounded hx
    refine ⟨n, ?_⟩
    clear hx
    induction hn with
    | @root x hroot => exact .root ((hother x hout).trans hroot)
    | @child x y n hchild _ ih =>
      exact .child ((hother x hout).trans hchild) (ih fun hy => hout (hD hchild hy))

end Change

end Witness

/-! ## Worklists -/

section Worklist

variable {ι σ : Type*} (seen : σ → ι → Bool) (visit : σ → ι → σ) (next : ι → List ι)

/-- Visit the items of a list, each adding its successors, with a bound on the number of items. -/
def worklist : Nat → List ι → σ → σ
  | 0, _, s => s
  | _ + 1, [], s => s
  | fuel + 1, i :: pending, s =>
    if seen s i then worklist fuel pending s
    else worklist fuel (next i ++ pending) (visit s i)

/-- The rule of invariants of a worklist.  What is left to visit is bounded by a potential that pays
for the successors of every item. -/
theorem worklist_rule {seen visit next} (Inv : List ι → σ → Prop) (potential : σ → Nat)
    (hskip : ∀ {i pending s}, seen s i = true → Inv (i :: pending) s → Inv pending s)
    (hvisit : ∀ {i pending s}, seen s i = false → Inv (i :: pending) s →
      Inv (next i ++ pending) (visit s i) ∧ (next i).length + potential (visit s i) ≤ potential s)
    {fuel : Nat} {pending : List ι} {s : σ} (hfuel : pending.length + potential s ≤ fuel)
    (h : Inv pending s) : Inv [] (worklist seen visit next fuel pending s) := by
  induction fuel generalizing pending s with
  | zero =>
    obtain rfl := List.eq_nil_of_length_eq_zero (Nat.eq_zero_of_le_zero
      ((Nat.le_add_right _ _).trans hfuel))
    exact h
  | succ fuel ih =>
    cases pending with
    | nil => exact h
    | cons i pending =>
      rw [List.length_cons] at hfuel
      cases hseen : seen s i with
      | true =>
        simp only [worklist, hseen, if_true]
        exact ih (by omega) (hskip hseen h)
      | false =>
        obtain ⟨hinv, hpay⟩ := hvisit hseen h
        simp only [worklist, hseen, Bool.false_eq_true, if_false]
        refine ih ?_ hinv
        rw [List.length_append]
        omega

end Worklist

/-- A visit pays for the weight of its node out of what is left. -/
theorem sum_left_pays [DecidableEq α] {nodes visited : Finset α} {weight : α → Nat} {k : α}
    (hk : k ∉ visited) (hweight : k ∉ nodes → weight k = 0) :
    weight k + ∑ x ∈ nodes \ insert k visited, weight x ≤ ∑ x ∈ nodes \ visited, weight x := by
  rw [Finset.sdiff_insert]
  by_cases hmem : k ∈ nodes
  · exact (Finset.add_sum_erase _ weight (Finset.mem_sdiff.mpr ⟨hmem, hk⟩)).le
  · rw [hweight hmem, Nat.zero_add]
    exact Finset.sum_le_sum_of_subset (Finset.erase_subset _ _)

end Fz.Base
