import Fz.Facts.RowRuns
import Fz.Types.OrderLaws

/-!
# The order of arrival

Rows of plain data arrive in some order, and a row set keeps the widest of them.  Which rows are
kept depends on the order of arrival only up to equivalence.  Of several equivalent rows the first
one is kept, and the rows are listed by the activation order, which compares the representatives
and not what they mean.

So two orders of arrival give equivalent row sets exactly when the activation order does not tell
equivalent rows apart (`ListedAlike`), where subtyping is transitive on the rows.
-/

namespace Fz.Facts

open Base Types

/-! ## Plain rows -/

/-- Rows of plain data of one arity: types of the store without variables and closure literals.
Subtyping is transitive on them. -/
structure PlainRows (cx : TyCtx) (rows : List ActivationInputRow) : Prop where
  known : ∀ r ∈ rows, cx.KnowsRow r
  ground : ∀ r ∈ rows, ∀ t ∈ r, cx.freeVarIds t = ∅
  literalFree : ∀ r ∈ rows, ∀ t ∈ r, cx.litArrowShapes t = []
  arity : ∃ n, ∀ r ∈ rows, r.length = n
  trans : ∀ a ∈ rows, ∀ b ∈ rows, ∀ c ∈ rows, cx.RowBelow a b → cx.RowBelow b c → cx.RowBelow a c

section Plain

variable {cx : TyCtx} {rows : List ActivationInputRow}

theorem rowColumnDominates_of_plain {a b : Ty} (ha : cx.freeVarIds a = ∅)
    (hb : cx.freeVarIds b = ∅) (hlit : cx.litArrowShapes a = []) :
    cx.rowColumnDominates a b = cx.isSubtype a b := by
  unfold TyCtx.rowColumnDominates
  rw [ha, hb, hlit]
  split
  · rename_i heq
    exact heq ▸ (TyCtx.isSubtype_refl a).symm
  · rfl

theorem PlainRows.dominates_iff (h : PlainRows cx rows) {a b : ActivationInputRow}
    (ha : a ∈ rows) (hb : b ∈ rows) : cx.rowDominates a b = true ↔ cx.RowBelow a b := by
  refine ⟨TyCtx.rowBelow_of_dominates, fun hab => ?_⟩
  unfold TyCtx.rowDominates
  rw [Bool.and_eq_true, decide_eq_true_iff, List.all_eq_true]
  refine ⟨hab.length_eq, fun p hp => ?_⟩
  obtain ⟨hx, hy⟩ := List.of_mem_zip hp
  show cx.rowColumnDominates p.1 p.2 = true
  rw [rowColumnDominates_of_plain (h.ground a ha p.1 hx) (h.ground b hb p.2 hy)
    (h.literalFree a ha p.1 hx)]
  exact (List.forall₂_iff_zip.mp hab).2 hp

theorem PlainRows.equivalent_iff (h : PlainRows cx rows) {a b : ActivationInputRow}
    (ha : a ∈ rows) (hb : b ∈ rows) : cx.rowEquivalent a b = true ↔ Mutual cx.rowDominates a b := by
  rw [TyCtx.rowEquivalent_iff, Mutual, h.dominates_iff ha hb, h.dominates_iff hb ha]

theorem PlainRows.ordered (h : PlainRows cx rows) :
    Ordered cx.rowEquivalent cx.rowDominates rows where
  refl a ha := by
    rw [h.dominates_iff ha ha]
    exact List.forall₂_same.mpr fun t _ => TyCtx.isSubtype_refl t
  trans a ha b hb c hc := by
    rw [h.dominates_iff ha hb, h.dominates_iff hb hc, h.dominates_iff ha hc]
    exact h.trans a ha b hb c hc
  same_iff a ha b hb := h.equivalent_iff ha hb

end Plain

/-! ## Rows arrive -/

namespace ActivationInputAlternatives

variable (env : RowEnv)

/-- Rows are pushed one after another. -/
def pushAll : ActivationInputAlternatives → List (List Ty) → RowM ActivationInputAlternatives
  | set, [] => pure set
  | set, row :: rest => do
    let set ← set.pushRow env row
    pushAll set rest

end ActivationInputAlternatives

/-- One row comes before another or with it in the activation order. -/
def Listed (env : RowEnv) (cx : TyCtx) (a b : ActivationInputRow) : Prop :=
  (cmpActivationTys env.paths env.origins cx a b).isLE = true

instance (env : RowEnv) (cx : TyCtx) : DecidableRel (Listed env cx) :=
  fun _ _ => inferInstanceAs (Decidable (_ = true))

/-- What a row set is after rows arrived, if they were never too many. -/
structure Pushed (env : RowEnv) (cx : TyCtx) (all arrived : List ActivationInputRow)
    (set : ActivationInputAlternatives) : Prop where
  survive : set.rows.Perm (survivors cx.rowEquivalent cx.rowDominates arrived)
  sorted : set.rows.Pairwise (Listed env cx)
  /-- Two rows that came first and that nothing replaces stand in their order. -/
  leads : ∀ a b, Widest cx.rowDominates all a → Widest cx.rowDominates all b →
    Incomparable cx.rowDominates a b → Listed env cx a b → [a, b] <+: arrived →
    [a, b].Sublist set.rows

section Arrive

variable {env : RowEnv} {cx : TyCtx} {all arrived : List ActivationInputRow}
  {set : ActivationInputAlternatives}

theorem wp_rebuild_rows {rows : List ActivationInputRow} {n : Nat} {s : Types}
    (hrows : ∀ r ∈ rows, r.length = n ∧ s.cx.KnowsRow r)
    (hbudget : rows.length ≤ ACTIVATION_INPUT_ROW_BUDGET) :
    wp (ActivationInputAlternatives.rebuild env rows) (fun set s' => s.cx.Extends s'.cx ∧
        set.rows = sortBy (cmpActivationTys env.paths env.origins s.cx) rows)
      (fun _ => False) s := by
  unfold ActivationInputAlternatives.rebuild
  rw [wp_bind, wp_get]
  have hperm : (sortBy (cmpActivationTys env.paths env.origins s.cx) rows).Perm rows :=
    List.perm_insertionSort _ rows
  dsimp only
  rw [wp_bind]
  have hnil : ∀ t ∈ ([] : List Ty), t < s.cx.arena.length := nofun
  refine ((respected_known env).wp_joinRows [] (n := n) hnil (.inl rfl) (fun r hr => ?_)
    nofun).imp ?_
  · exact hrows r (hperm.mem_iff.mp hr)
  · rintro joined s' ⟨hext, _⟩
    rw [if_neg]
    · exact ⟨hext, rfl⟩
    · rw [hperm.length_eq]
      exact Nat.not_lt.mpr hbudget

theorem Listed.of_extends {cx' : TyCtx} (hext : cx.Extends cx') {a b : ActivationInputRow}
    (ha : cx.KnowsRow a) (hb : cx.KnowsRow b) : Listed env cx' a b ↔ Listed env cx a b := by
  rw [Listed, Listed, hext.cmpActivationTys_eq ha hb]

theorem Listed.total (env : RowEnv) (cx : TyCtx) (a b : ActivationInputRow) :
    Listed env cx a b ∨ Listed env cx b a := by
  have htrans : Std.TransCmp (cmpActivationTys env.paths env.origins cx) :=
    transCmp_cmpActivationTys env.origins
  unfold Listed
  rw [htrans.eq_swap (a := b)]
  cases cmpActivationTys env.paths env.origins cx a b with
  | lt => exact .inl rfl
  | eq => exact .inl rfl
  | gt => exact .inr rfl

theorem pairwise_sortBy (env : RowEnv) (cx : TyCtx) (rows : List ActivationInputRow) :
    (sortBy (cmpActivationTys env.paths env.origins cx) rows).Pairwise (Listed env cx) := by
  have htrans : Std.TransCmp (cmpActivationTys env.paths env.origins cx) :=
    transCmp_cmpActivationTys env.origins
  have htotal : Std.Total (Listed env cx) := ⟨Listed.total env cx⟩
  have hchain : IsTrans _ (Listed env cx) := ⟨fun _ _ _ hab hbc => htrans.isLE_trans hab hbc⟩
  exact List.pairwise_insertionSort (Listed env cx) rows

theorem Pushed.leads_offer (h : PlainRows cx all) (hset : Pushed env cx all arrived set)
    (harrived : ∀ r ∈ arrived, r ∈ all) {row a b : ActivationInputRow} (hrow : row ∈ all)
    (ha : Widest cx.rowDominates all a) (hb : Widest cx.rowDominates all b)
    (hinc : Incomparable cx.rowDominates a b) (hab : Listed env cx a b)
    (hfirst : [a, b] <+: arrived ++ [row]) :
    [a, b].Sublist (offer cx.rowEquivalent cx.rowDominates set.rows row) := by
  match arrived, hset with
  | [], _ => exact absurd hfirst.length_le (Nat.not_succ_le_self 1)
  | [first], hset =>
    -- the second row of the pair is the one that arrives
    obtain ⟨rfl, rfl⟩ : a = first ∧ b = row := by simpa using hfirst
    have hall : ∀ r ∈ [a, b], r ∈ all := by
      intro r hr
      rcases List.mem_pair.mp hr with rfl | rfl
      · exact harrived r (List.mem_singleton_self r)
      · exact hrow
    have hpair := h.ordered.survivors_eq hall (List.pairwise_pair.mpr hinc)
    have hrows : set.rows = [a] := List.perm_singleton.mp hset.survive
    rw [hrows]
    exact hpair ▸ List.Sublist.refl _
  | first :: second :: more, hset =>
    have hfirst : [a, b] <+: first :: second :: more := by
      obtain ⟨rest, hrest⟩ := hfirst
      simp only [List.cons_append, List.nil_append, List.cons.injEq] at hrest
      exact ⟨more, by rw [hrest.1, hrest.2.1]; rfl⟩
    refine h.ordered.sublist_offer (fun r hr => ?_) hrow
      (hset.leads a b ha hb hinc hab hfirst) ?_
    · exact harrived r (mem_of_mem_survivors (hset.survive.mem_iff.mp hr))
    · intro c hc
      rcases List.mem_pair.mp hc with rfl | rfl
      · exact ha
      · exact hb

/-- One more row arrives. -/
theorem Pushed.wp_pushRow (h : PlainRows cx all) (hset : Pushed env cx all arrived set)
    (harrived : ∀ r ∈ arrived, r ∈ all) {row : ActivationInputRow} (hrow : row ∈ all) {s : Types}
    (hext : cx.Extends s.cx) (hbudget : (survivors cx.rowEquivalent cx.rowDominates
      (arrived ++ [row])).length ≤ ACTIVATION_INPUT_ROW_BUDGET) : wp (set.pushRow env row)
      (fun set' s' => cx.Extends s'.cx ∧ Pushed env cx all (arrived ++ [row]) set')
      (fun _ => False) s := by
  obtain ⟨n, hn⟩ := h.arity
  have hstanding : ∀ r ∈ set.rows, r ∈ all := fun r hr =>
    harrived r (mem_of_mem_survivors (hset.survive.mem_iff.mp hr))
  have hoffer : offer s.cx.rowEquivalent s.cx.rowDominates set.rows row =
      offer cx.rowEquivalent cx.rowDominates set.rows row :=
    offer_congr fun r hr =>
      have hr := h.known r (hstanding r hr)
      have hrow := h.known row hrow
      ⟨hext.rowEquivalent_eq hr hrow, hext.rowDominates_eq hrow hr, hext.rowDominates_eq hr hrow⟩
  have hsurvive : (offer cx.rowEquivalent cx.rowDominates set.rows row).Perm
      (survivors cx.rowEquivalent cx.rowDominates (arrived ++ [row])) := by
    rw [survivors_snoc]
    exact offer_perm hset.survive
  have hall : ∀ r ∈ offer cx.rowEquivalent cx.rowDominates set.rows row, r ∈ all := by
    intro r hr
    rcases mem_of_mem_offer hr with hr | rfl
    · exact hstanding r hr
    · exact hrow
  have hleads := fun a b => hset.leads_offer h harrived hrow (a := a) (b := b)
  rw [ActivationInputAlternatives.pushRow, wp_bind, ActivationInputAlternatives.insertRow, wp_bind,
    wp_get, if_neg]
  · rw [hoffer]
    generalize offer cx.rowEquivalent cx.rowDominates set.rows row = rows at hsurvive hall hleads
    have hlength : rows.length ≤ ACTIVATION_INPUT_ROW_BUDGET := hsurvive.length_eq ▸ hbudget
    have hknown : ∀ r ∈ rows, cx.KnowsRow r := fun r hr => h.known r (hall r hr)
    refine (wp_rebuild_rows (n := n)
      (fun r hr => ⟨hn r (hall r hr), (hknown r hr).of_extends hext⟩) hlength).imp ?_
    rintro set' s' ⟨hgrow, hrows⟩
    have hperm : set'.rows.Perm rows := hrows ▸ List.perm_insertionSort _ rows
    refine ⟨hext.trans hgrow, hperm.trans hsurvive, ?_, fun a b ha hb hinc hab hfirst => ?_⟩
    · have hsorted := pairwise_sortBy env s.cx rows
      rw [← hrows] at hsorted
      refine hsorted.imp_of_mem fun {a b} ha hb hab => ?_
      exact (Listed.of_extends hext (hknown a (hperm.mem_iff.mp ha))
        (hknown b (hperm.mem_iff.mp hb))).mp hab
    · have hpair := hleads a b ha hb hinc hab hfirst
      have hab' := (Listed.of_extends hext (hknown a (hpair.subset (.head _)))
        (hknown b (hpair.subset (.tail _ (.head _))))).mpr hab
      rw [hrows]
      exact List.pair_sublist_insertionSort hab' hpair
  · cases hfirst : set.rows with
    | nil => exact Bool.false_ne_true
    | cons first rest =>
      have hlen : first.length = row.length :=
        (hn first (hstanding first (hfirst ▸ .head _))).trans (hn row hrow).symm
      simp [hlen]

theorem Pushed.wp_pushAll (h : PlainRows cx all) {more : List ActivationInputRow}
    (hset : Pushed env cx all arrived set) (hall : ∀ r ∈ arrived ++ more, r ∈ all) {s : Types}
    (hext : cx.Extends s.cx) (hbudget : Within cx.rowEquivalent cx.rowDominates
      ACTIVATION_INPUT_ROW_BUDGET (arrived ++ more)) : wp (set.pushAll env more)
      (fun set' s' => cx.Extends s'.cx ∧ Pushed env cx all (arrived ++ more) set')
      (fun _ => False) s := by
  induction more generalizing arrived set s with
  | nil =>
    rw [List.append_nil]
    exact ⟨hext, hset⟩
  | cons row more ih =>
    have hsplit : arrived ++ row :: more = (arrived ++ [row]) ++ more := by simp
    rw [hsplit] at hall hbudget ⊢
    rw [ActivationInputAlternatives.pushAll, wp_bind]
    have harrived : ∀ r ∈ arrived ++ [row], r ∈ all :=
      fun r hr => hall r (List.mem_append_left _ hr)
    refine (hset.wp_pushRow h (fun r hr => harrived r (List.mem_append_left _ hr))
      (harrived row (List.mem_append_right _ (List.mem_singleton_self row))) hext
      (hbudget _ (List.prefix_append _ _))).imp ?_
    rintro set' s' ⟨hext', hset'⟩
    exact ih hset' hall hext' hbudget

theorem Pushed.bottom : Pushed env cx all [] .bottom where
  survive := .refl _
  sorted := .nil
  leads _ _ _ _ _ _ hfirst := absurd hfirst.length_le (Nat.not_succ_le_zero 1)

end Arrive

/-! ## Two orders of arrival -/

/-- The activation order does not tell equivalent rows apart: if one of two widest rows that are not
equivalent is listed before the other, none of its equivalents is listed after an equivalent of the
other. -/
def ListedAlike (env : RowEnv) (cx : TyCtx) (rows : List ActivationInputRow) : Prop :=
  ∀ a ∈ rows, ∀ b ∈ rows, ∀ a' ∈ rows, ∀ b' ∈ rows, Widest cx.rowDominates rows a →
    Widest cx.rowDominates rows b → cx.rowEquivalent a a' = true → cx.rowEquivalent b b' = true →
    cx.rowEquivalent a b = false → Listed env cx a b → ¬Listed env cx b' a'

/-- The rows arrive and are never too many. -/
def WithinBudget (cx : TyCtx) (order : List ActivationInputRow) : Prop :=
  Within cx.rowEquivalent cx.rowDominates ACTIVATION_INPUT_ROW_BUDGET order

/-- Any two orders of arrival that stay within the budget give equivalent row sets. -/
def ArrivalIndependent (env : RowEnv) (types : Types) (rows : List ActivationInputRow) : Prop :=
  ∀ order order' : List ActivationInputRow, order.Perm rows → order'.Perm rows →
    WithinBudget types.cx order → WithinBudget types.cx order' →
    ∃ set s set' s', ActivationInputAlternatives.bottom.pushAll env order types = .ok (set, s) ∧
      ActivationInputAlternatives.bottom.pushAll env order' s = .ok (set', s') ∧
      set.equivalent s'.cx set' = true

section Independent

variable {env : RowEnv} {types : Types} {rows : List ActivationInputRow}

theorem exists_pushed (h : PlainRows types.cx rows) {order : List ActivationInputRow}
    (horder : order.Perm rows) (hwithin : WithinBudget types.cx order) {s : Types}
    (hext : types.cx.Extends s.cx) :
    ∃ set s', ActivationInputAlternatives.bottom.pushAll env order s = .ok (set, s') ∧
      types.cx.Extends s'.cx ∧ Pushed env types.cx rows order set :=
  (Pushed.bottom.wp_pushAll h (fun _ hr => horder.mem_iff.mp hr) hext hwithin).exists_ok

/-- The rows of a set are rows that arrived, an antichain, and cover all that arrived. -/
structure Pushed.Spans (cx : TyCtx) (rows : List ActivationInputRow)
    (set : ActivationInputAlternatives) : Prop where
  mem : ∀ r ∈ set.rows, r ∈ rows
  incomparable : set.rows.Pairwise (Incomparable cx.rowDominates)
  covers : ∀ r ∈ rows, ∃ s ∈ set.rows, cx.rowDominates r s = true

theorem Pushed.spans (h : PlainRows types.cx rows) {order : List ActivationInputRow}
    (horder : order.Perm rows) {set : ActivationInputAlternatives}
    (hset : Pushed env types.cx rows order set) : Pushed.Spans types.cx rows set where
  mem r hr := horder.mem_iff.mp (mem_of_mem_survivors (hset.survive.mem_iff.mp hr))
  incomparable := hset.survive.symm.pairwise (survivors_incomparable order)
    fun hab => ⟨hab.2, hab.1⟩
  covers r hr := by
    obtain ⟨s, hs, hrs⟩ := h.ordered.survivors_cover (fun r hr => horder.mem_iff.mp hr) r
      (horder.mem_iff.mpr hr)
    exact ⟨s, hset.survive.mem_iff.mpr hs, hrs⟩

theorem equivalent_iff (h : PlainRows types.cx rows) {set set' : ActivationInputAlternatives}
    (hset : ∀ r ∈ set.rows, r ∈ rows) (hset' : ∀ r ∈ set'.rows, r ∈ rows) {cx : TyCtx}
    (hext : types.cx.Extends cx) : set.equivalent cx set' = true ↔
      List.Forall₂ (Mutual types.cx.rowDominates) set.rows set'.rows := by
  have hrow : ∀ {a b : ActivationInputRow}, a ∈ set.rows → b ∈ set'.rows →
      (cx.rowEquivalent a b = true ↔ Mutual types.cx.rowDominates a b) := fun ha hb => by
    rw [hext.rowEquivalent_eq (h.known _ (hset _ ha)) (h.known _ (hset' _ hb)),
      h.equivalent_iff (hset _ ha) (hset' _ hb)]
  unfold ActivationInputAlternatives.equivalent
  rw [Bool.and_eq_true, decide_eq_true_iff, List.all_eq_true, List.forall₂_iff_zip]
  refine and_congr_right fun _ => ⟨fun hall a b hab => ?_, fun hall p hp => ?_⟩
  · obtain ⟨ha, hb⟩ := List.of_mem_zip hab
    exact (hrow ha hb).mp (hall _ hab)
  · obtain ⟨ha, hb⟩ := List.of_mem_zip hp
    exact (hrow ha hb).mpr (hall hp)

theorem Pushed.forall₂_mutual (h : PlainRows types.cx rows) (halike : ListedAlike env types.cx rows)
    {order order' : List ActivationInputRow} (horder : order.Perm rows) (horder' : order'.Perm rows)
    {set set' : ActivationInputAlternatives} (hset : Pushed env types.cx rows order set)
    (hset' : Pushed env types.cx rows order' set') :
    List.Forall₂ (Mutual types.cx.rowDominates) set.rows set'.rows := by
  have hord := h.ordered
  have hs := hset.spans h horder
  have hs' := hset'.spans h horder'
  have hmutual : ∀ {x y : ActivationInputAlternatives}, Spans types.cx rows x →
      Spans types.cx rows y → ∀ a ∈ x.rows, ∃ b ∈ y.rows, Mutual types.cx.rowDominates a b :=
    fun hx hy a ha => exists_mutual hx.incomparable
      (fun a ha b hb c hc => hord.trans a (hx.mem a ha) b (hy.mem b hb) c (hx.mem c hc))
      (fun a ha => hy.covers a (hx.mem a ha)) (fun b hb => hx.covers b (hy.mem b hb)) ha
  refine forall₂_of_sorted (Listed.total env types.cx) hset.sorted hset'.sorted
    (hord.nodup_of_incomparable hs.incomparable hs.mem)
    (hord.nodup_of_incomparable hs'.incomparable hs'.mem) (hmutual hs hs') (fun b hb => ?_)
    (fun a ha b hb b' hb' => hord.eq_of_mutual hs'.incomparable hs'.mem (hs.mem a ha) hb hb')
    (fun a ha b hb a' ha' b' hb' haa hbb hne hab => ?_)
  · obtain ⟨a, ha, hba⟩ := hmutual hs' hs b hb
    exact ⟨a, ha, hba.2, hba.1⟩
  · have hwidest : ∀ r ∈ set.rows, Widest types.cx.rowDominates rows r :=
      fun r hr => hord.widest_of_listed hs.incomparable hs.mem hs.covers hr
    refine halike a (hs.mem a ha) b (hs.mem b hb) a' (hs'.mem a' ha') b' (hs'.mem b' hb')
      (hwidest a ha) (hwidest b hb) ?_ ?_ ?_ hab
    · exact (h.equivalent_iff (hs.mem a ha) (hs'.mem a' ha')).mpr haa
    · exact (h.equivalent_iff (hs.mem b hb) (hs'.mem b' hb')).mpr hbb
    · rw [Bool.eq_false_iff, Ne, h.equivalent_iff (hs.mem a ha) (hs.mem b hb)]
      exact fun hmut => hne (eq_of_dominated hs.incomparable ha hb hmut.1)

theorem widest_of_equivalent (h : PlainRows types.cx rows) {a a' : ActivationInputRow}
    (ha : a ∈ rows) (ha' : a' ∈ rows) (hwide : Widest types.cx.rowDominates rows a)
    (heq : Mutual types.cx.rowDominates a a') : Widest types.cx.rowDominates rows a' := by
  have hord := h.ordered
  intro r hr har
  have hra := hwide r hr (hord.trans a ha a' ha' r hr heq.1 har)
  exact hord.trans r hr a ha a' ha' hra heq.1

theorem ArrivalIndependent.listedAlike (h : PlainRows types.cx rows)
    (hind : ArrivalIndependent env types rows) {within : List ActivationInputRow}
    (hperm : within.Perm rows) (hwithin : WithinBudget types.cx within) :
    ListedAlike env types.cx rows := by
  have hord := h.ordered
  intro a ha b hb a' ha' b' hb' hwa hwb haa hbb hne hab hba
  rw [h.equivalent_iff ha ha'] at haa
  rw [h.equivalent_iff hb hb'] at hbb
  rw [Bool.eq_false_iff, Ne, h.equivalent_iff ha hb] at hne
  have hwa' := widest_of_equivalent h ha ha' hwa haa
  have hwb' := widest_of_equivalent h hb hb' hwb hbb
  have hne' : ¬Mutual types.cx.rowDominates b' a' := fun hmut =>
    hne ⟨hord.trans a ha a' ha' b hb haa.1 (hord.trans a' ha' b' hb' b hb hmut.2 hbb.2),
      hord.trans b hb b' hb' a ha hbb.1 (hord.trans b' hb' a' ha' a ha hmut.1 haa.2)⟩
  obtain ⟨order, horder, hin, hfirst⟩ := hord.exists_within hperm hwithin ha hb hwa hwb hne
  obtain ⟨order', horder', hin', hfirst'⟩ := hord.exists_within hperm hwithin hb' ha' hwb' hwa' hne'
  obtain ⟨set, s, set', s', hrun, hrun', heq⟩ := hind order order' horder horder' hin hin'
  obtain ⟨_, _, hok, hext, hset⟩ := exists_pushed h horder hin List.prefix_rfl
  cases hok.symm.trans hrun
  obtain ⟨_, _, hok', hext', hset'⟩ := exists_pushed h horder' hin' hext
  cases hok'.symm.trans hrun'
  have hs := hset.spans h horder
  have hs' := hset'.spans h horder'
  have hpair := hset.leads a b hwa hwb (incomparable_of_widest ha hb hwa hwb hne) hab hfirst
  have hpair' := hset'.leads b' a' hwb' hwa' (incomparable_of_widest hb' ha' hwb' hwa' hne') hba
    hfirst'
  rw [equivalent_iff h hs.mem hs'.mem hext'] at heq
  obtain ⟨x, y, hxy, hax, hby⟩ := exists_pair_of_forall₂ heq hpair
  obtain rfl := hord.eq_of_mutual hs'.incomparable hs'.mem ha (hxy.subset (.head _))
    (hpair'.subset (.tail _ (.head _))) hax haa
  obtain rfl := hord.eq_of_mutual hs'.incomparable hs'.mem hb
    (hxy.subset (.tail _ (.head _))) (hpair'.subset (.head _)) hby hbb
  exact not_sublist_swap (hord.nodup_of_incomparable hs'.incomparable hs'.mem) hxy hpair'

theorem ListedAlike.arrivalIndependent (h : PlainRows types.cx rows)
    (halike : ListedAlike env types.cx rows) : ArrivalIndependent env types rows := by
  intro order order' horder horder' hin hin'
  obtain ⟨set, s, hrun, hext, hset⟩ := exists_pushed h horder hin List.prefix_rfl
  obtain ⟨set', s', hrun', hext', hset'⟩ := exists_pushed h horder' hin' hext
  refine ⟨set, s, set', s', hrun, hrun', ?_⟩
  rw [equivalent_iff h (hset.spans h horder).mem (hset'.spans h horder').mem hext']
  exact hset.forall₂_mutual h halike horder horder' hset'

end Independent

/-! ## Samples -/

section Samples

/-- The functions from one type to another. -/
def arrow (arg ret : Ty) : Conj ArrowSig := .posOf ⟨[arg], ret, none⟩

def arrows (clauses : List (Conj ArrowSig)) : Descr := { Descr.unbranded with funcs := clauses }

/-- The functions from integers to numbers, in two spellings, and functions that come between them
in the activation order. -/
def arrowTypes : Types where
  cx := {
    arena := [Descr.none, Descr.any, kind ⟨false, true, false⟩, kind ⟨false, false, true⟩,
      kind ⟨false, true, true⟩, arrows [arrow 2 4], arrows [arrow 2 2, arrow 2 4],
      arrows [arrow 2 3, arrow 3 4]]
    children_lt := by
      intro t d h s hs
      match t, h with
      | 0, h | 1, h | 2, h | 3, h | 4, h =>
        obtain rfl := Option.some.inj h
        exact nomatch hs
      | 5, h | 6, h | 7, h =>
        obtain rfl := Option.some.inj h
        revert s
        decide }
  none := 0
  any := 1
  none_eq := rfl
  any_eq := rfl

example : arrowTypes.cx.rowEquivalent [5] [6] = true := by decide

theorem arrowRows_below : ∀ a ∈ [[5], [7], [6]], ∀ b ∈ [[5], [7], [6]],
    arrowTypes.cx.RowBelow a b ↔ (a = [7] ↔ b = [7]) := by
  unfold TyCtx.RowBelow
  decide

theorem arrowRows_plain : PlainRows arrowTypes.cx [[5], [7], [6]] where
  known := by
    unfold TyCtx.KnowsRow
    decide
  ground := by decide
  literalFree := by decide
  arity := ⟨1, by decide⟩
  trans a ha b hb c hc hab hbc := by
    rw [arrowRows_below a ha b hb] at hab
    rw [arrowRows_below b hb c hc] at hbc
    rw [arrowRows_below a ha c hc]
    exact hab.trans hbc

theorem numberRows_plain : PlainRows rowTypes.cx [[2], [3], [5]] where
  known := by
    unfold TyCtx.KnowsRow
    decide
  ground := by decide
  literalFree := by decide
  arity := ⟨1, by decide⟩
  trans := by
    unfold TyCtx.RowBelow
    decide

end Samples

end Fz.Facts
