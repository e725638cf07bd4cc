import Fz.Types.AxisSound

/-!
# What a list clause denotes

A list clause says two things: whether it has `[]`, and which non-empty lists it has.  The
denotation the emptiness query computes for a clause states both exactly (`holds_listDenotation`),
so a clause may be rewritten to it.
-/

namespace Fz.Types

open Fz.Base

variable {cx : TyCtx} {calls : Calls}

/-- All the values are in a descriptor. -/
def Descr.AllIn (cx : TyCtx) (calls : Calls) (vs : List Val) (d : Descr) : Prop :=
  ∀ v ∈ vs, v ∈ d.meaning cx calls

/-- The lists of a denotation. -/
def ListDenotation.Holds (cx : TyCtx) (calls : Calls) (den : ListDenotation) : List Val → Prop
  | [] => den.holdsEmpty = true
  | v :: vs => ∃ ne, den.nonEmpty = some ne ∧ ne.elem.AllIn cx calls (v :: vs) ∧
      ∀ cut ∈ ne.minus, ¬cut.AllIn cx calls (v :: vs)

namespace ElemEvidence

theorem of_meet_allows {empty : Descr → Bool} {e : ElemEvidence} {s : ListSig} {v : Val}
    (h : (e.meet cx empty s.elem).Allows cx calls v) :
    e.Allows cx calls v ∧ v ∈ s.elems cx calls := by
  cases hs : s.elem with
  | none =>
    rw [hs] at h
    exact h.elim
  | some t =>
    rw [hs] at h
    have hin : ∀ d : Descr,
        (if empty d then ElemEvidence.empty else .inhabited d).Allows cx calls v →
        v ∈ d.meaning cx calls := by
      intro d hd
      split at hd
      · exact hd.elim
      · exact hd
    cases e with
    | unconstrained => exact ⟨trivial, t, hs, hin _ h⟩
    | empty => exact h.elim
    | inhabited prev =>
      obtain ⟨hprev, ht⟩ := Descr.meaning_intersect.mp (hin _ h)
      exact ⟨hprev, t, hs, ht⟩

theorem of_foldl_meet_allows {empty : Descr → Bool} {v : Val} (ps : List ListSig) :
    ∀ e : ElemEvidence, (ps.foldl (fun e p => e.meet cx empty p.elem) e).Allows cx calls v →
      e.Allows cx calls v ∧ ∀ p ∈ ps, v ∈ p.elems cx calls := by
  induction ps with
  | nil => exact fun e he => ⟨he, fun _ hp => nomatch hp⟩
  | cons p ps ih =>
    intro e he
    obtain ⟨hmeet, hps⟩ := ih _ he
    obtain ⟨hprev, hp⟩ := of_meet_allows hmeet
    exact ⟨hprev, List.forall_mem_cons.mpr ⟨hp, hps⟩⟩

theorem allows_of_mem_fragment {e : ElemEvidence} {d : Descr} (h : e.fragment = some d) {v : Val}
    (hv : v ∈ d.meaning cx calls) : e.Allows cx calls v := by
  cases e with
  | empty => exact nomatch h
  | unconstrained => trivial
  | inhabited d' =>
    cases h
    exact hv

theorem fragment_of_forall {Q : Descr → Prop} {empty : Descr → Bool}
    (hinter : ∀ a b, Q a → Q b → Q (a.intersect b)) (ps : List ListSig)
    (hps : ∀ p ∈ ps, ∀ t, p.elem = some t → Q (cx.descr t)) :
    ∀ e : ElemEvidence, (∀ d, e.fragment = some d → Q d) →
      ∀ d, (ps.foldl (fun e p => e.meet cx empty p.elem) e).fragment = some d → Q d := by
  induction ps with
  | nil => exact fun e he => he
  | cons p ps ih =>
    intro e he
    refine ih (fun q hq => hps q (.tail _ hq)) _ fun d hd => ?_
    dsimp only at hd
    have hnext : ∀ next, Q next →
        (if empty next then ElemEvidence.empty else .inhabited next).fragment = some d → Q d := by
      intro next hq hfrag
      split at hfrag
      · exact nomatch hfrag
      · cases hfrag
        exact hq
    cases hp : p.elem with
    | none =>
      rw [hp] at hd
      exact nomatch hd
    | some t =>
      rw [hp] at hd
      have ht := hps p (.head _) t hp
      cases e with
      | unconstrained => exact hnext _ ht hd
      | empty => exact nomatch hd
      | inhabited prev => exact hnext _ (hinter _ _ (he prev rfl) ht) hd

end ElemEvidence

section Cuts

variable {empty : Descr → Bool} {elem : Descr}

theorem cuts_of_forall {Q : Descr → Prop} (hinter : ∀ a b, Q a → Q b → Q (a.intersect b))
    (helem : Q elem) (ns : List ListSig) (hns : ∀ n ∈ ns, ∀ t, n.elem = some t → Q (cx.descr t)) :
    ∀ minus, (∀ cut ∈ minus, Q cut) → ∀ minus', listCuts cx empty elem ns minus = some minus' →
      ∀ cut ∈ minus', Q cut := by
  induction ns with
  | nil =>
    intro minus hminus minus' h
    cases h
    exact hminus
  | cons n ns ih =>
    intro minus hminus minus' h
    have hrest := ih fun m hm => hns m (.tail _ hm)
    rw [listCuts] at h
    cases hn : n.elem with
    | none =>
      rw [hn] at h
      exact hrest minus hminus minus' h
    | some t =>
      rw [hn] at h
      dsimp only at h
      split at h
      · exact hrest minus hminus minus' h
      split at h
      · cases h
      · refine hrest _ (fun cut hcut => ?_) minus' h
        split at hcut
        · exact hminus cut hcut
        · rcases List.mem_append.mp hcut with hcut | hcut
          · exact hminus cut hcut
          · rw [List.mem_singleton.mp hcut]
            exact hinter _ _ helem (hns n (.head _) t hn)

/-- The cuts are what the negative factors take from the lists over `elem`. -/
theorem listCuts_spec {r : Nat} (hs : SoundBelow cx calls r empty) (helem : Below cx calls r elem)
    (ns : List ListSig) (hns : ∀ n ∈ ns, ∀ t, n.elem = some t → Below cx calls r (cx.descr t))
    {v : Val} {vs : List Val} (hall : elem.AllIn cx calls (v :: vs)) :
    ∀ minus minus', listCuts cx empty elem ns minus = some minus' →
      ((∀ cut ∈ minus', ¬cut.AllIn cx calls (v :: vs)) ↔
        (∀ cut ∈ minus, ¬cut.AllIn cx calls (v :: vs)) ∧
          ∀ n ∈ ns, ¬∀ w ∈ v :: vs, w ∈ n.elems cx calls) := by
  induction ns with
  | nil =>
    intro minus minus' h
    cases h
    simp
  | cons n ns ih =>
    intro minus minus' h
    have hrest := ih fun m hm => hns m (.tail _ hm)
    rw [listCuts] at h
    rw [List.forall_mem_cons]
    cases hn : n.elem with
    | none =>
      have hnone : ¬∀ w ∈ v :: vs, w ∈ n.elems cx calls := by
        intro hn'
        obtain ⟨t, ht, -⟩ := hn' v (.head _)
        cases hn.symm.trans ht
      rw [hn] at h
      rw [hrest minus minus' h, and_iff_right hnone]
    | some t =>
      rw [hn] at h
      dsimp only at h
      have hlow := hns n (.head _) t hn
      -- inside the element type, the factor and its cut say the same
      have hcut : (elem.intersect (cx.descr t)).AllIn cx calls (v :: vs) ↔
          ∀ w ∈ v :: vs, w ∈ n.elems cx calls := by
        refine forall₂_congr fun w hw => ?_
        rw [Descr.meaning_intersect, and_iff_right (hall w hw)]
        constructor
        · exact fun hw => ⟨t, hn, hw⟩
        · rintro ⟨t', ht', hw'⟩
          cases hn.symm.trans ht'
          exact hw'
      split at h
      · rename_i hempty
        have hnone : ¬∀ w ∈ v :: vs, w ∈ n.elems cx calls := by
          rw [← hcut]
          exact fun hin => hs _ (helem.intersect hlow) hempty v (hin v (.head _))
        rw [hrest minus minus' h, and_iff_right hnone]
      split at h
      · cases h
      · rw [hrest _ minus' h, ← hcut]
        split
        · rename_i hmem
          constructor
          · rintro ⟨hminus, hns⟩
            exact ⟨hminus, hminus _ hmem, hns⟩
          · rintro ⟨hminus, -, hns⟩
            exact ⟨hminus, hns⟩
        · simp only [List.forall_mem_append, List.forall_mem_singleton, and_assoc]

end Cuts

/-- A denotation has exactly the lists of its clause. -/
theorem holds_listDenotation (W : World cx) {c : Conj ListSig} {den : ListDenotation}
    (h : listDenotation cx (Descr.isEmpty cx) c = some den) (vs : List Val) :
    den.Holds cx W.calls vs ↔ c.Holds ( ListSig.Holds (cx.meaning W.calls) vs) := by
  have hs := W.soundBelow (cx.arena.length + 1)
  have hbelow : ∀ s : ListSig, ∀ t, s.elem = some t →
      Below cx W.calls (cx.arena.length + 1) (cx.descr t) := fun _ t _ => W.below t
  obtain ⟨hat, hallows⟩ := ElemEvidence.foldl_meet_allows hs c.pos (fun p _ => hbelow p)
    .unconstrained trivial
  have hback : ∀ w, (c.pos.foldl (fun (e : ElemEvidence) p => e.meet cx (Descr.isEmpty cx) p.elem)
      .unconstrained).Allows cx W.calls w → _ := fun w =>
    ElemEvidence.of_foldl_meet_allows c.pos .unconstrained
  rw [ listDenotation] at h
  generalize c.pos.foldl (fun (e : ElemEvidence) p => e.meet cx (Descr.isEmpty cx) p.elem)
    .unconstrained = e at *
  -- `[]` is a matter of the flags
  have hempty : den.holdsEmpty = clauseHoldsEmpty c := by
    split at h
    · split at h
      · rename_i hholds
        cases h
        exact hholds.symm
      · cases h
    · split at h
      · split at h
        · rename_i hholds
          cases h
          exact hholds.symm
        · cases h
      · cases h
        rfl
  cases vs with
  | nil =>
    show den.holdsEmpty = true ↔ _
    rw [hempty, clauseHoldsEmpty_iff_holds]
  | cons v vs =>
    simp only [ ListDenotation.Holds, Conj.Holds, ListSig.holds_cons_iff]
    have hpos : ∀ elem, e.fragment = some elem → (elem.AllIn cx W.calls (v :: vs) ↔
        ∀ p ∈ c.pos, ∀ w ∈ v :: vs, w ∈ p.elems cx W.calls) := by
      intro elem hfrag
      constructor
      · intro hall p hp w hw
        exact (hback w (ElemEvidence.allows_of_mem_fragment hfrag (hall w hw))).2 p hp
      · intro hps w hw
        exact ElemEvidence.mem_of_fragment hfrag (hallows w trivial fun p hp => hps p hp w hw)
    split at h
    · -- no element is left
      rename_i hfrag
      have hno : den.nonEmpty = none := by
        split at h
        · cases h
          rfl
        · cases h
      constructor
      · rintro ⟨ne, hne, -⟩
        cases hno.symm.trans hne
      · rintro ⟨hps, -⟩
        obtain ⟨d, hd, -⟩ := ElemEvidence.fragment_of_allows hat
          (hallows v trivial fun p hp => hps p hp v (.head _))
        cases hfrag.symm.trans hd
    · rename_i elem hfrag
      have helem : Below cx W.calls (cx.arena.length + 1) elem := by
        cases e with
        | empty => cases hfrag
        | unconstrained =>
          cases hfrag
          exact Below.any (Nat.succ_pos _)
        | inhabited d =>
          cases hfrag
          exact hat
      split at h
      · -- one negative factor takes all elements
        rename_i hcuts
        have hno : den.nonEmpty = none := by
          split at h
          · cases h
            rfl
          · cases h
        obtain ⟨n, hn, hcov⟩ := listCuts_eq_none hs (fun _ => helem) c.neg (fun n _ => hbelow n) []
          hcuts
        constructor
        · rintro ⟨ne, hne, -⟩
          cases hno.symm.trans hne
        · rintro ⟨hps, hns⟩
          exact (hns n hn fun w hw => hcov w ((hpos elem hfrag).mpr hps w hw)).elim
      · rename_i minus hcuts
        cases h
        have hspec := fun (hall : ∀ w ∈ v :: vs, _) =>
          listCuts_spec hs helem c.neg (fun n _ => hbelow n) hall [] minus hcuts
        constructor
        · rintro ⟨ne, hne, hall, hminus⟩
          cases hne
          exact ⟨(hpos elem hfrag).mp hall, ((hspec hall).mp hminus).2⟩
        · rintro ⟨hps, hns⟩
          have hall := (hpos elem hfrag).mpr hps
          exact ⟨_, rfl, hall, (hspec hall).mpr ⟨fun _ h => (by cases h), hns⟩⟩

theorem listDenotation_of_forall {Q : Descr → Prop} {empty : Descr → Bool}
    (hinter : ∀ a b, Q a → Q b → Q (a.intersect b)) (hany : Q .any) {c : Conj ListSig}
    (hc : ∀ s, s ∈ c.pos ∨ s ∈ c.neg → ∀ t, s.elem = some t → Q (cx.descr t))
    {den : ListDenotation} (h : listDenotation cx empty c = some den) {ne : NonEmptyLists}
    (hne : den.nonEmpty = some ne) : Q ne.elem ∧ ∀ cut ∈ ne.minus, Q cut := by
  rw [ listDenotation] at h
  have hjust : ∀ {b : Bool}, (if b = true then some ( ListDenotation.mk true none) else none) =
      some den → False := by
    intro b hb
    split at hb
    · cases hb
      cases hne
    · cases hb
  split at h
  · exact (hjust h).elim
  · rename_i elem hfrag
    have helem : Q elem := ElemEvidence.fragment_of_forall hinter c.pos
      (fun p hp => hc p (.inl hp)) .unconstrained
      (fun d hd => by cases hd; exact hany) elem hfrag
    split at h
    · exact (hjust h).elim
    · rename_i minus hcuts
      cases h
      cases hne
      exact ⟨helem, cuts_of_forall hinter helem c.neg (fun n hn => hc n (.inr hn)) []
        (fun _ h => by cases h) minus hcuts⟩

theorem holdsEmpty_of_listDenotation {empty : Descr → Bool} {c : Conj ListSig}
    {den : ListDenotation} (h : listDenotation cx empty c = some den)
    (hne : den.nonEmpty = none) : den.holdsEmpty = true := by
  have hjust : ∀ {b : Bool}, (if b = true then some ( ListDenotation.mk true none) else none) =
      some den → den.holdsEmpty = true := by
    intro b hb
    split at hb
    · cases hb
      rfl
    · cases hb
  rw [ listDenotation] at h
  split at h
  · exact hjust h
  · split at h
    · exact hjust h
    · cases h
      cases hne

end Fz.Types
