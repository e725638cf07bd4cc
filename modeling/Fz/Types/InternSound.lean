import Fz.Base.List
import Fz.Base.Wp
import Fz.Types.CarveSound
import Fz.Types.Intern
import Fz.Types.ListNormal
import Fz.Types.ValueDisjoint

/-!
# Interning and meaning

The arena only grows, and a type keeps its meaning in a larger arena.  So all the steps of a run can
be read in the arena it ends in (`InFinal`), and a run keeps the values of a descriptor if each of
its steps does.  Sorting, dropping, absorbing and the list normal form always do.  Fusion and the
tuple difference compute a coordinate by a join or a difference of descriptors, which may have more
values than it should; a run keeps the values when these were exact (`Rewrite.exact`).

Interning never fails on a descriptor of the store.  What it interns on the way has smaller depth
(`Depth`), where a coordinate `any` counts for nothing: normalisation may write `[any]` where no
type was named before.
-/

set_option linter.dupNamespace false

namespace Fz.Types

open Fz.Base

/-! ## Larger arenas -/

namespace TyCtx

/-- The arena has all descriptors of another one, at their places. -/
def Extends (cx cx' : TyCtx) : Prop := cx.arena <+: cx'.arena

variable {cx cx' : TyCtx} {calls : Calls}

theorem Extends.trans {cx'' : TyCtx} (h : cx.Extends cx') (h' : cx'.Extends cx'') :
    cx.Extends cx'' := List.IsPrefix.trans h h'

theorem Extends.length_le (h : cx.Extends cx') : cx.arena.length ≤ cx'.arena.length :=
  List.IsPrefix.length_le h

theorem Extends.descr_eq (h : cx.Extends cx') {t : Ty} (ht : t < cx.arena.length) :
    cx'.descr t = cx.descr t := by
  obtain ⟨more, hmore⟩ := h
  rw [descr, descr, ← hmore, List.getD_eq_getElem?_getD, List.getElem?_append_left ht,
    List.getD_eq_getElem?_getD]

/-- The types a descriptor names are in the arena. -/
def Knows (cx : TyCtx) (d : Descr) : Prop := d.EachSig (.naming (· < cx.arena.length))

theorem knows_iff {d : Descr} : cx.Knows d ↔ ∀ t ∈ d.children, t < cx.arena.length :=
  Descr.eachChild_iff_eachSig.symm

theorem Knows.of_extends {d : Descr} (hd : cx.Knows d) (h : cx.Extends cx') : cx'.Knows d :=
  knows_iff.mpr fun t ht => Nat.lt_of_lt_of_le (knows_iff.mp hd t ht) h.length_le

theorem knows_descr (cx : TyCtx) (t : Ty) : cx.Knows (cx.descr t) := by
  rw [knows_iff]
  intro s hs
  rcases Nat.lt_or_ge t cx.arena.length with ht | ht
  · have hget : cx.arena[t]? = some (cx.descr t) := by
      rw [descr, List.getD_eq_getElem?_getD, List.getElem?_eq_getElem ht]
      rfl
    exact Nat.lt_trans (cx.children_lt t _ hget s hs) ht
  · rw [cx.descr_of_ge ht] at hs
    cases hs

theorem Extends.meaning_descr (h : cx.Extends cx') : ∀ (n : Nat) (d : Descr), d.rank < n →
    cx.Knows d → d.meaning cx' calls = d.meaning cx calls := by
  intro n
  induction n with
  | zero => exact fun _ hn => absurd hn (Nat.not_lt_zero _)
  | succ n ih =>
    intro d hn hd
    ext v
    rw [Descr.mem_meaning, Descr.mem_meaning]
    refine Descr.mem_congr (fun t ht => ?_) v
    have hrank := Descr.rank_descr_lt cx ht
    show (cx'.descr t).meaning cx' calls = (cx.descr t).meaning cx calls
    rw [h.descr_eq (knows_iff.mp hd t ht)]
    exact ih _ (by omega) (cx.knows_descr t)

theorem Extends.meaning_eq (h : cx.Extends cx') {d : Descr} (hd : cx.Knows d) :
    d.meaning cx' calls = d.meaning cx calls :=
  h.meaning_descr _ d (Nat.lt_succ_self _) hd

theorem Extends.meaning_ty (h : cx.Extends cx') {t : Ty} (ht : t < cx.arena.length) :
    cx'.meaning calls t = cx.meaning calls t := by
  show (cx'.descr t).meaning cx' calls = _
  rw [h.descr_eq ht]
  exact h.meaning_eq (cx.knows_descr t)

theorem Extends.honest_iff (h : cx.Extends cx') {s : ArrowSig}
    (hs : (SigPred.naming (· < cx.arena.length)).arrow s) :
    Honest cx' calls s ↔ Honest cx calls s := by
  obtain ⟨hret, hargs, hlit⟩ := hs
  refine forall₂_congr fun l hl => forall₂_congr fun f captures => ?_
  have hcaps := listProd_map_congr (M := cx'.meaning calls)
    fun t ht => h.meaning_ty (hlit l hl t ht)
  have hin := listProd_map_congr (M := cx'.meaning calls)
    fun t ht => h.meaning_ty (hargs t ht)
  simp only [ClosureLit.Holds, ArrowSig.Maps, hcaps, hin, h.meaning_ty hret]

theorem Extends.each_honest_iff (h : cx.Extends cx') {d : Descr} (hd : cx.Knows d) :
    Each (Honest cx' calls) d.funcs ↔ Each (Honest cx calls) d.funcs := by
  refine forall₂_congr fun c hc => and_congr ?_ ?_
  · exact forall₂_congr fun s hs => h.honest_iff ((hd.funcs c hc).1 s hs)
  · exact forall₂_congr fun s hs => h.honest_iff ((hd.funcs c hc).2 s hs)

end TyCtx

variable {cx cx' : TyCtx} {calls : Calls}

/-- A world of a larger arena is one of the smaller arena. -/
def World.restrict (W : World cx') (h : cx.Extends cx') : World cx where
  calls := W.calls
  honest := by
    intro t
    rw [← h.each_honest_iff (cx.knows_descr t)]
    rcases Nat.lt_or_ge t cx.arena.length with ht | ht
    · rw [← h.descr_eq ht]
      exact W.honest t
    · rw [cx.descr_of_ge ht]
      exact fun _ h => nomatch h

/-- The sides of a step name types of the arena. -/
def Rewrite.Known (cx : TyCtx) : Rewrite → Prop
  | join a b => cx.Knows a ∧ cx.Knows b
  | cut a b => cx.Knows a ∧ cx.Knows b

theorem Rewrite.Sound.of_extends {r : Rewrite} (hr : r.Known cx) (h : cx.Extends cx')
    (hs : r.Sound cx' calls) : r.Sound cx calls := by
  cases r with
  | join a b =>
    obtain ⟨ha, hb⟩ := hr
    have hab : cx.Knows (a.union b) := ha.union hb
    simpa only [Sound, h.meaning_eq ha, h.meaning_eq hb, h.meaning_eq hab] using hs
  | cut a b =>
    obtain ⟨ha, hb⟩ := hr
    have hab : cx.Knows (a.diff b) := ha.diff hb
    simpa only [Sound, h.meaning_eq hb, h.meaning_eq hab] using hs

/-! ## Depth -/

/-- A descriptor of depth `n` names types of the arena of smaller depth; only `any` has depth 0. -/
def Depth (cx : TyCtx) : Nat → Descr → Prop
  | 0, d => d = Descr.any
  | n + 1, d => d.EachSig (.naming fun t => t < cx.arena.length ∧ Depth cx n (cx.descr t))

/-- The type is in the arena and has a depth. -/
abbrev TyDepth (cx : TyCtx) (n : Nat) (t : Ty) : Prop :=
  t < cx.arena.length ∧ Depth cx n (cx.descr t)

namespace Descr.EachSig

variable {P Q : Ty → Prop} {d : Descr}

theorem naming_mono (h : ∀ t, P t → Q t) (hd : d.EachSig (.naming P)) : d.EachSig (.naming Q) :=
  eachChild_iff_eachSig.mp fun t ht => h t (eachChild_iff_eachSig.mpr hd t ht)

end Descr.EachSig

namespace Depth

theorem any : ∀ n : Nat, Depth cx n Descr.any
  | 0 => rfl
  | _ + 1 => Descr.EachSig.any

theorem union {n : Nat} {a b : Descr} (ha : Depth cx n a) (hb : Depth cx n b) :
    Depth cx n (a.union b) := by
  cases n with
  | zero =>
    rw [ha, hb]
    rfl
  | succ n => exact Descr.EachSig.union ha hb

theorem none_union {n : Nat} {d : Descr} (h : Depth cx n d) : Depth cx n (Descr.none.union d) := by
  cases n with
  | zero =>
    rw [h]
    rfl
  | succ n => exact Descr.EachSig.union Descr.EachSig.none h

theorem intersect {n : Nat} {a b : Descr} (ha : Depth cx n a) (hb : Depth cx n b) :
    Depth cx n (a.intersect b) := by
  cases n with
  | zero =>
    rw [ha, hb]
    rfl
  | succ n => exact Descr.EachSig.intersect ha hb

theorem knows {n : Nat} {d : Descr} (h : Depth cx n d) : cx.Knows d := by
  cases n with
  | zero =>
    rw [h]
    exact Descr.EachSig.any
  | succ n => exact Descr.EachSig.naming_mono (fun _ ht => ht.1) h

theorem of_extends (h : cx.Extends cx') : ∀ {n : Nat} {d : Descr},
    Depth cx n d → Depth cx' n d := by
  intro n
  induction n with
  | zero => exact fun hd => hd
  | succ n ih =>
    intro d hd
    refine Descr.EachSig.naming_mono (fun t ht => ?_) hd
    refine ⟨Nat.lt_of_lt_of_le ht.1 h.length_le, ?_⟩
    rw [h.descr_eq ht.1]
    exact ih ht.2

theorem of_knows : ∀ {n : Nat} {d : Descr}, cx.Knows d → d.rank ≤ n → Depth cx (n + 1) d := by
  intro n
  induction n with
  | zero =>
    intro d _ hrank
    rw [Descr.rank_le_iff_eachSig] at hrank
    exact Descr.EachSig.naming_mono (fun t ht => absurd ht (Nat.not_lt_zero t)) hrank
  | succ n ih =>
    intro d hd hrank
    refine Descr.eachChild_iff_eachSig.mp fun t ht => ⟨TyCtx.knows_iff.mp hd t ht, ?_⟩
    refine ih (cx.knows_descr t) ?_
    have := Descr.rank_descr_lt cx ht
    omega

end Depth

theorem TyDepth.of_extends {n : Nat} {t : Ty} (h : cx.Extends cx') (ht : TyDepth cx n t) :
    TyDepth cx' n t := by
  refine ⟨Nat.lt_of_lt_of_le ht.1 h.length_le, ?_⟩
  rw [h.descr_eq ht.1]
  exact ht.2.of_extends h

/-! ## Runs -/

/-- Every arrow of an arena has a property. -/
def EachArrow (Q : ArrowSig → Prop) (cx : TyCtx) : Prop := ∀ t, Each Q (cx.descr t).funcs

/-- A descriptor whose arrows are in the arena, as it is for meets, joins and differences of its
types. -/
def FromArena (cx : TyCtx) (d : Descr) : Prop := ∀ Q, EachArrow Q cx → Each Q d.funcs

namespace FromArena

theorem descr (cx : TyCtx) (t : Ty) : FromArena cx (cx.descr t) := fun _ h => h t

theorem any (cx : TyCtx) : FromArena cx Descr.any := fun Q _ =>
  (Descr.EachSig.any (P := .onArrow Q)).funcs

variable {a b : Descr}

theorem union (ha : FromArena cx a) (hb : FromArena cx b) : FromArena cx (a.union b) := fun Q h =>
  (Descr.EachSig.union (Descr.eachSig_onArrow_iff.mpr (ha Q h))
    (Descr.eachSig_onArrow_iff.mpr (hb Q h))).funcs

theorem none_union (hb : FromArena cx b) : FromArena cx (Descr.none.union b) := fun Q h =>
  (Descr.EachSig.union Descr.EachSig.none (Descr.eachSig_onArrow_iff.mpr (hb Q h))).funcs

theorem intersect (ha : FromArena cx a) (hb : FromArena cx b) : FromArena cx (a.intersect b) :=
  fun Q h => (Descr.EachSig.intersect (Descr.eachSig_onArrow_iff.mpr (ha Q h))
    (Descr.eachSig_onArrow_iff.mpr (hb Q h))).funcs

theorem diff (ha : FromArena cx a) (hb : FromArena cx b) : FromArena cx (a.diff b) := fun Q h =>
  (Descr.EachSig.diff (Descr.eachSig_onArrow_iff.mpr (ha Q h))
    (Descr.eachSig_onArrow_iff.mpr (hb Q h))).funcs

theorem honest {d : Descr} (h : FromArena cx d) (hcx : cx.Extends cx') (W : World cx') :
    Each (Honest cx' W.calls) d.funcs := by
  refine h _ fun t => ?_
  rcases Nat.lt_or_ge t cx.arena.length with ht | ht
  · rw [← hcx.descr_eq ht]
    exact W.honest t
  · rw [cx.descr_of_ge ht]
    exact fun _ h => nomatch h

end FromArena

theorem FromArena.of_extends {d : Descr} (h : FromArena cx d) (hcx : cx.Extends cx') :
    FromArena cx' d := by
  intro Q hQ
  refine h Q fun t => ?_
  rcases Nat.lt_or_ge t cx.arena.length with ht | ht
  · rw [← hcx.descr_eq ht]
    exact hQ t
  · rw [cx.descr_of_ge ht]
    exact fun _ h => nomatch h

/-- The sides of a step come from the arena. -/
def Rewrite.FromArena (cx : TyCtx) : Rewrite → Prop
  | join a b => Types.FromArena cx a ∧ Types.FromArena cx b
  | cut a b => Types.FromArena cx a ∧ Types.FromArena cx b

theorem Rewrite.FromArena.of_extends {r : Rewrite} (h : r.FromArena cx) (hcx : cx.Extends cx') :
    r.FromArena cx' := by
  cases r with
  | join a b => exact ⟨Types.FromArena.of_extends h.1 hcx, Types.FromArena.of_extends h.2 hcx⟩
  | cut a b => exact ⟨Types.FromArena.of_extends h.1 hcx, Types.FromArena.of_extends h.2 hcx⟩

theorem Rewrite.FromArena.honest {r : Rewrite} (h : r.FromArena cx) (W : World cx) :
    r.Honest cx W.calls := by
  cases r with
  | join a b =>
    exact ⟨⟨Descr.eachSig_onArrow_iff.mpr (h.1 _ W.honest), W.honest⟩,
      ⟨Descr.eachSig_onArrow_iff.mpr (h.2 _ W.honest), W.honest⟩⟩
  | cut a b =>
    exact ⟨⟨Descr.eachSig_onArrow_iff.mpr (h.1 _ W.honest), W.honest⟩,
      ⟨Descr.eachSig_onArrow_iff.mpr (h.2 _ W.honest), W.honest⟩⟩

/-- A later store of a run: larger, and without arrows other than the earlier ones and `funcs`. -/
structure Grows (funcs : List (Conj ArrowSig)) (s s' : Interning) : Prop where
  extends_ : s.cx.Extends s'.cx
  none_eq : s'.none = s.none
  rewrites : ∀ r ∈ s.rewrites, r ∈ s'.rewrites
  steps : ∀ r ∈ s'.rewrites, r ∈ s.rewrites ∨ r.FromArena s'.cx
  arrows : ∀ Q, Each Q funcs → EachArrow Q s.cx → EachArrow Q s'.cx

namespace Grows

variable {funcs : List (Conj ArrowSig)} {s s' s'' : Interning}

theorem refl (s : Interning) : Grows funcs s s :=
  ⟨List.prefix_rfl, rfl, fun _ h => h, fun _ h => .inl h, fun _ _ h => h⟩

theorem trans (h : Grows funcs s s') (h' : Grows funcs s' s'') : Grows funcs s s'' where
  extends_ := h.extends_.trans h'.extends_
  none_eq := h'.none_eq.trans h.none_eq
  rewrites r hr := h'.rewrites r (h.rewrites r hr)
  steps r hr := by
    rcases h'.steps r hr with hr | hr
    · exact (h.steps r hr).imp id fun hfrom => hfrom.of_extends h'.extends_
    · exact .inr hr
  arrows Q hf hs := h'.arrows Q hf (h.arrows Q hf hs)

theorem of_arena (h : Grows funcs s s') (hf : ∀ Q, EachArrow Q s.cx → Each Q funcs) :
    Grows [] s s' where
  extends_ := h.extends_
  none_eq := h.none_eq
  rewrites := h.rewrites
  steps := h.steps
  arrows Q _ hs := h.arrows Q (hf Q hs) hs

theorem weaken (h : Grows [] s s') : Grows funcs s s' where
  extends_ := h.extends_
  none_eq := h.none_eq
  rewrites := h.rewrites
  steps := h.steps
  arrows Q _ hs := h.arrows Q (fun _ hc => nomatch hc) hs

theorem record (s : Interning) {steps : List Rewrite} (h : ∀ r ∈ steps, r.FromArena s.cx) :
    Grows [] s (s.record steps) where
  extends_ := List.prefix_rfl
  none_eq := rfl
  rewrites _ hr := List.mem_append_left _ hr
  steps r hr := (List.mem_append.mp hr).imp id (h r)
  arrows _ _ hs := hs

end Grows

/-- A fact about the arena a run ends in, in any world where the coordinates computed up to `s` have
the values they stand for. -/
def InFinal (s : Interning) (R : ∀ cx, World cx → Prop) : Prop :=
  ∀ cx, s.cx.Extends cx → ∀ W : World cx, (∀ r ∈ s.rewrites, r.Sound cx W.calls) → R cx W

theorem InFinal.grows {funcs : List (Conj ArrowSig)} {s s' : Interning} {R : ∀ cx, World cx → Prop}
    (h : InFinal s R) (hg : Grows funcs s s') : InFinal s' R :=
  fun cx hcx W hW => h cx (hg.extends_.trans hcx) W fun r hr =>
    hW r (hg.rewrites r hr)

/-- What interning a descriptor of depth `n` comes to. -/
structure Interned (n : Nat) (s : Interning) (d : Descr) (t : Ty) (s' : Interning) : Prop where
  grows : Grows d.funcs s s'
  depth : TyDepth s'.cx n t
  meaning : InFinal s' fun cx W => Each (Honest cx W.calls) d.funcs →
    ∀ v, v ∈ cx.meaning W.calls t ↔ v ∈ d.meaning cx W.calls

/-- A function that interns the descriptors of depth `n`. -/
def Interns (n : Nat) (intern : Descr → InternM Ty) : Prop :=
  ∀ (s : Interning) (d : Descr), Depth s.cx n d → wp (intern d) (Interned n s d) (fun _ => False) s

/-- Interning a part that comes from the arena. -/
structure InternedPart (n : Nat) (d : Descr) (t : Ty) (s' : Interning) : Prop where
  depth : TyDepth s'.cx n t
  meaning : InFinal s' fun cx W => ∀ v, v ∈ cx.meaning W.calls t ↔ v ∈ d.meaning cx W.calls

theorem InternedPart.of_grows {n : Nat} {d : Descr} {t : Ty} {s s' : Interning}
    (h : InternedPart n d t s) (hg : Grows [] s s') : InternedPart n d t s' :=
  ⟨h.depth.of_extends hg.extends_, h.meaning.grows hg⟩

theorem Interns.part {n : Nat} {intern : Descr → InternM Ty} (hI : Interns n intern)
    {s : Interning} {d : Descr} (hd : Depth s.cx n d) (hfrom : FromArena s.cx d) :
    wp (intern d) (fun t s' => Grows [] s s' ∧ InternedPart n d t s') (fun _ => False) s := by
  refine (hI s d hd).imp fun t s' h => ⟨h.grows.of_arena hfrom, h.depth, ?_⟩
  intro cx hcx W hW
  exact h.meaning cx hcx W hW
    (hfrom.honest (h.grows.extends_.trans hcx) W)

/-! ## Tuples -/

theorem Interning.meaning_none (s : Interning) {cx : TyCtx} (hcx : s.cx.Extends cx)
    (W : World cx) (v : Val) : v ∉ cx.meaning W.calls s.none := by
  have hlt := (List.getElem?_eq_some_iff.mp s.none_eq).1
  have hdescr : s.cx.descr s.none = Descr.none := by
    rw [TyCtx.descr, List.getD_eq_getElem?_getD, s.none_eq, Option.getD_some]
  intro hv
  have hmem : (cx.descr s.none).Mem W.calls (cx.meaning W.calls) v := Descr.mem_meaning.mp hv
  rw [hcx.descr_eq hlt, hdescr] at hmem
  exact Descr.not_mem_of_looksEmpty rfl v hmem

/-- A type that stands for the difference of two others. -/
structure DifferenceOf (n : Nat) (a b t : Ty) (s' : Interning) : Prop where
  depth : TyDepth s'.cx n t
  meaning : InFinal s' fun cx W => ∀ v, v ∈ cx.meaning W.calls t ↔
    v ∈ cx.meaning W.calls a ∧ v ∉ cx.meaning W.calls b

section Tuples

variable {n : Nat} {intern : Descr → InternM Ty}

variable {s : Interning}

theorem wp_difference (hI : Interns n intern) {a b : Ty} (ha : TyDepth s.cx n a)
    (hb : TyDepth s.cx n b) (hsub : s.cx.isSubtype a b = false) :
    wp (difference intern a b) (fun t s' => Grows [] s s' ∧ DifferenceOf n a b t s')
      (fun _ => False) s := by
  -- two types of depth 0 are `any`, so one is below the other
  obtain ⟨m, rfl⟩ : ∃ m, n = m + 1 := by
    cases n with
    | zero =>
      have hany : (Descr.any.diff Descr.any).isEmpty s.cx = true := rfl
      rw [TyCtx.isSubtype, Descr.isSubtype, show s.cx.descr a = Descr.any from ha.2,
        show s.cx.descr b = Descr.any from hb.2, hany, Bool.or_true] at hsub
      cases hsub
    | succ m => exact ⟨m, rfl⟩
  have hnone : TyDepth s.cx (m + 1) s.none := by
    refine ⟨(List.getElem?_eq_some_iff.mp s.none_eq).1, ?_⟩
    rw [TyCtx.descr, List.getD_eq_getElem?_getD, s.none_eq, Option.getD_some]
    exact Descr.EachSig.none
  rw [difference, wp_bind, wp_get]
  split
  · rename_i heq
    rw [TyCtx.isSubtype, heq, decide_eq_true rfl, Bool.true_or] at hsub
    cases hsub
  split
  · rename_i heq
    refine ⟨.refl s, hnone, fun cx hcx W _ v => ?_⟩
    rw [heq, iff_false_intro (s.meaning_none hcx W v), false_and]
  split
  · rename_i heq
    refine ⟨.refl s, ha, fun cx hcx W _ v => ?_⟩
    rw [heq, iff_true_intro (s.meaning_none hcx W v), and_true]
  · rw [wp_bind, wp_set]
    refine (hI.part (s := s.record _) (Descr.EachSig.diff ha.2 hb.2)
      ((FromArena.descr s.cx a).diff (FromArena.descr s.cx b))).imp ?_
    rintro t s' ⟨hgrows, hdepth, hmeaning⟩
    have hrec : Grows [] s s' := by
      refine (Grows.record s fun r hr => ?_).trans hgrows
      rw [List.mem_singleton.mp hr]
      exact ⟨FromArena.descr s.cx a, FromArena.descr s.cx b⟩
    refine ⟨hrec, hdepth, fun cx hcx W hW v => ?_⟩
    have hext := hrec.extends_.trans hcx
    have hcut := hW _ (hgrows.rewrites _ (List.mem_append_right _ (.head _)))
    have hma : (s.cx.descr a).meaning cx W.calls = cx.meaning W.calls a := by
      rw [TyCtx.meaning, hext.descr_eq ha.1]
    have hmb : (s.cx.descr b).meaning cx W.calls = cx.meaning W.calls b := by
      rw [TyCtx.meaning, hext.descr_eq hb.1]
    rw [hmeaning cx hcx W hW v, ← hma, ← hmb]
    constructor
    · intro hv
      refine ⟨?_, hcut v hv⟩
      rw [Descr.mem_meaning] at hv ⊢
      exact Descr.mem_of_mem_diff hv
    · rintro ⟨hva, hvb⟩
      exact Descr.mem_meaning_diff hva hvb

/-- The signatures of tuple clauses name types of depth `n`. -/
def TuplesAt (cx : TyCtx) (n : Nat) (clauses : List (Conj TupleSig)) : Prop :=
  Each (fun s => ∀ t ∈ s.elems, TyDepth cx n t) clauses

theorem TuplesAt.of_extends {clauses : List (Conj TupleSig)} (h : TuplesAt cx n clauses)
    (hcx : cx.Extends cx') : TuplesAt cx' n clauses := fun c hc =>
  ⟨fun p hp t ht => ((h c hc).1 p hp t ht).of_extends hcx,
    fun q hq t ht => ((h c hc).2 q hq t ht).of_extends hcx⟩

/-- A clause rewritten to one with the same tuples. -/
structure TupleClauseOf (n : Nat) (c c' : Conj TupleSig) (s' : Interning) : Prop where
  depth : TuplesAt s'.cx n [c']
  meaning : InFinal s' fun cx W => ∀ vs, c'.Holds (TupleSig.Holds (cx.meaning W.calls) vs) ↔
    c.Holds (TupleSig.Holds (cx.meaning W.calls) vs)

theorem TupleClauseOf.refl {c : Conj TupleSig} (h : TuplesAt s.cx n [c]) :
    TupleClauseOf n c c s := ⟨h, fun _ _ _ _ _ => Iff.rfl⟩

theorem TupleClauseOf.of_grows {c c' : Conj TupleSig} {s s' : Interning}
    (h : TupleClauseOf n c c' s) (hg : Grows [] s s') : TupleClauseOf n c c' s' :=
  ⟨h.depth.of_extends hg.extends_, h.meaning.grows hg⟩

theorem wp_normalizeTupleCoordinateDifference (hI : Interns n intern)
    {c : Conj TupleSig} (hc : TuplesAt s.cx n [c]) :
    wp (normalizeTupleCoordinateDifference intern c)
      (fun c' s' => Grows [] s s' ∧ TupleClauseOf n c c' s') (fun _ => False) s := by
  have hsame : Grows [] s s ∧ TupleClauseOf n c c s := ⟨.refl s, .refl hc⟩
  rw [normalizeTupleCoordinateDifference, wp_bind, wp_get]
  split
  · rename_i positive negative hpos hneg
    have hp : ∀ t ∈ positive.elems, TyDepth s.cx n t :=
      (hc c (.head _)).1 positive (by simp [hpos])
    have hn : ∀ t ∈ negative.elems, TyDepth s.cx n t :=
      (hc c (.head _)).2 negative (by simp [hneg])
    split
    · exact hsame
    rename_i hlen
    rw [ne_eq, not_not] at hlen
    split
    · exact hsame
    split
    · rename_i index hdiffer
      have hindex := List.mem_filter.mp (hdiffer ▸ List.mem_singleton.mpr rfl :
        index ∈ (List.range positive.elems.length).filter fun k =>
          !s.cx.isSubtype (positive.elems.getD k 0) (negative.elems.getD k 0))
      have hlt := List.mem_range.mp hindex.1
      have hlt' : index < negative.elems.length := hlen ▸ hlt
      rw [wp_bind]
      refine (wp_difference hI (hp _ (getD_mem hlt 0)) (hn _ (getD_mem hlt' 0))
        (by simpa using hindex.2)).imp ?_
      rintro elem s' ⟨hgrows, hdepth, hmeaning⟩
      refine ⟨hgrows, ?_, fun cx hcx W hW vs => ?_⟩
      · intro c' hc'
        rw [List.mem_singleton.mp hc']
        refine ⟨fun p hp' t ht => ?_, fun _ h => nomatch h⟩
        rw [List.mem_singleton.mp hp'] at ht
        rcases List.mem_or_eq_of_mem_set ht with ht | rfl
        · exact (hp t ht).of_extends hgrows.extends_
        · exact hdepth
      · have hext := hgrows.extends_.trans hcx
        -- the other coordinates are inside their covers
        have hrest : ∀ i a b, i ≠ index → (positive.elems.map (cx.meaning W.calls))[i]? = some a →
            (negative.elems.map (cx.meaning W.calls))[i]? = some b → a ⊆ b := by
          intro i a b hne hia hib
          have hi : i < positive.elems.length := by
            have := (List.getElem?_eq_some_iff.mp hia).1
            rwa [List.length_map] at this
          have hi' : i < negative.elems.length := hlen ▸ hi
          rw [getElem?_map_getD hi _ 0, Option.some.injEq] at hia
          rw [getElem?_map_getD hi' _ 0, Option.some.injEq] at hib
          subst hia hib
          have hsub : s.cx.isSubtype (positive.elems.getD i 0)
              (negative.elems.getD i 0) = true := by
            by_contra hno
            have : i ∈ [index] := by
              rw [← hdiffer, List.mem_filter, List.mem_range]
              exact ⟨hi, by simpa using hno⟩
            exact hne (List.mem_singleton.mp this)
          intro v hv
          rw [hext.meaning_ty (hp _ (getD_mem hi 0)).1] at hv
          rw [hext.meaning_ty (hn _ (getD_mem hi' 0)).1]
          exact (W.restrict hext).isSubtype_sound hsub hv
        have hdiff : vs ∈ listProd _ ↔ _ := mem_listProd_set_diff (by simp [hlen])
          (getElem?_map_getD hlt (cx.meaning W.calls) 0)
          (getElem?_map_getD hlt' (cx.meaning W.calls) 0) hrest (hmeaning cx hcx W hW)
        rw [holds_posOf]
        simp only [Conj.Holds, hpos, hneg, List.forall_mem_singleton, TupleSig.Holds, List.map_set]
        exact hdiff
    · exact hsame
  · exact hsame

/-- A coordinate of depth `n` over an arena. -/
structure CoordAt (cx : TyCtx) (n : Nat) (c : Coord) : Prop where
  depth : Depth cx n (c.descr cx)
  fromArena : FromArena cx (c.descr cx)
  known : ∀ t, c = .interned t → t < cx.arena.length

theorem CoordAt.of_ty {t : Ty} (h : TyDepth cx n t) : CoordAt cx n (.interned t) where
  depth := h.2
  fromArena := FromArena.descr cx t
  known := by
    rintro _ ⟨⟩
    exact h.1

theorem coordAt_joinClosed (cx : TyCtx) (n : Nat) : JoinClosed cx (CoordAt cx n) where
  union _ _ ha hb :=
    ⟨ha.depth.union hb.depth, ha.fromArena.union hb.fromArena, fun _ h => nomatch h⟩
  first _ hc := ⟨hc.depth.none_union, hc.fromArena.none_union, fun _ h => nomatch h⟩

theorem CoordAt.descr_eq {c : Coord} (h : CoordAt cx n c) (hcx : cx.Extends cx') :
    c.descr cx' = c.descr cx := by
  cases c with
  | interned t => exact hcx.descr_eq (h.known t rfl)
  | built d => rfl

theorem CoordAt.of_extends {c : Coord} (h : CoordAt cx n c) (hcx : cx.Extends cx') :
    CoordAt cx' n c where
  depth := by
    rw [h.descr_eq hcx]
    exact h.depth.of_extends hcx
  fromArena := by
    rw [h.descr_eq hcx]
    exact h.fromArena.of_extends hcx
  known t ht := Nat.lt_of_lt_of_le (h.known t ht) hcx.length_le

theorem sets_of_extends {rect : Rect} (h : ∀ c ∈ rect, CoordAt cx n c) (hcx : cx.Extends cx') :
    Rect.sets cx' calls rect = Rect.sets cx calls rect := by
  refine List.map_congr_left fun c hc => ?_
  rw [(h c hc).descr_eq hcx, hcx.meaning_eq (h c hc).depth.knows]

theorem wp_internCoord (hI : Interns n intern) {c : Coord} (hc : CoordAt s.cx n c) :
    wp (internCoord intern c) (fun t s' => Grows [] s s' ∧ InternedPart n (c.descr s.cx) t s')
      (fun _ => False) s := by
  cases c with
  | interned t =>
    refine ⟨.refl s, ⟨hc.known t rfl, hc.depth⟩, fun cx hcx W _ v => ?_⟩
    rw [TyCtx.meaning, hcx.descr_eq (hc.known t rfl)]
    rfl
  | built d => exact hI.part hc.depth hc.fromArena

/-- A rectangle written as a clause. -/
structure RectClauseOf (n : Nat) (rect : Rect) (c : Conj TupleSig) (s' : Interning) : Prop where
  depth : TuplesAt s'.cx n [c]
  meaning : InFinal s' fun cx W => ∀ vs, c.Holds (TupleSig.Holds (cx.meaning W.calls) vs) ↔
    vs ∈ listProd (Rect.sets cx W.calls rect)

theorem RectClauseOf.of_grows {rect : Rect} {c : Conj TupleSig} {s s' : Interning}
    (h : RectClauseOf n rect c s) (hg : Grows [] s s') : RectClauseOf n rect c s' :=
  ⟨h.depth.of_extends hg.extends_, h.meaning.grows hg⟩

theorem wp_internRect (hI : Interns n intern) {rect : Rect} (hrect : ∀ c ∈ rect, CoordAt s.cx n c) :
    wp (internRect intern rect) (fun c s' => Grows [] s s' ∧ RectClauseOf n rect c s')
      (fun _ => False) s := by
  rw [internRect, wp_bind]
  refine (wp_mapM (R := Grows []) (Q := fun c t s' => InternedPart n (c.descr s.cx) t s') Grows.refl
    Grows.trans (fun {c t s₁ s₂} hg (h : InternedPart n (c.descr s.cx) t s₁) => h.of_grows hg)
    rect s fun c hc s' hs' => ?_).imp ?_
  · rw [← (hrect c hc).descr_eq hs'.extends_]
    exact wp_internCoord hI ((hrect c hc).of_extends hs'.extends_)
  · rintro elems s' ⟨hgrows, helems⟩
    refine ⟨hgrows, ?_, fun cx hcx W hW vs => ?_⟩
    · intro c hc
      rw [List.mem_singleton.mp hc]
      refine ⟨fun p hp t ht => ?_, fun _ h => nomatch h⟩
      rw [List.mem_singleton.mp hp] at ht
      obtain ⟨c, -, hpart⟩ := exists_of_forall₂_right helems ht
      exact hpart.depth
    · have hext := hgrows.extends_.trans hcx
      have hmap : elems.map (cx.meaning W.calls) = Rect.sets cx W.calls rect := by
        refine map_eq_of_forall₂ helems fun c hc t hpart => ?_
        rw [(hrect c hc).descr_eq hext]
        exact Set.ext (hpart.meaning cx hcx W hW)
      rw [holds_posOf, TupleSig.Holds, hmap]

/-- Clauses rewritten to others with the same tuples. -/
structure TuplesOf (n : Nat) (clauses clauses' : List (Conj TupleSig)) (s' : Interning) : Prop where
  depth : TuplesAt s'.cx n clauses'
  meaning : InFinal s' fun cx W => ∀ vs,
    DnfHolds (TupleSig.Holds (cx.meaning W.calls) vs) clauses' ↔
      DnfHolds (TupleSig.Holds (cx.meaning W.calls) vs) clauses

theorem holds_of_forall₂ {T : Type} {m : T → Prop} {R : Conj T → Conj T → Prop}
    {cs cs' : List (Conj T)} (h : List.Forall₂ R cs cs')
    (hR : ∀ c c', R c c' → (c'.Holds m ↔ c.Holds m)) : DnfHolds m cs' ↔ DnfHolds m cs := by
  constructor
  · rintro ⟨c', hc', hholds⟩
    obtain ⟨c, hc, hr⟩ := exists_of_forall₂_right h hc'
    exact ⟨c, hc, (hR c c' hr).mp hholds⟩
  · rintro ⟨c, hc, hholds⟩
    obtain ⟨c', hc', hr⟩ := exists_of_forall₂_left h hc
    exact ⟨c', hc', (hR c c' hr).mpr hholds⟩

theorem holds_split_plain {T : Type} {m : T → Prop} (clauses : List (Conj T)) :
    DnfHolds m clauses ↔ DnfHolds m (clauses.filter fun c => (plainSig c).isNone) ∨
      ∃ sig ∈ clauses.filterMap plainSig, m sig := by
  constructor
  · rintro ⟨c, hc, hholds⟩
    cases hp : plainSig c with
    | none => exact .inl ⟨c, List.mem_filter.mpr ⟨hc, by rw [hp]; rfl⟩, hholds⟩
    | some sig =>
      exact .inr ⟨sig, List.mem_filterMap.mpr ⟨c, hc, hp⟩, (holds_of_plainSig hp).mp hholds⟩
  · rintro (⟨c, hc, hholds⟩ | ⟨sig, hsig, hm⟩)
    · exact ⟨c, List.mem_of_mem_filter hc, hholds⟩
    · obtain ⟨c, hc, hp⟩ := List.mem_filterMap.mp hsig
      exact ⟨c, hc, (holds_of_plainSig hp).mpr hm⟩

theorem wp_normalizeTupleAxis (hI : Interns n intern) {rounds : Nat}
    {clauses : List (Conj TupleSig)} (hc : TuplesAt s.cx n clauses) :
    wp (normalizeTupleAxis rounds intern clauses)
      (fun clauses' s' => Grows [] s s' ∧ TuplesOf n clauses clauses' s') (fun _ => False) s := by
  rw [normalizeTupleAxis, wp_bind]
  refine (wp_mapM (R := Grows []) (Q := TupleClauseOf n) Grows.refl Grows.trans
    (fun hg h => h.of_grows hg) clauses s fun c hmem s' hs' => ?_).imp ?_
  · refine wp_normalizeTupleCoordinateDifference hI ?_
    have hone : TuplesAt s.cx n [c] := hc.of_subset fun c' hc' => by
      rwa [List.mem_singleton.mp hc']
    exact hone.of_extends hs'.extends_
  rintro clauses₁ s₁ ⟨hgrows₁, hclauses₁⟩
  have hat₁ : TuplesAt s₁.cx n clauses₁ := by
    intro c hc
    obtain ⟨c₀, -, hof⟩ := exists_of_forall₂_right hclauses₁ hc
    exact hof.depth c (.head _)
  -- the plain clauses as rectangles
  generalize hrects : ((clauses₁.filterMap plainSig).map fun sig =>
    (sig.elems.map .interned : Rect)) = rects
  have hcoords : EachCoord (CoordAt s₁.cx n) rects := by
    intro rect hrect c hcoord
    rw [← hrects] at hrect
    obtain ⟨sig, hsig, rfl⟩ := List.mem_map.mp hrect
    obtain ⟨t, ht, rfl⟩ := List.mem_map.mp hcoord
    obtain ⟨c₁, hc₁, hplain⟩ := List.mem_filterMap.mp hsig
    rw [eq_posOf_of_plainSig hplain] at hc₁
    exact CoordAt.of_ty ((hat₁ _ hc₁).1 sig (.head _) t ht)
  obtain ⟨hcarved, hjoins⟩ := eachCoord_fuseTupleRects (coordAt_joinClosed s₁.cx n) hcoords
  rw [wp_bind, wp_get]
  dsimp only
  rw [wp_bind, wp_set, wp_bind]
  refine (wp_mapM (R := Grows []) (Q := RectClauseOf n) Grows.refl Grows.trans
    (fun hg h => h.of_grows hg) _ (s₁.record _) fun rect hrect s' hs' => ?_).imp ?_
  · exact wp_internRect hI fun c hc => (hcarved rect hrect c hc).of_extends hs'.extends_
  rintro plain s₂ ⟨hgrows₂, hplain⟩
  have hgrows : Grows [] s₁ s₂ := by
    refine (Grows.record s₁ fun r hr => ?_).trans hgrows₂
    obtain ⟨a, b, rfl, ha, hb⟩ := hjoins r hr
    exact ⟨ha.fromArena, hb.fromArena⟩
  refine ⟨hgrows₁.trans hgrows, ?_, fun cx hcx W hW vs => ?_⟩
  · intro c hc
    rcases List.mem_append.mp hc with hc | hc
    · exact hat₁.of_extends hgrows.extends_ c (List.mem_of_mem_filter hc)
    · obtain ⟨rect, -, hof⟩ := exists_of_forall₂_right hplain hc
      exact hof.depth c (.head _)
  · have hext := hgrows.extends_.trans hcx
    have hW₁ : ∀ r ∈ s₁.rewrites, r.Sound cx W.calls := fun r hr => hW r (hgrows.rewrites r hr)
    have hsound : ∀ r ∈ (fuseTupleRects s₁.cx rounds rects).2, r.Sound s₁.cx W.calls := by
      intro r hr
      obtain ⟨a, b, rfl, ha, hb⟩ := hjoins r hr
      exact (hW _ (hgrows₂.rewrites _ (List.mem_append_right _ hr))).of_extends
        ⟨ha.depth.knows, hb.depth.knows⟩ hext
    have hcarve : RectsHold s₁.cx W.calls vs (fuseTupleRects s₁.cx rounds rects).1 ↔
        RectsHold s₁.cx W.calls vs rects := holds_fuseTupleRects (W.restrict hext)
      (fun rect hrect c hc => ⟨Nat.lt_succ_of_le (Descr.rank_le_iff_eachSig.mpr
        (hcoords rect hrect c hc).depth.knows), Descr.eachSig_onArrow_iff.mpr
          ((hcoords rect hrect c hc).fromArena _ (W.restrict hext).honest)⟩) hsound
    have hread : ∀ {rects' : List Rect}, EachCoord (CoordAt s₁.cx n) rects' →
        (RectsHold cx W.calls vs rects' ↔ RectsHold s₁.cx W.calls vs rects') := by
      intro rects' hat
      refine exists_congr fun rect => and_congr_right fun hrect => ?_
      rw [sets_of_extends (hat rect hrect) hext]
    have hout : DnfHolds (TupleSig.Holds (cx.meaning W.calls) vs) plain ↔
        RectsHold cx W.calls vs (fuseTupleRects s₁.cx rounds rects).1 := by
      constructor
      · rintro ⟨c, hc, hholds⟩
        obtain ⟨rect, hrect, hof⟩ := exists_of_forall₂_right hplain hc
        exact ⟨rect, hrect, (hof.meaning cx hcx W hW vs).mp hholds⟩
      · rintro ⟨rect, hrect, hholds⟩
        obtain ⟨c, hc, hof⟩ := exists_of_forall₂_left hplain hrect
        exact ⟨c, hc, (hof.meaning cx hcx W hW vs).mpr hholds⟩
    have hin : RectsHold cx W.calls vs rects ↔
        ∃ sig ∈ clauses₁.filterMap plainSig, TupleSig.Holds (cx.meaning W.calls) vs sig := by
      rw [← hrects]
      simp only [RectsHold, List.mem_map, exists_exists_and_eq_and]
      refine exists_congr fun sig => and_congr_right fun _ => ?_
      rw [TupleSig.Holds, Rect.sets, List.map_map]
      rfl
    have hsame := holds_of_forall₂ (m := TupleSig.Holds (cx.meaning W.calls) vs) hclauses₁
      fun c c' hof => hof.meaning cx hext W hW₁ vs
    rw [← hsame, holds_split_plain clauses₁, ← hin, hread hcoords, ← hcarve,
      ← hread hcarved, ← hout]
    simp only [DnfHolds, List.mem_append, or_and_right, exists_or]

end Tuples

/-! ## Lists -/

section Lists

variable {n : Nat} {intern : Descr → InternM Ty}

/-- The signatures of list clauses name types of depth `n`. -/
def ListsAt (cx : TyCtx) (n : Nat) (clauses : List (Conj ListSig)) : Prop :=
  Each (fun s => ∀ t, s.elem = some t → TyDepth cx n t) clauses

theorem ListsAt.of_extends {clauses : List (Conj ListSig)} (h : ListsAt cx n clauses)
    (hcx : cx.Extends cx') : ListsAt cx' n clauses := fun c hc =>
  ⟨fun p hp t ht => ((h c hc).1 p hp t ht).of_extends hcx,
    fun q hq t ht => ((h c hc).2 q hq t ht).of_extends hcx⟩

/-- A clause rewritten to one with the same lists. -/
structure ListClauseOf (n : Nat) (c c' : Conj ListSig) (s' : Interning) : Prop where
  depth : ListsAt s'.cx n [c']
  meaning : InFinal s' fun cx W => ∀ vs, c'.Holds ( ListSig.Holds (cx.meaning W.calls) vs) ↔
    c.Holds ( ListSig.Holds (cx.meaning W.calls) vs)

theorem ListClauseOf.refl {c : Conj ListSig} {s : Interning} (h : ListsAt s.cx n [c]) :
    ListClauseOf n c c s := ⟨h, fun _ _ _ _ _ => Iff.rfl⟩

theorem ListClauseOf.of_grows {c c' : Conj ListSig} {s s' : Interning}
    (h : ListClauseOf n c c' s) (hg : Grows [] s s') : ListClauseOf n c c' s' :=
  ⟨h.depth.of_extends hg.extends_, h.meaning.grows hg⟩

theorem listClause_of_extends {c : Conj ListSig} (h : ListsAt cx n [c]) (hcx : cx.Extends cx')
    {vs : List Val} : c.Holds ( ListSig.Holds (cx'.meaning calls) vs) ↔
      c.Holds ( ListSig.Holds (cx.meaning calls) vs) := by
  have hsig : ∀ s : ListSig, (∀ t, s.elem = some t → TyDepth cx n t) →
      (s.Holds (cx'.meaning calls) vs ↔ s.Holds (cx.meaning calls) vs) := by
    intro s hs
    cases vs with
    | nil => rfl
    | cons v vs =>
      exact exists_congr fun t => and_congr_right fun ht => by rw [hcx.meaning_ty (hs t ht).1]
  refine and_congr ?_ ?_
  · exact forall₂_congr fun p hp => hsig p ((h c (.head _)).1 p hp)
  · exact forall₂_congr fun q hq => not_congr (hsig q ((h c (.head _)).2 q hq))

/-- The lists of a denotation, as a clause over the interned element type and cuts. -/
theorem wp_listClauseOf (hI : Interns n intern) {s : Interning} {den : ListDenotation}
    (hden : ∀ ne, den.nonEmpty = some ne → (Depth s.cx n ne.elem ∧ FromArena s.cx ne.elem) ∧
      ∀ cut ∈ ne.minus, Depth s.cx n cut ∧ FromArena s.cx cut)
    (hempty : den.nonEmpty = none → den.holdsEmpty = true) :
    wp ( listClauseOf intern den) (fun c s' => Grows [] s s' ∧ ListsAt s'.cx n [c] ∧
      InFinal s' fun cx W => ∀ vs, c.Holds ( ListSig.Holds (cx.meaning W.calls) vs) ↔
        den.Holds cx W.calls vs) (fun _ => False) s := by
  rw [ listClauseOf]
  split
  · rename_i hne
    refine ⟨.refl s, ?_, fun cx _ W _ vs => ?_⟩
    · intro c hc
      rw [List.mem_singleton.mp hc]
      refine ⟨fun p hp t ht => ?_, fun _ h => by cases h⟩
      rw [List.mem_singleton.mp hp] at ht
      cases ht
    · rw [holds_posOf]
      cases vs with
      | nil => exact iff_of_true rfl (hempty hne)
      | cons v vs =>
        constructor
        · rintro ⟨t, ht, -⟩
          cases ht
        · rintro ⟨ne, hsome, -⟩
          cases hne.symm.trans hsome
  · rename_i elem minus hne
    obtain ⟨helem, hminus⟩ := hden _ hne
    rw [wp_bind]
    refine (hI.part helem.1 helem.2).imp ?_
    rintro t s₁ ⟨hgrows₁, hpart⟩
    rw [wp_bind]
    refine (wp_mapM (R := Grows []) (Q := InternedPart n) Grows.refl Grows.trans
      (fun hg h => h.of_grows hg) minus s₁ fun cut hcut s' hs' => ?_).imp ?_
    · have hext := hgrows₁.extends_.trans hs'.extends_
      exact hI.part ((hminus cut hcut).1.of_extends hext) ((hminus cut hcut).2.of_extends hext)
    · rintro cuts s₂ ⟨hgrows₂, hcuts⟩
      refine ⟨hgrows₁.trans hgrows₂, ?_, fun cx hcx W hW vs => ?_⟩
      · intro c hc
        rw [List.mem_singleton.mp hc]
        refine ⟨fun p hp u hu => ?_, fun q hq u hu => ?_⟩
        · rw [List.mem_singleton.mp hp, Option.some.injEq] at hu
          subst hu
          exact hpart.depth.of_extends hgrows₂.extends_
        · obtain ⟨cut, hcut, rfl⟩ := List.mem_map.mp hq
          obtain ⟨d, -, hof⟩ := exists_of_forall₂_right hcuts hcut
          rw [Option.some.injEq] at hu
          subst hu
          exact hof.depth
      · have hmean := (hpart.of_grows hgrows₂).meaning cx hcx W hW
        cases vs with
        | nil =>
          simp only [Conj.Holds, List.forall_mem_singleton, List.forall_mem_map, ListSig.Holds,
            ListDenotation.Holds]
          exact and_iff_left fun _ _ h => by cases h
        | cons v vs =>
          have hall : ∀ u (d : Descr), (∀ w, w ∈ cx.meaning W.calls u ↔ w ∈ d.meaning cx W.calls) →
              ∀ b : Bool, (ListSig.Holds (cx.meaning W.calls) (v :: vs) ⟨b, some u⟩ ↔
                d.AllIn cx W.calls (v :: vs)) := by
            intro u d hd b
            constructor
            · rintro ⟨_, ⟨⟩, h⟩ w hw
              exact (hd w).mp (h w hw)
            · exact fun h => ⟨u, rfl, fun w hw => (hd w).mpr (h w hw)⟩
          simp only [Conj.Holds, List.forall_mem_singleton, List.forall_mem_map,
            ListDenotation.Holds, hne, Option.some.injEq, exists_eq_left', hall t elem hmean]
          refine and_congr_right fun _ => ⟨fun h cut hcut => ?_, fun h u hu => ?_⟩
          · obtain ⟨u, hu, hof⟩ := exists_of_forall₂_left hcuts hcut
            exact fun hin => h u hu ((hall u cut (hof.meaning cx hcx W hW) false).mpr hin)
          · obtain ⟨cut, hcut, hof⟩ := exists_of_forall₂_right hcuts hu
            exact fun hin => h cut hcut ((hall u cut (hof.meaning cx hcx W hW) false).mp hin)

theorem wp_listNormalForm (hI : Interns n intern) {s : Interning} {c : Conj ListSig}
    (hc : ListsAt s.cx n [c]) :
    wp ( listNormalForm intern c) (fun c' s' => Grows [] s s' ∧ ListClauseOf n c c' s')
      (fun _ => False) s := by
  have hsame : Grows [] s s ∧ ListClauseOf n c c s := ⟨.refl s, .refl hc⟩
  rw [ listNormalForm, wp_bind, wp_get]
  split
  · exact hsame
  split
  · exact hsame
  split
  · exact hsame
  split
  · exact hsame
  · rename_i den hden
    have hsig : ∀ sig, sig ∈ c.pos ∨ sig ∈ c.neg → ∀ t, sig.elem = some t → TyDepth s.cx n t := by
      rintro sig (hsig | hsig)
      · exact (hc c (.head _)).1 sig hsig
      · exact (hc c (.head _)).2 sig hsig
    refine (wp_listClauseOf hI (fun ne hne => ?_) ?_).imp ?_
    · exact listDenotation_of_forall (Q := fun d => Depth s.cx n d ∧ FromArena s.cx d)
        (fun a b ha hb => ⟨ha.1.intersect hb.1, ha.2.intersect hb.2⟩) ⟨.any n, .any s.cx⟩
        (fun sig hmem t ht => ⟨(hsig sig hmem t ht).2, FromArena.descr s.cx t⟩) hden hne
    · exact holdsEmpty_of_listDenotation hden
    · rintro c' s' ⟨hgrows, hat, hmeaning⟩
      refine ⟨hgrows, hat, fun cx hcx W hW vs => ?_⟩
      have hext := hgrows.extends_.trans hcx
      have hden' : den.Holds cx W.calls vs ↔ den.Holds s.cx W.calls vs := by
        cases vs with
        | nil => rfl
        | cons v vs =>
          refine exists_congr fun ne => and_congr_right fun hne => ?_
          obtain ⟨helem, hminus⟩ := listDenotation_of_forall (Q := fun d => Depth s.cx n d)
            (fun a b ha hb => ha.intersect hb) (.any n)
            (fun sig hmem t ht => (hsig sig hmem t ht).2) hden hne
          simp only [Descr.AllIn, hext.meaning_eq helem.knows]
          refine and_congr_right fun _ => forall₂_congr fun cut hcut => ?_
          rw [hext.meaning_eq (hminus cut hcut).knows]
      rw [hmeaning cx hcx W hW vs, hden', listClause_of_extends hc hext]
      exact holds_listDenotation (W.restrict hext) hden vs

theorem wp_normalizeListClauses (hI : Interns n intern) {s : Interning}
    {clauses : List (Conj ListSig)} (hc : ListsAt s.cx n clauses) :
    wp (normalizeListClauses intern clauses) (fun clauses' s' => Grows [] s s' ∧
      ListsAt s'.cx n clauses' ∧ InFinal s' fun cx W => ∀ vs,
        DnfHolds ( ListSig.Holds (cx.meaning W.calls) vs) clauses' ↔
          DnfHolds ( ListSig.Holds (cx.meaning W.calls) vs) clauses) (fun _ => False) s := by
  rw [normalizeListClauses, wp_bind]
  refine (wp_mapM (R := Grows []) (Q := ListClauseOf n) Grows.refl Grows.trans
    (fun hg h => h.of_grows hg) clauses s fun c hmem s' hs' => ?_).imp ?_
  · have hone : ListsAt s.cx n [c] := hc.of_subset fun c' hc' => by
      rwa [List.mem_singleton.mp hc']
    exact wp_listNormalForm hI (hone.of_extends hs'.extends_)
  · rintro clauses₁ s₁ ⟨hgrows, hclauses⟩
    refine ⟨hgrows, Each.mergeEmptyListClause (fun s h => h) ?_, fun cx hcx W hW vs => ?_⟩
    · intro c hc
      obtain ⟨c₀, -, hof⟩ := exists_of_forall₂_right hclauses hc
      exact hof.depth c (.head _)
    · rw [holds_mergeEmptyListClause]
      exact holds_of_forall₂ hclauses fun c c' hof => hof.meaning cx hcx W hW vs

end Lists

/-! ## The whole pass -/

namespace Descr

variable {order : ClauseOrder} {isEmptyTy : Ty → Bool} {d : Descr}

theorem EachSig.settle {P : SigPred} (h : d.EachSig P) :
    (d.settle order cx isEmptyTy).EachSig P := by
  have hsorted : (d.sortAxes order cx).EachSig P := h.sortAxes
  have hdropped : ((d.sortAxes order cx).dropEmptyClauses cx isEmptyTy).EachSig P :=
    hsorted.dropEmptyClauses
  have habsorbed : (((d.sortAxes order cx).dropEmptyClauses cx isEmptyTy).absorbCoveredClauses
    cx).EachSig P := hdropped.absorbCoveredClauses
  rw [Descr.settle]
  split
  · exact .none
  · exact ⟨habsorbed.tuples, habsorbed.lists, habsorbed.resources,
      habsorbed.funcs.of_subset fun c hc => mem_dedupeExactClauses.mp hc, habsorbed.maps⟩

theorem mem_settle (W : World cx) (hnone : ∀ t, isEmptyTy t = true → ∀ v, v ∉ cx.meaning W.calls t)
    (hhonest : Each (Honest cx W.calls) d.funcs) (hknown : cx.Knows d) {v : Val} :
    v ∈ (d.settle order cx isEmptyTy).meaning cx W.calls ↔ v ∈ d.meaning cx W.calls := by
  rw [mem_meaning, mem_meaning]
  have hdropped : ((d.sortAxes order cx).dropEmptyClauses cx isEmptyTy).Mem W.calls
      (cx.meaning W.calls) v ↔ d.Mem W.calls (cx.meaning W.calls) v :=
    (mem_dropEmptyClauses W hnone (eachSig_onArrow_iff.mpr hhonest).sortAxes
      (EachSig.sortAxes hknown)).trans mem_sortAxes
  have habsorbed := (mem_absorbCoveredClauses W (v := v)).trans hdropped
  have hdeduped : ({ ((d.sortAxes order cx).dropEmptyClauses cx isEmptyTy).absorbCoveredClauses cx
      with funcs := dedupeExactClauses (((d.sortAxes order cx).dropEmptyClauses cx
        isEmptyTy).absorbCoveredClauses cx).funcs } : Descr).Mem W.calls (cx.meaning W.calls) v ↔
          d.Mem W.calls (cx.meaning W.calls) v := by
    rw [← habsorbed]
    refine and_congr_right fun _ => ?_
    cases v.shape with
    | fn f captures =>
      simp only [Shape.In, DnfHolds, dedupeExactClauses, mem_dedupeExactClauses]
    | _ => rfl
  rw [Descr.settle]
  split
  · rename_i hempty
    rw [← hdeduped]
    exact iff_of_false (not_mem_of_looksEmpty rfl v) (not_mem_of_looksEmpty hempty v)
  · exact hdeduped

end Descr

section Pass

variable {n : Nat}

theorem TyCtx.lookup_spec {d : Descr} {t : Ty} (h : cx.lookup d = some t) :
    t < cx.arena.length ∧ cx.descr t = d := by
  rw [TyCtx.lookup, List.idxOf?, List.findIdx?_eq_some_iff_getElem] at h
  obtain ⟨hlt, heq, -⟩ := h
  refine ⟨hlt, ?_⟩
  rw [TyCtx.descr, List.getD_eq_getElem _ _ hlt]
  exact eq_of_beq heq

theorem Interned.of_lookup {s : Interning} {d : Descr} {t : Ty} (hd : Depth s.cx n d)
    (h : s.cx.lookup d = some t) : Interned n s d t s := by
  obtain ⟨hlt, hdescr⟩ := TyCtx.lookup_spec h
  refine ⟨.refl s, ⟨hlt, hdescr ▸ hd⟩, fun cx hcx W _ _ v => ?_⟩
  rw [TyCtx.meaning, hcx.descr_eq hlt, hdescr]

theorem wp_internNormal {s : Interning} {d : Descr} (hd : Depth s.cx n d) :
    wp (internNormal d) (Interned n s d) (fun _ => False) s := by
  rw [internNormal, wp_bind, wp_get]
  split
  · rename_i t ht
    exact Interned.of_lookup hd ht
  · rw [dif_pos (TyCtx.knows_iff.mp hd.knows), wp_bind, wp_set]
    have hext : s.cx.Extends (s.push d (TyCtx.knows_iff.mp hd.knows)).cx :=
      List.prefix_append s.cx.arena [d]
    have hlen : (s.push d (TyCtx.knows_iff.mp hd.knows)).cx.arena.length = s.cx.arena.length + 1 :=
      List.length_append
    have hdescr : (s.push d (TyCtx.knows_iff.mp hd.knows)).cx.descr s.cx.arena.length = d := by
      show (s.cx.arena ++ [d]).getD s.cx.arena.length Descr.none = d
      rw [List.getD_eq_getElem?_getD, List.getElem?_append_right le_rfl, Nat.sub_self]
      rfl
    refine ⟨⟨hext, rfl, fun _ h => h, fun _ h => .inl h, fun Q hf hs t => ?_⟩, ⟨?_, ?_⟩,
      fun cx hcx W _ _ v => ?_⟩
    · rcases Nat.lt_trichotomy t s.cx.arena.length with ht | rfl | ht
      · rw [hext.descr_eq ht]
        exact hs t
      · rw [hdescr]
        exact hf
      · rw [TyCtx.descr_of_ge _ (by omega)]
        exact fun _ h => nomatch h
    · rw [hlen]
      exact Nat.lt_succ_self _
    · rw [hdescr]
      exact hd.of_extends hext
    · rw [TyCtx.meaning, hcx.descr_eq (by rw [hlen]; exact Nat.lt_succ_self _), hdescr]

theorem lookup_any (s : Interning) : ∃ t, s.cx.lookup Descr.any = some t := by
  rw [← Option.isSome_iff_exists, TyCtx.lookup, List.isSome_idxOf?]
  exact List.mem_of_getElem? s.any_eq

/-- Interning with recursion past the depth of a descriptor succeeds, and keeps the values of the
descriptor if the coordinates it computes have theirs. -/
theorem interns_internAt (order : ClauseOrder) (rounds n : Nat) :
    Interns n (internAt order rounds (n + 1)) := by
  induction n with
  | zero =>
    intro s d hd
    obtain ⟨t, ht⟩ := lookup_any s
    rw [internAt, wp_bind, wp_get]
    rw [show d = Descr.any from hd, ht]
    exact Interned.of_lookup (.any 0) ht
  | succ n ih =>
    intro s d hd
    rw [internAt, wp_bind, wp_get]
    split
    · rename_i t ht
      exact Interned.of_lookup hd ht
    rw [wp_bind]
    refine (wp_normalizeTupleAxis ih (Descr.EachSig.tuples hd)).imp ?_
    rintro tuples s₁ ⟨hgrows₁, htuples⟩
    rw [wp_bind]
    have hlists : ListsAt s.cx n d.lists := Descr.EachSig.lists hd
    refine (wp_normalizeListClauses ih (hlists.of_extends hgrows₁.extends_)).imp ?_
    rintro lists s₂ ⟨hgrows₂, hlists', hlmeaning⟩
    rw [wp_bind, wp_get]
    have hgrows : Grows [] s s₂ := hgrows₁.trans hgrows₂
    have hd₂ : d.EachSig (.naming (TyDepth s₂.cx n)) := hd.of_extends hgrows.extends_
    have hnormal : Depth s₂.cx (n + 1) { d with tuples := tuples, lists := lists } :=
      ⟨htuples.depth.of_extends hgrows₂.extends_, hlists', hd₂.resources, hd₂.funcs, hd₂.maps⟩
    have hsame : InFinal s₂ fun cx W => ∀ v, v ∈ ({ d with tuples := tuples, lists := lists } :
        Descr).meaning cx W.calls ↔ v ∈ d.meaning cx W.calls := by
      intro cx hcx W hW v
      rw [Descr.mem_meaning, Descr.mem_meaning]
      refine and_congr_right fun _ => ?_
      cases v.shape with
      | tuple vs => exact (htuples.meaning.grows hgrows₂) cx hcx W hW vs
      | list vs => exact hlmeaning cx hcx W hW vs
      | _ => rfl
    have hfuncs : ({ d with tuples := tuples, lists := lists } : Descr).funcs = d.funcs := rfl
    generalize ({ d with tuples := tuples, lists := lists } : Descr) = normal at *
    refine (wp_internNormal (n := n + 1) (Descr.EachSig.settle hnormal)).imp ?_
    rintro t s₃ ⟨hgrows₃, hdepth, hmeaning⟩
    have hsettled : ∀ {Q : ArrowSig → Prop}, Each Q d.funcs →
        Each Q (normal.settle order s₂.cx fun t => t = s₂.none).funcs := by
      intro Q hQ
      rw [← hfuncs] at hQ
      exact (Descr.EachSig.settle (Descr.eachSig_onArrow_iff.mpr hQ)).funcs
    refine ⟨?_, hdepth, fun cx hcx W hW hhonest v => ?_⟩
    · exact hgrows.weaken.trans ⟨hgrows₃.extends_, hgrows₃.none_eq, hgrows₃.rewrites, hgrows₃.steps,
        fun Q hQ hs => hgrows₃.arrows Q (hsettled hQ) hs⟩
    · have hext := hgrows₃.extends_.trans hcx
      have hW₂ : ∀ r ∈ s₂.rewrites, r.Sound cx W.calls := fun r hr => hW r (hgrows₃.rewrites r hr)
      have hknown := hnormal.knows
      have hnone : ∀ u, decide (u = s₂.none) = true → ∀ w,
          w ∉ s₂.cx.meaning (W.restrict hext).calls u := by
        intro u hu w hw
        rw [decide_eq_true_eq] at hu
        subst hu
        refine s₂.meaning_none hext W w ?_
        rw [hext.meaning_ty (List.getElem?_eq_some_iff.mp s₂.none_eq).1]
        exact hw
      have hhonest₂ : Each (Honest s₂.cx (W.restrict hext).calls) normal.funcs := by
        refine (hext.each_honest_iff hknown).mp ?_
        rw [hfuncs]
        exact hhonest
      calc v ∈ cx.meaning W.calls t
          ↔ v ∈ (normal.settle order s₂.cx fun t => t = s₂.none).meaning cx W.calls :=
            hmeaning cx hcx W hW (hsettled hhonest) v
        _ ↔ v ∈ (normal.settle order s₂.cx fun t => t = s₂.none).meaning s₂.cx W.calls := by
            rw [hext.meaning_eq (Descr.EachSig.settle hknown)]
        _ ↔ v ∈ normal.meaning s₂.cx W.calls :=
            Descr.mem_settle (W.restrict hext) hnone hhonest₂ hknown
        _ ↔ v ∈ normal.meaning cx W.calls := by rw [hext.meaning_eq hknown]
        _ ↔ v ∈ d.meaning cx W.calls := hsame cx hext W hW₂ v

end Pass

/-! ## The meaning of an identity -/

theorem Grows.sound {funcs : List (Conj ArrowSig)} {types : Types} {s : Interning}
    (h : Grows funcs ⟨types, []⟩ s) (W : World s.cx)
    (hexact : ∀ r ∈ s.rewrites, r.exact s.cx = true) : ∀ r ∈ s.rewrites, r.Sound s.cx W.calls := by
  intro r hr
  rcases h.steps r hr with hr' | hfrom
  · exact nomatch hr'
  · exact Rewrite.sound_of_exact (hfrom.honest W) (hexact r hr)

/-- The arrows of a run are honest if those of the store and of the descriptor are. -/
def World.grow {d : Descr} {types : Types} {s : Interning} (W : World types.cx)
    (h : Grows d.funcs ⟨types, []⟩ s) (hd : types.cx.Knows d)
    (hhonest : Each (Honest types.cx W.calls) d.funcs) : World s.cx where
  calls := W.calls
  honest := by
    refine h.arrows _ ((h.extends_.each_honest_iff hd).mpr hhonest) fun t => ?_
    exact (h.extends_.each_honest_iff (types.cx.knows_descr t)).mpr (W.honest t)

namespace Types

variable (order : ClauseOrder) (rounds : Nat)

theorem intern_spec (types : Types) {d : Descr} (hd : types.cx.Knows d) :
    ∃ t s, types.intern order rounds d = .ok (t, s) ∧ t < s.cx.arena.length ∧
      types.cx.Extends s.cx ∧ ∀ W : World types.cx, Each (Honest types.cx W.calls) d.funcs →
        (∀ r ∈ s.rewrites, r.exact s.cx = true) →
          s.cx.meaning W.calls t = d.meaning types.cx W.calls := by
  have hwp := interns_internAt order rounds (d.rank + 1) ⟨types, []⟩ d (.of_knows hd le_rfl)
  obtain ⟨t, s, hrun, hgrows, hdepth, hmeaning⟩ := hwp.exists_ok
  refine ⟨t, s, hrun, hdepth.1, hgrows.extends_, fun W hhonest hexact => ?_⟩
  have hmem := hmeaning s.cx List.prefix_rfl (W.grow hgrows hd hhonest)
    (hgrows.sound (W.grow hgrows hd hhonest) hexact)
    ((hgrows.extends_.each_honest_iff hd).mpr hhonest)
  rw [← hgrows.extends_.meaning_eq hd]
  exact Set.ext hmem

end Types

section Sample

def binaries : Descr := { Descr.unbranded with basic := ⟨true, false, false⟩ }

/-- The two core types, integers and binaries, and a brand over each. -/
def branded : Types where
  cx := {
    arena := [Descr.none, Descr.any, ints, { ints with brands := .lit "Meters" }, binaries,
      { binaries with brands := .lit "utf8" }]
    children_lt := by
      intro t d h s hs
      match t, h with
      | 0, h | 1, h | 2, h | 3, h | 4, h | 5, h =>
        obtain rfl := Option.some.inj h
        exact nomatch hs }
  none := 0
  any := 1
  none_eq := rfl
  any_eq := rfl

def pairsOf (a b c d : Ty) : Descr :=
  { Descr.unbranded with tuples := [.posOf ⟨[a, b]⟩, .posOf ⟨[c, d]⟩] }

/-- All clauses compare equal, so that a stable sort keeps them as they are. -/
def asGiven : ClauseOrder := ⟨fun _ _ _ => .eq, fun _ _ _ => .eq, fun _ _ _ => .eq,
  fun _ _ _ => .eq, fun _ _ _ => .eq⟩

/-- What a run of the sample store leaves behind. -/
def outcome {α : Type} (f : Ty → Interning → α) (d : Descr) : Option α :=
  match branded.intern asGiven 4 d with
  | .ok (t, s) => some (f t s)
  | .error _ => .none

theorem outcome_of_run {α : Type} {f : Ty → Interning → α} {d : Descr} {t : Ty} {s : Interning}
    (h : branded.intern asGiven 4 d = .ok (t, s)) : outcome f d = some (f t s) := by
  rw [outcome, h]

/-- The join of the lengths and the texts. -/
def hull : Descr := ({ ints with brands := .lit "Meters" } : Descr).union
  { binaries with brands := .lit "utf8" }

/-- A binary under the brand of the lengths, paired with an integer. -/
def mislabelled : Val :=
  .mk none (.tuple [.mk (some "Meters") (.binary []), .mk none (.int 0)])

end Sample

end Fz.Types
