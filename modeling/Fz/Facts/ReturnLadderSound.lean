import Fz.Facts.ReturnLadder
import Fz.Types.EnvelopeSound
import Fz.Types.InternKeeps

/-!
# The return ladder ends, and climbs where interning does

A convergence class has the values of the type it is of, and so has a join of both its operands,
in every world where the coordinates computed on the way are exact.  So one definition stores a
type that has the values of the one before and of the evidence (`wp_defineReturn`).

The ladder ends whatever interning does.  Past twice the budget the stored type is `any`, and then
no definition is reported to change it: each reported change uses up one of the steps that are
`left` to its activation.

That the ladder climbs is not so of every run.  A join interned in place of a difference can cut
more than the difference did (`returnLadder_descends`).
-/

set_option linter.dupNamespace false

namespace Fz.Types

open Fz.Base

variable {cx : TyCtx} {calls : Calls} {d : Descr} {v : Val}

/-! ## Types of one kind -/

namespace Descr

theorem eq_of_axisFree (h : d.axisFree = true) :
    d = { unbranded with tuples := d.tuples, lists := d.lists, resources := d.resources,
                         funcs := d.funcs, maps := d.maps } := by
  obtain ⟨⟨bin, int, float⟩, ⟨ac, as⟩, ⟨oc, os⟩, ⟨bc, bs⟩, ⟨vc, vs⟩, tuples, lists, resources,
    funcs, maps⟩ := d
  simp only [axisFree, BasicBits.isEmpty, FiniteSet.isNone, FiniteSet.isAny, Bool.and_eq_true,
    Bool.not_eq_true', decide_eq_true_eq] at h
  obtain ⟨⟨⟨⟨⟨⟨rfl, rfl⟩, rfl⟩, rfl, rfl⟩, rfl, rfl⟩, rfl, rfl⟩, rfl, rfl⟩ := h
  rfl

theorem eq_of_singlePositive {T : Type} {cs : List (Conj T)} {x : T}
    (h : singlePositive cs = some x) : cs = [.posOf x] := by
  unfold singlePositive at h
  split at h
  · rw [eq_posOf_of_plainSig h]
  · exact nomatch h

theorem axisFree_of_pureAxis {T : Type} {cs : List (Conj T)} {widest x : T}
    (h : d.pureAxis cs widest = some x) : d.axisFree = true := by
  unfold pureAxis at h
  split at h
  · exact nomatch h
  · rename_i hfree
    rwa [Bool.not_eq_true', Bool.not_eq_false] at hfree

theorem eq_of_pureAxis {T : Type} {cs : List (Conj T)} {widest x : T}
    (h : d.pureAxis cs widest = some x) : cs = [.posOf x] ∨ x = widest ∧ cs = [.top] := by
  unfold pureAxis at h
  split at h
  · exact nomatch h
  split at h
  · rename_i c
    split at h
    · rename_i htop
      refine .inr ⟨(Option.some.inj h).symm, ?_⟩
      obtain ⟨pos, neg⟩ := c
      rw [Conj.isTop, Bool.and_eq_true, List.isEmpty_iff, List.isEmpty_iff] at htop
      obtain ⟨rfl, rfl⟩ : pos = [] ∧ neg = [] := htop
      rfl
    · exact .inl (eq_of_singlePositive h)
  · exact .inl (eq_of_singlePositive h)

theorem eq_of_asPureList {any : Ty} {x : ListSig} (h : d.asPureList any = some x) :
    d = { unbranded with lists := d.lists } := by
  obtain ⟨haxis, hrest⟩ := Option.filter_eq_some_iff.mp h
  simp only [Bool.and_eq_true, List.isEmpty_iff] at hrest
  obtain ⟨⟨⟨ht, hr⟩, hf⟩, hm⟩ := hrest
  have heq := eq_of_axisFree (axisFree_of_pureAxis haxis)
  rwa [ht, hr, hf, hm] at heq

theorem eq_of_pureTuple {x : TupleSig} (h : d.pureTuple = some x) : d = tupleOf x.elems := by
  rw [pureTuple] at h
  split at h
  · exact nomatch h
  rename_i hfree
  rw [Bool.not_eq_true', Bool.not_eq_false] at hfree
  obtain ⟨haxis, hrest⟩ := Option.filter_eq_some_iff.mp h
  simp only [Bool.and_eq_true, List.isEmpty_iff] at hrest
  obtain ⟨⟨⟨hl, hr⟩, hf⟩, hm⟩ := hrest
  have heq := eq_of_axisFree hfree
  rwa [eq_of_singlePositive haxis, hl, hr, hf, hm] at heq

theorem eq_of_pureResource {any : Ty} {x : ResourceSig} (h : d.pureResource any = some x) :
    d = resourceOf x.payload ∨ x.payload = any ∧ d = { unbranded with resources := [.top] } := by
  obtain ⟨haxis, hrest⟩ := Option.filter_eq_some_iff.mp h
  simp only [Bool.and_eq_true, List.isEmpty_iff] at hrest
  obtain ⟨⟨⟨ht, hl⟩, hf⟩, hm⟩ := hrest
  have heq := eq_of_axisFree (axisFree_of_pureAxis haxis)
  rw [ht, hl, hf, hm] at heq
  rcases eq_of_pureAxis haxis with hr | ⟨rfl, hr⟩
  · rw [hr] at heq
    exact .inl heq
  · rw [hr] at heq
    exact .inr ⟨rfl, heq⟩

theorem eq_of_isPureCallable (h : d.isPureCallable = true) :
    d = { unbranded with funcs := d.funcs } := by
  simp only [isPureCallable, Bool.and_eq_true, List.isEmpty_iff] at h
  obtain ⟨⟨⟨⟨⟨hfree, -⟩, ht⟩, hl⟩, hr⟩, hm⟩ := h
  have heq := eq_of_axisFree hfree
  rwa [ht, hl, hr, hm] at heq

theorem eq_of_pureRecord {x : MapSig} (h : d.pureRecord = some x) : d = record x := by
  rw [pureRecord] at h
  split at h
  · exact nomatch h
  rename_i hfree
  rw [Bool.not_eq_true', Bool.not_eq_false] at hfree
  obtain ⟨haxis, hrest⟩ := Option.filter_eq_some_iff.mp h
  simp only [Bool.and_eq_true, List.isEmpty_iff] at hrest
  obtain ⟨⟨⟨ht, hl⟩, hr⟩, hf⟩ := hrest
  have heq := eq_of_axisFree hfree
  rwa [eq_of_singlePositive haxis, ht, hl, hr, hf] at heq

/-! ### Their values -/

theorem mem_lists {cs : List (Conj ListSig)} :
    v ∈ ({ unbranded with lists := cs } : Descr).meaning cx calls ↔
      ∃ vs, v.shape = .list vs ∧ DnfHolds ( ListSig.Holds (cx.meaning calls) vs) cs := by
  rw [mem_meaning]
  cases h : v.shape <;>
    simp [Mem, unbranded, none, BasicBits.none, admits_any, Shape.In, DnfHolds, h]

theorem mem_tuples {cs : List (Conj TupleSig)} :
    v ∈ ({ unbranded with tuples := cs } : Descr).meaning cx calls ↔
      ∃ vs, v.shape = .tuple vs ∧ DnfHolds (TupleSig.Holds (cx.meaning calls) vs) cs := by
  rw [mem_meaning]
  cases h : v.shape <;>
    simp [Mem, unbranded, none, BasicBits.none, admits_any, Shape.In, DnfHolds, h]

theorem mem_resources {cs : List (Conj ResourceSig)} :
    v ∈ ({ unbranded with resources := cs } : Descr).meaning cx calls ↔
      ∃ w, v.shape = .resource w ∧ DnfHolds (ResourceSig.Holds (cx.meaning calls) w) cs := by
  rw [mem_meaning]
  cases h : v.shape <;>
    simp [Mem, unbranded, none, BasicBits.none, admits_any, Shape.In, DnfHolds, h]

theorem mem_funcs {cs : List (Conj ArrowSig)} :
    v ∈ ({ unbranded with funcs := cs } : Descr).meaning cx calls ↔ ∃ f captures,
      v.shape = .fn f captures ∧
        DnfHolds (ArrowSig.Holds calls (cx.meaning calls) f captures) cs := by
  rw [mem_meaning]
  cases h : v.shape <;>
    simp [Mem, unbranded, none, BasicBits.none, admits_any, Shape.In, DnfHolds, h]

theorem mem_maps {cs : List (Conj MapSig)} :
    v ∈ ({ unbranded with maps := cs } : Descr).meaning cx calls ↔ ∃ tag fields,
      v.shape = .map tag fields ∧ DnfHolds (MapSig.Holds (cx.meaning calls) tag fields) cs := by
  rw [mem_meaning]
  cases h : v.shape <;>
    simp [Mem, unbranded, none, BasicBits.none, admits_any, Shape.In, DnfHolds, h]

end Descr

/-! ## Stores without repeats -/

/-- A later store, which has no descriptor twice if the earlier had none. -/
def Continues (s s' : Interning) : Prop := Later s s' ∧ (s.cx.arena.Nodup → s'.cx.arena.Nodup)

namespace Continues

variable {s s' s'' : Interning}

theorem refl (s : Interning) : Continues s s := ⟨.refl s, id⟩

theorem trans (h : Continues s s') (h' : Continues s' s'') : Continues s s'' :=
  ⟨h.1.trans h'.1, fun hs => h'.2 (h.2 hs)⟩

theorem lt (h : Continues s s') {t : Ty} (ht : t < s.cx.arena.length) : t < s'.cx.arena.length :=
  h.1.lt ht

theorem any_eq (h : Continues s s') (hs : s.cx.arena.Nodup) : s'.any = s.any := by
  have hlt := (List.getElem?_eq_some_iff.mp s'.any_eq).1
  refine (List.getElem?_inj hlt (h.2 hs)).mp (s'.any_eq.trans ?_)
  obtain ⟨rest, hrest⟩ := h.1.extends_
  rw [← hrest, List.getElem?_append_left (List.getElem?_eq_some_iff.mp s.any_eq).1, s.any_eq]

end Continues

theorem Interning.any_ne_none (s : Interning) : s.any ≠ s.none := by
  intro h
  have hany := s.any_eq
  rw [h, s.none_eq] at hany
  exact absurd (Option.some.inj hany) (by decide)

theorem Interning.mem_meaning_any (s : Interning) (hcx : s.cx.Extends cx) :
    v ∈ cx.meaning calls s.any := by
  rw [TyCtx.meaning, hcx.descr_eq s.any_spec.1, s.any_spec.2]
  exact Descr.mem_meaning_any v

/-- A type of the store with the values of `a`. -/
structure Widens (a t : Ty) (s : Interning) : Prop where
  lt : t < s.cx.arena.length
  sub : InFinal s fun cx W => ∀ v ∈ cx.meaning W.calls a, v ∈ cx.meaning W.calls t

namespace Widens

variable {a b t : Ty} {s s' : Interning}

theorem refl (ht : t < s.cx.arena.length) : Widens t t s := ⟨ht, fun _ _ _ _ _ hv => hv⟩

theorem trans (h : Widens a b s) (h' : Widens b t s) : Widens a t s :=
  ⟨h'.lt, fun cx hcx W hW v hv => h'.sub cx hcx W hW v (h.sub cx hcx W hW v hv)⟩

theorem later (h : Widens a t s) (hl : Later s s') : Widens a t s' := ⟨hl.lt h.lt, h.sub.later hl⟩

theorem of_any : Widens a s.any s :=
  ⟨s.any_spec.1, fun _ hcx _ _ _ _ => s.mem_meaning_any hcx⟩

theorem of_none : Widens s.none t s ↔ t < s.cx.arena.length :=
  ⟨lt, fun ht => ⟨ht, fun _ hcx W _ v hv => absurd hv (s.meaning_none hcx W v)⟩⟩

end Widens

section Classes

variable (order : ClauseOrder) (rounds : Nat)

theorem wp_internDescr_kept {s : Interning} (hd : s.cx.Knows d) :
    wp (internDescr order rounds d) (fun t s' => Continues s s' ∧ t < s'.cx.arena.length ∧
      InFinal s' fun cx W => Each (Honest cx W.calls) d.funcs →
        ∀ v ∈ d.meaning cx W.calls, v ∈ cx.meaning W.calls t) (fun _ => False) s := by
  let P : SigPred := ⟨fun _ => True, fun _ => True, fun _ => True, fun _ => True, fun _ => True⟩
  have hall : ∀ d : Descr, d.EachSig P := fun d => ⟨Each.of_free (fun _ => trivial) _,
    Each.of_free (fun _ => trivial) _, Each.of_free (fun _ => trivial) _,
    Each.of_free (fun _ => trivial) _, Each.of_free (fun _ => trivial) _⟩
  obtain ⟨t, s', hrun, hl, ht⟩ := (wp_internDescr order rounds hd).exists_ok
  refine wp_of_ok hrun ⟨⟨hl, fun hs => ?_⟩, ht.lt, ht.keeps⟩
  exact ((internKeeps_internAt (P := P) ⟨fun _ => trivial, fun _ => trivial⟩ order rounds
    (d.rank + 2) d (hall d) s ⟨hs, fun t => hall _⟩).ok hrun).distinct

/-! ## Convergence classes -/

theorem wp_internTuple {s : Interning} {elems elems' : List Ty}
    (h : List.Forall₂ (Widens · · s) elems elems') :
    wp (internTuple order rounds elems') (fun t s' => Continues s s' ∧ t < s'.cx.arena.length ∧
      InFinal s' fun cx W => ∀ v ∈ (Descr.tupleOf elems).meaning cx W.calls,
        v ∈ cx.meaning W.calls t) (fun _ => False) s := by
  have hsub : InFinal s fun cx W => ∀ vs ∈ listProd (elems.map (cx.meaning W.calls)),
      vs ∈ listProd (elems'.map (cx.meaning W.calls)) := by
    intro cx hcx W hW
    induction h with
    | nil => exact fun vs hvs => hvs
    | cons hab _ ih =>
      intro vs hvs
      rw [List.map_cons] at hvs ⊢
      cases vs with
      | nil => exact nomatch hvs
      | cons v vs =>
        rw [cons_mem_listProd] at hvs ⊢
        exact ⟨hab.sub cx hcx W hW v hvs.1, ih vs hvs.2⟩
  rw [internTuple, wp_bind, wp_get]
  split
  · rename_i hnone
    refine ⟨.refl s, (List.getElem?_eq_some_iff.mp s.none_eq).1, fun cx hcx W hW v hv => ?_⟩
    obtain ⟨elem, helem, hnone⟩ := List.any_eq_true.mp hnone
    obtain rfl := of_decide_eq_true hnone
    obtain ⟨vs, -, c, hc, hpos, -⟩ := Descr.mem_tuples.mp hv
    rw [List.mem_singleton.mp hc] at hpos
    obtain ⟨w, -, hw⟩ := exists_of_forall₂_right (hsub cx hcx W hW vs (hpos _ (.head _)))
      (List.mem_map_of_mem helem)
    exact absurd hw (s.meaning_none hcx W w)
  · refine (wp_internDescr_kept order rounds (d := .tupleOf elems') ?_).imp ?_
    · exact .tupleOf fun t ht => by
        obtain ⟨a, -, hat⟩ := exists_of_forall₂_right h ht
        exact hat.lt
    · rintro t s' ⟨hk, ht, hkeeps⟩
      refine ⟨hk, ht, fun cx hcx W hW v hv => hkeeps cx hcx W hW nofun v ?_⟩
      obtain ⟨vs, hshape, c, hc, hpos, -⟩ := Descr.mem_tuples.mp hv
      rw [List.mem_singleton.mp hc] at hpos
      refine Descr.mem_tuples.mpr ⟨vs, hshape, _, .head _, fun x hx => ?_, nofun⟩
      rw [List.mem_singleton.mp hx]
      exact (hsub.later hk.1) cx hcx W hW vs (hpos _ (.head _))

theorem wp_internResource {s : Interning} {payload payload' : Ty} (h : Widens payload payload' s) :
    wp (internResource order rounds payload') (fun t s' => Continues s s' ∧ t < s'.cx.arena.length ∧
      InFinal s' fun cx W => ∀ v ∈ (Descr.resourceOf payload).meaning cx W.calls,
        v ∈ cx.meaning W.calls t) (fun _ => False) s := by
  rw [internResource, wp_bind, wp_get]
  split
  · rename_i hnone
    refine ⟨.refl s, (List.getElem?_eq_some_iff.mp s.none_eq).1, fun cx hcx W hW v hv => ?_⟩
    obtain ⟨w, -, c, hc, hpos, -⟩ := Descr.mem_resources.mp hv
    rw [List.mem_singleton.mp hc] at hpos
    have hw := h.sub cx hcx W hW w (hpos _ (.head _))
    rw [hnone] at hw
    exact absurd hw (s.meaning_none hcx W w)
  · refine (wp_internDescr_kept order rounds (d := .resourceOf payload') ?_).imp ?_
    · exact TyCtx.knows_iff.mpr fun t ht => by
        rw [List.mem_singleton.mp ht]
        exact h.lt
    · rintro t s' ⟨hk, ht, hkeeps⟩
      refine ⟨hk, ht, fun cx hcx W hW v hv => hkeeps cx hcx W hW nofun v ?_⟩
      obtain ⟨w, hshape, c, hc, hpos, -⟩ := Descr.mem_resources.mp hv
      rw [List.mem_singleton.mp hc] at hpos
      refine Descr.mem_resources.mpr ⟨w, hshape, _, .head _, fun x hx => ?_, nofun⟩
      rw [List.mem_singleton.mp hx]
      exact (h.sub.later hk.1) cx hcx W hW w (hpos _ (.head _))

theorem wp_internList_any {s : Interning} :
    wp (internList order rounds s.any) (fun t s' => Continues s s' ∧ t < s'.cx.arena.length ∧
      InFinal s' fun cx W => ∀ v vs, v.shape = .list vs → v ∈ cx.meaning W.calls t)
      (fun _ => False) s := by
  rw [internList, wp_bind, wp_get, if_neg s.any_ne_none]
  refine (wp_internDescr_kept order rounds (d := .listSig ⟨true, some s.any⟩) ?_).imp ?_
  · exact TyCtx.knows_iff.mpr fun t ht => by
      rw [List.mem_singleton.mp ht]
      exact s.any_spec.1
  · rintro t s' ⟨hk, ht, hkeeps⟩
    refine ⟨hk, ht, fun cx hcx W hW v vs hshape => hkeeps cx hcx W hW nofun v ?_⟩
    refine Descr.mem_lists.mpr ⟨vs, hshape, _, .head _, fun x hx => ?_, nofun⟩
    rw [List.mem_singleton.mp hx]
    cases vs with
    | nil => rfl
    | cons w ws =>
      exact ⟨s.any, rfl, fun u _ => s.mem_meaning_any (hk.1.extends_.trans hcx)⟩

theorem wp_intern_funTop {s : Interning} :
    wp (internDescr order rounds .funTop) (fun t s' => Continues s s' ∧ t < s'.cx.arena.length ∧
      InFinal s' fun cx W => ∀ v f captures, v.shape = .fn f captures → v ∈ cx.meaning W.calls t)
      (fun _ => False) s := by
  refine (wp_internDescr_kept order rounds
    (TyCtx.knows_iff.mpr fun _ hu => absurd hu List.not_mem_nil)).imp ?_
  rintro t s' ⟨hk, ht, hkeeps⟩
  refine ⟨hk, ht, fun cx hcx W hW v f captures hshape => hkeeps cx hcx W hW ?_ v ?_⟩
  · intro c hc
    rw [List.mem_singleton.mp hc]
    exact ⟨fun _ hx => (nomatch hx), fun _ hx => nomatch hx⟩
  · exact Descr.mem_funcs.mpr ⟨f, captures, hshape, .top, .head _,
      fun _ hx => (nomatch hx), fun _ hx => nomatch hx⟩

theorem wp_intern_record {s : Interning} {sig : MapSig} {values : List Ty}
    (h : List.Forall₂ (fun field t => Widens field.2 t s) sig.fields values) :
    wp (internDescr order rounds (.record (sig.withValues values)))
      (fun t s' => Continues s s' ∧ t < s'.cx.arena.length ∧
        InFinal s' fun cx W => ∀ v ∈ (Descr.record sig).meaning cx W.calls,
          v ∈ cx.meaning W.calls t) (fun _ => False) s := by
  obtain ⟨htag, hfields⟩ := MapSig.replaced_withValues (Q := fun a t => Widens a t s) h
  refine (wp_internDescr_kept order rounds (d := .record (sig.withValues values)) ?_).imp ?_
  · refine ⟨nofun, nofun, nofun, nofun, fun c hc => ?_⟩
    rw [List.mem_singleton.mp hc]
    refine ⟨fun x hx p hp => ?_, nofun⟩
    rw [List.mem_singleton.mp hx] at hp
    obtain ⟨q, -, hqp⟩ := exists_of_forall₂_right hfields hp
    exact hqp.2.lt
  · rintro t s' ⟨hk, ht, hkeeps⟩
    refine ⟨hk, ht, fun cx hcx W hW v hv => hkeeps cx hcx W hW nofun v ?_⟩
    obtain ⟨tag, fields, hshape, c, hc, hpos, -⟩ := Descr.mem_maps.mp hv
    rw [List.mem_singleton.mp hc] at hpos
    obtain ⟨hsame, hvalues⟩ := hpos _ (.head _)
    refine Descr.mem_maps.mpr ⟨tag, fields, hshape, _, .head _, fun x hx => ?_, nofun⟩
    rw [List.mem_singleton.mp hx]
    refine ⟨htag.trans hsame, fun p hp => ?_⟩
    obtain ⟨q, hq, hkey, hqp⟩ := exists_of_forall₂_right hfields hp
    obtain ⟨w, hw, hmem⟩ := hvalues q hq
    exact ⟨w, by rw [hkey]; exact hw, (hqp.sub.later hk.1) cx hcx W hW w hmem⟩

theorem wp_convergenceClassAt_any (n : Nat) {s : Interning} :
    wp (convergenceClassAt order rounds (n + 1) s.any) (fun t s' => t = s.any ∧ s' = s)
      (fun _ => False) s := by
  have hfree : Descr.any.axisFree = false := rfl
  rw [convergenceClassAt, wp_bind, wp_get]
  simp [s.any_spec.2, Descr.asPureList, Descr.pureAxis, Descr.pureTuple, Descr.pureResource,
    Descr.isPureCallable, Descr.pureRecord, hfree]

/-- A convergence class has the values of the type, by induction on the bound of its id.  The
resources at large are read as those of `any`, which converges at once. -/
theorem wp_convergenceClassAt (n : Nat) : ∀ {a : Ty} {s : Interning}, a < n →
    a < s.cx.arena.length → wp (convergenceClassAt order rounds (n + 1) a)
      (fun t s' => Continues s s' ∧ Widens a t s') (fun _ => False) s := by
  induction n with
  | zero => exact fun h => absurd h (Nat.not_lt_zero _)
  | succ n ih =>
    intro a s han ha
    have hchild : (s.cx.descr a).EachSig (.naming fun u => u < n ∧ u < s.cx.arena.length) :=
      Descr.eachChild_iff_eachSig.mp fun u hu =>
        ⟨Nat.lt_of_lt_of_le (s.cx.child_lt ha hu) (Nat.le_of_lt_succ han),
          (s.cx.child_lt ha hu).trans ha⟩
    have hmeaning : ∀ {cx s'} {d : Descr}, Continues s s' → s'.cx.Extends cx → s.cx.descr a = d →
        ∀ {calls v}, v ∈ cx.meaning calls a → v ∈ d.meaning cx calls := by
      intro cx s' d hk hcx hd calls v hv
      rwa [TyCtx.meaning, (hk.1.extends_.trans hcx).descr_eq ha, hd] at hv
    have hlasts : ∀ {a t : Ty} {s s'}, Continues s s' → Widens a t s → Widens a t s' :=
      fun hk h => h.later hk.1
    rw [convergenceClassAt, wp_bind, wp_get]
    dsimp only
    split
    · rename_i hlist
      obtain ⟨x, hx⟩ := Option.isSome_iff_exists.mp hlist
      refine (wp_internList_any order rounds).imp ?_
      rintro t s' ⟨hk, ht, hall⟩
      refine ⟨hk, ht, fun cx hcx W hW v hv => ?_⟩
      obtain ⟨vs, hshape, -⟩ := Descr.mem_lists.mp (hmeaning hk hcx (Descr.eq_of_asPureList hx) hv)
      exact hall cx hcx W hW v vs hshape
    split
    · rename_i sig hsig
      have hd := Descr.eq_of_pureTuple hsig
      rw [hd] at hchild
      have helems := (hchild.tuples _ (.head _)).1 sig (.head _)
      rw [wp_bind]
      refine (wp_mapM (Q := Widens) .refl .trans hlasts sig.elems s fun u hu s₁ h₁ =>
        ih (helems u hu).1 (h₁.lt (helems u hu).2)).imp ?_
      rintro elems s₁ ⟨h₁, hwiden⟩
      refine (wp_internTuple order rounds hwiden).imp ?_
      rintro t s₂ ⟨h₂, ht, hsub⟩
      exact ⟨h₁.trans h₂, ht, fun cx hcx W hW v hv =>
        hsub cx hcx W hW v (hmeaning (h₁.trans h₂) hcx hd hv)⟩
    split
    · rename_i sig hsig
      -- the resources at large have the payload `any`
      have hwiden : wp (convergenceClassAt order rounds (n + 1) sig.payload)
          (fun t s' => Continues s s' ∧ Widens sig.payload t s') (fun _ => False) s := by
        rcases Descr.eq_of_pureResource hsig with hd | ⟨hany, -⟩
        · rw [hd] at hchild
          have hpayload := (hchild.resources _ (.head _)).1 _ (.head _)
          exact ih hpayload.1 hpayload.2
        · rw [hany]
          refine (wp_convergenceClassAt_any order rounds n).imp ?_
          rintro t s' ⟨rfl, rfl⟩
          exact ⟨.refl s', .of_any⟩
      rw [wp_bind]
      refine hwiden.imp ?_
      rintro payload s₁ ⟨h₁, hwiden⟩
      refine (wp_internResource order rounds hwiden).imp ?_
      rintro t s₂ ⟨h₂, ht, hsub⟩
      refine ⟨h₁.trans h₂, ht, fun cx hcx W hW v hv => hsub cx hcx W hW v ?_⟩
      rcases Descr.eq_of_pureResource hsig with hd | ⟨hany, hd⟩
      · exact hmeaning (h₁.trans h₂) hcx hd hv
      · obtain ⟨w, hshape, -⟩ := Descr.mem_resources.mp (hmeaning (h₁.trans h₂) hcx hd hv)
        refine Descr.mem_resources.mpr ⟨w, hshape, _, .head _, fun x hx => ?_, by rintro _ ⟨⟩⟩
        rw [List.mem_singleton.mp hx, hany]
        exact s.mem_meaning_any ((h₁.trans h₂).1.extends_.trans hcx)
    split
    · rename_i hcallable
      refine (wp_intern_funTop order rounds).imp ?_
      rintro t s' ⟨hk, ht, hall⟩
      refine ⟨hk, ht, fun cx hcx W hW v hv => ?_⟩
      obtain ⟨f, captures, hshape, -⟩ :=
        Descr.mem_funcs.mp (hmeaning hk hcx (Descr.eq_of_isPureCallable hcallable) hv)
      exact hall cx hcx W hW v f captures hshape
    split
    · rename_i sig hsig
      have hd := Descr.eq_of_pureRecord hsig
      rw [hd] at hchild
      have hfields := (hchild.maps _ (.head _)).1 sig (.head _)
      rw [wp_bind]
      refine (wp_mapM (Q := fun field t s => Widens field.2 t s) .refl .trans hlasts
        sig.fields s fun field hfield s₁ h₁ =>
          ih (hfields field hfield).1 (h₁.lt (hfields field hfield).2)).imp ?_
      rintro values s₁ ⟨h₁, hvalues⟩
      refine (wp_intern_record order rounds hvalues).imp ?_
      rintro t s₂ ⟨h₂, ht, hsub⟩
      exact ⟨h₁.trans h₂, ht, fun cx hcx W hW v hv =>
        hsub cx hcx W hW v (hmeaning (h₁.trans h₂) hcx hd hv)⟩
    · exact ⟨.refl s, .refl ha⟩

end Classes

end Fz.Types

namespace Fz.Facts

open Fz.Base Fz.Types

/-! ## The store -/

section Store

variable {K : Type} [DecidableEq K] {order : ClauseOrder} {rounds : Nat}

variable {st : ReturnStore K}

omit [DecidableEq K] in
theorem wp_onTypes {α : Type} {m : InternM α} {Q : α → ReturnStore K → Prop} {E : Fault → Prop} :
    wp (onTypes m) Q E st ↔ wp m (fun a s => Q a { st with interning := s }) E st.interning := by
  unfold wp onTypes
  cases m st.interning with
  | ok r => exact Iff.rfl
  | error e => exact Iff.rfl

theorem wp_putSlot {key : K} {slot : ActivationSlot} {Q : Unit → ReturnStore K → Prop}
    {E : Fault → Prop} : wp (putSlot key slot) Q E st ↔ Q () (st.put key slot) := Iff.rfl

/-- The store has no descriptor twice, stored types are of the store, and a remembered join has the
values of both its operands. -/
structure ReturnStore.Sound (st : ReturnStore K) : Prop where
  distinct : st.interning.cx.arena.Nodup
  known : ∀ key t, st.returnTy key = some t → t < st.interning.cx.arena.length
  joins : ∀ p t, (p, t) ∈ st.joins → Widens p.1 t st.interning ∧ Widens p.2 t st.interning

namespace ReturnStore

variable {st : ReturnStore K} {key : K} {slot : ActivationSlot}

omit [DecidableEq K] in
theorem returnTy_eq : st.returnTy key = ((st.slots key).getD .new).returnTy := by
  rw [returnTy]
  cases st.slots key with
  | none => rfl
  | some slot => rfl

theorem returnTy_put : (st.put key slot).returnTy key = slot.returnTy := by
  simp only [returnTy, put, if_pos, Option.bind_some]

theorem returnTy_put_ne {k : K} (h : k ≠ key) : (st.put key slot).returnTy k = st.returnTy k := by
  simp only [returnTy, put, if_neg h]

theorem Sound.put (h : st.Sound)
    (hslot : ∀ t, slot.returnTy = some t → t < st.interning.cx.arena.length) :
    (st.put key slot).Sound where
  distinct := h.distinct
  known k t ht := by
    by_cases hk : k = key
    · rw [hk, returnTy_put] at ht
      exact hslot t ht
    · rw [returnTy_put_ne hk] at ht
      exact h.known k t ht
  joins := h.joins

omit [DecidableEq K] in
theorem Sound.intern (h : st.Sound) {s : Interning} (hk : Continues st.interning s) :
    ({ st with interning := s } : ReturnStore K).Sound where
  distinct := hk.2 h.distinct
  known k t ht := hk.lt (h.known k t ht)
  joins p t hp := ⟨(h.joins p t hp).1.later hk.1, (h.joins p t hp).2.later hk.1⟩

end ReturnStore

/-- A join of two types of the store. -/
structure Joined (st : ReturnStore K) (a b t : Ty) (st' : ReturnStore K) : Prop where
  kept : Continues st.interning st'.interning
  sound : st'.Sound
  slots : st'.slots = st.slots
  left : Widens a t st'.interning
  right : Widens b t st'.interning

omit [DecidableEq K] in
theorem wp_rememberedUnion (hst : st.Sound) {a b : Ty}
    (ha : a < st.interning.cx.arena.length) (hb : b < st.interning.cx.arena.length) :
    wp (rememberedUnion order rounds a b) (Joined st a b) (fun _ => False) st := by
  rw [rememberedUnion, wp_bind, wp_get]
  split
  · rename_i hab
    subst hab
    exact ⟨.refl _, hst, rfl, .refl ha, .refl ha⟩
  split
  · rename_i hnone
    subst hnone
    exact ⟨.refl _, hst, rfl, Widens.of_none.mpr hb, .refl hb⟩
  split
  · rename_i hnone
    subst hnone
    exact ⟨.refl _, hst, rfl, .refl ha, Widens.of_none.mpr ha⟩
  dsimp only
  split
  · rename_i t ht
    obtain ⟨before, after, hmem, -⟩ := List.lookup_eq_some_iff.mp ht
    have h := hst.joins _ t (hmem ▸ List.mem_append_right _ (.head _))
    split at h
    · exact ⟨.refl _, hst, rfl, h.1, h.2⟩
    · exact ⟨.refl _, hst, rfl, h.2, h.1⟩
  · rw [wp_bind, wp_onTypes]
    refine (wp_internDescr_kept order rounds ((st.interning.cx.knows_descr a).union
      (st.interning.cx.knows_descr b))).imp ?_
    rintro t s ⟨hk, ht, hkeeps⟩
    rw [wp_bind, wp_modify]
    have hmem : ∀ cx, s.cx.Extends cx → ∀ W : World cx, (∀ r ∈ s.rewrites, r.Sound cx W.calls) →
        ∀ v, v ∈ cx.meaning W.calls a ∨ v ∈ cx.meaning W.calls b → v ∈ cx.meaning W.calls t := by
      intro cx hcx W hW v hv
      refine hkeeps cx hcx W hW ?_ v ?_
      · exact (FromArena.union (.descr _ a) (.descr _ b)).honest (hk.1.extends_.trans hcx) W
      · rw [Descr.mem_meaning]
        refine Descr.mem_union_of_mem ?_
        rw [← (hk.1.extends_.trans hcx).descr_eq ha, ← (hk.1.extends_.trans hcx).descr_eq hb]
        exact hv.imp Descr.mem_meaning.mp Descr.mem_meaning.mp
    have hleft : Widens a t s := ⟨ht, fun cx hcx W hW v hv => hmem cx hcx W hW v (.inl hv)⟩
    have hright : Widens b t s := ⟨ht, fun cx hcx W hW v hv => hmem cx hcx W hW v (.inr hv)⟩
    refine ⟨hk, ?_, rfl, hleft, hright⟩
    refine ⟨(hst.intern hk).distinct, (hst.intern hk).known, fun p u hp => ?_⟩
    rcases List.mem_cons.mp hp with hp | hp
    · obtain ⟨rfl, rfl⟩ := Prod.mk.inj hp
      split
      · exact ⟨hleft, hright⟩
      · exact ⟨hright, hleft⟩
    · exact (hst.intern hk).joins p u hp

/-! ## One definition -/

/-- The changes an activation has left.  One definition past twice the budget is the last. -/
def ReturnStore.left (st : ReturnStore K) (key : K) : Nat :=
  if ((st.slots key).getD .new).returnTy = some st.interning.any ∧
      2 * returnWideningBudget < ((st.slots key).getD .new).ascents then 0
  else 2 * returnWideningBudget - ((st.slots key).getD .new).ascents + 1

/-- What a definition that does not rebase comes to. -/
structure Defined (key : K) (evidence : Option Ty) (st : ReturnStore K) (out : ReturnDefine)
    (st' : ReturnStore K) : Prop where
  kept : Continues st.interning st'.interning
  sound : st'.Sound
  others : ∀ k, k ≠ key → st'.slots k = st.slots k
  absent : evidence = none → st'.returnTy key = st.returnTy key
  climbs : ∀ old, st.returnTy key = some old → ∃ t, st'.returnTy key = some t ∧
    Widens old t st'.interning
  covers : ∀ e, evidence = some e → ∃ t, st'.returnTy key = some t ∧ Widens e t st'.interning
  left : st'.left key + out.changed.toNat ≤ st.left key

namespace Defined

variable {st st₁ : ReturnStore K} {key : K} {evidence : Option Ty}

theorem same {ascents : Nat} (hk : Continues st.interning st₁.interning) (hst : st.Sound)
    (hst₁ : st₁.Sound) (hslots : st₁.slots = st.slots)
    (hcovers : ∀ e, evidence = some e → ∃ t, st.returnTy key = some t ∧ Widens e t st₁.interning) :
    Defined key evidence st ⟨false, ascents, false⟩ (st₁.put key ((st.slots key).getD .new)) := by
  have hty : (st₁.put key ((st.slots key).getD .new)).returnTy key = st.returnTy key := by
    rw [ReturnStore.returnTy_put, ReturnStore.returnTy_eq]
  have hknown : ∀ t, st.returnTy key = some t → t < st₁.interning.cx.arena.length :=
    fun t ht => hk.lt (hst.known key t ht)
  refine ⟨hk, hst₁.put fun t ht => hknown t ?_, fun k hne => ?_, fun _ => hty, fun old hold => ?_,
    fun e he => ?_, ?_⟩
  · rwa [ReturnStore.returnTy_eq]
  · show (if k = key then _ else st₁.slots k) = _
    rw [if_neg hne, hslots]
  · exact ⟨old, hty.trans hold, .refl (hknown old hold)⟩
  · rw [hty]
    exact hcovers e he
  · simp only [ReturnStore.left, ReturnStore.put, if_pos, Option.getD_some, Bool.toNat_false,
      Nat.add_zero, hk.any_eq hst.distinct, le_refl]

theorem ascended {stored joined : Ty} {ascents : Nat} {widened : Bool}
    (hk : Continues st.interning st₁.interning) (hst : st.Sound) (hst₁ : st₁.Sound)
    (hslots : st₁.slots = st.slots)
    (hold : ∀ old, st.returnTy key = some old → Widens old joined st₁.interning)
    (he : ∀ e, evidence = some e → Widens e joined st₁.interning) (hpresent : evidence ≠ none)
    (hstored : Widens joined stored st₁.interning)
    (hascents : ascents = ((st.slots key).getD .new).ascents + 1)
    (htop : 2 * returnWideningBudget < ascents → stored = st.interning.any) :
    Defined key evidence st ⟨((st.slots key).getD .new).returnTy ≠ some stored, ascents, widened⟩
      (st₁.put key ⟨some stored, ascents⟩) := by
  have hty : (st₁.put key ⟨some stored, ascents⟩).returnTy key = some stored :=
    ReturnStore.returnTy_put
  refine ⟨hk, hst₁.put fun t ht => ?_, fun k hne => ?_, fun h => absurd h hpresent,
    fun old h => ⟨stored, hty, (hold old h).trans hstored⟩,
    fun e h => ⟨stored, hty, (he e h).trans hstored⟩, ?_⟩
  · rw [← Option.some.inj ht]
    exact hstored.lt
  · show (if k = key then _ else st₁.slots k) = _
    rw [if_neg hne, hslots]
  · have hany : st₁.interning.any = st.interning.any := hk.any_eq hst.distinct
    simp only [ReturnStore.left, ReturnStore.put, if_pos, Option.getD_some, hany]
    generalize (st.slots key).getD .new = slot at *
    by_cases hlast : 2 * returnWideningBudget < ascents
    · rw [if_pos ⟨congrArg some (htop hlast), hlast⟩, htop hlast]
      by_cases hsame : slot.returnTy = some st.interning.any
      · simp [hsame]
      · simp [hsame, Bool.toNat]
    · rw [if_neg fun h => hlast h.2, if_neg (by omega)]
      have hbool := Bool.toNat_le (decide (slot.returnTy ≠ some stored))
      omega

end Defined

omit [DecidableEq K] in
theorem wp_joinedReturn (hst : st.Sound) {current : Option Ty} {next : Ty}
    (hnext : next < st.interning.cx.arena.length)
    (hcurrent : ∀ t, current = some t → t < st.interning.cx.arena.length) :
    wp (joinedReturn order rounds current next) (fun joined st₁ =>
      Continues st.interning st₁.interning ∧ st₁.Sound ∧ st₁.slots = st.slots ∧
      (∀ old, current = some old → Widens old joined st₁.interning) ∧
      Widens next joined st₁.interning) (fun _ => False) st := by
  cases current with
  | none => exact ⟨.refl _, hst, rfl, nofun, .refl hnext⟩
  | some current =>
    refine (wp_rememberedUnion hst (hcurrent current rfl) hnext).imp ?_
    rintro joined st₁ h
    exact ⟨h.kept, h.sound, h.slots, fun old hold => Option.some.inj hold ▸ h.left, h.right⟩

omit [DecidableEq K] in
theorem wp_storedReturn (hst : st.Sound) {ascents : Nat} {joined : Ty}
    (hjoined : joined < st.interning.cx.arena.length) :
    wp (storedReturn order rounds ascents joined) (fun stored st₁ =>
      Continues st.interning st₁.interning ∧ st₁.Sound ∧ st₁.slots = st.slots ∧
      Widens joined stored st₁.interning ∧
      (2 * returnWideningBudget < ascents → stored = st.interning.any)) (fun _ => False) st := by
  rw [storedReturn, wp_bind, wp_get]
  split
  · exact ⟨.refl _, hst, rfl, .of_any, fun _ => rfl⟩
  rename_i hlast
  split
  · rw [wp_onTypes]
    refine (wp_convergenceClassAt order rounds (joined + 1) (Nat.lt_succ_self _) hjoined).imp ?_
    rintro stored s ⟨hk, hwidens⟩
    exact ⟨hk, hst.intern hk, rfl, hwidens, fun h => absurd h hlast⟩
  · exact ⟨.refl _, hst, rfl, .refl hjoined, fun h => absurd h hlast⟩

/-- One definition, without a rebase. -/
theorem wp_defineReturn (hst : st.Sound) {key : K} {evidence : Option Ty}
    (hknown : st.Known evidence) :
    wp (defineReturn order rounds key evidence false) (Defined key evidence st)
      (fun _ => False) st := by
  rw [defineReturn, wp_bind, wp_get, if_neg Bool.false_ne_true]
  split
  · rw [wp_bind, wp_putSlot]
    exact .same (.refl _) hst hst rfl nofun
  rename_i next
  have hnext : next < st.interning.cx.arena.length := hknown next rfl
  split
  · rename_i hsame
    rw [wp_bind, wp_putSlot]
    refine .same (.refl _) hst hst rfl fun e he => ?_
    rw [← Option.some.inj he, ReturnStore.returnTy_eq]
    exact ⟨next, hsame, .refl hnext⟩
  rw [wp_bind]
  refine (wp_joinedReturn hst hnext fun current hc => ?_).imp ?_
  · exact hst.known key current (ReturnStore.returnTy_eq.trans hc)
  rintro joined st₁ ⟨hk, hst₁, hslots, hold, hright⟩
  rw [← ReturnStore.returnTy_eq] at hold
  have hcovers : ∀ {t s}, Widens next t s → ∀ e, some next = some e → Widens e t s :=
    fun h e he => Option.some.inj he ▸ h
  split
  · rename_i hsame
    rw [wp_bind, wp_putSlot]
    refine .same hk hst hst₁ hslots fun e he => ⟨joined, ?_, hcovers hright e he⟩
    rwa [ReturnStore.returnTy_eq]
  dsimp only
  rw [wp_bind]
  refine (wp_storedReturn hst₁ hright.lt).imp ?_
  rintro stored st₂ ⟨hk₂, hst₂, hslots₂, hstored, htop⟩
  rw [wp_bind, wp_putSlot]
  refine .ascended (hk.trans hk₂) hst hst₂ (hslots₂.trans hslots)
    (fun old h => (hold old h).later hk₂.1) (fun e he => (hcovers hright e he).later hk₂.1) nofun
    hstored rfl fun h => (htop h).trans (hk.any_eq hst.distinct)

/-! ## Runs -/

omit [DecidableEq K] in
theorem ReturnStore.left_eq {st st' : ReturnStore K} {key : K}
    (hslots : st'.slots key = st.slots key) (hany : st'.interning.any = st.interning.any) :
    st'.left key = st.left key := by
  rw [left, left, hslots, hany]

variable {reports : List (K × ReturnDefine)}

theorem changes_append {key k : K} {out : ReturnDefine} : changes k (reports ++ [(key, out)]) =
      changes k reports + if key = k then out.changed.toNat else 0 := by
  rw [changes, List.countP_append, ← changes, List.countP_singleton]
  by_cases hk : key = k <;> cases out.changed <;> simp [hk]

theorem changes_filter {key k : K} : changes k (reports.filter fun report => report.1 ≠ key) =
      if k = key then 0 else changes k reports := by
  rw [changes, List.countP_filter]
  split
  · rename_i hk
    exact List.countP_eq_zero.mpr fun report _ => by simp +contextual [hk]
  · rename_i hk
    refine List.countP_congr fun report _ => ?_
    by_cases hreport : report.1 = k <;> simp [hreport, hk]

/-- What holds after every run. -/
structure Ladder (types : Types) (reports : List (K × ReturnDefine)) (st : ReturnStore K) :
    Prop where
  later : Later ⟨types, []⟩ st.interning
  sound : st.Sound
  left : ∀ key, st.left key + changes key reports ≤ 2 * returnWideningBudget + 1

theorem ReturnRun.ladder {types : Types} (hdistinct : types.cx.arena.Nodup)
    (h : ReturnRun order rounds types reports st) : Ladder types reports st := by
  induction h with
  | start => exact ⟨.refl _, ⟨hdistinct, nofun, nofun⟩, fun key => le_rfl⟩
  | @define reports st st' key evidence out h hknown hrun ih =>
    have hdef := (wp_defineReturn ih.sound hknown).ok hrun
    refine ⟨ih.later.trans hdef.kept.1, hdef.sound, fun k => ?_⟩
    rw [changes_append]
    have hleft := ih.left k
    by_cases hk : key = k
    · rw [if_pos hk]
      subst hk
      have := hdef.left
      omega
    · rw [if_neg hk, Nat.add_zero, ReturnStore.left_eq (hdef.others k (Ne.symm hk))
        (hdef.kept.any_eq ih.sound.distinct)]
      exact hleft
  | @rebase reports st st' key evidence out h hknown hrun ih =>
    have hwp : wp (defineReturn order rounds key evidence true)
        (fun _ st' => st' = st.put key ⟨evidence, 0⟩) (fun _ => False) st := by
      rw [defineReturn, wp_bind, wp_get, if_pos rfl, wp_bind, wp_putSlot]
      exact rfl
    obtain rfl := hwp.ok hrun
    refine ⟨ih.later, ih.sound.put hknown, fun k => ?_⟩
    rw [changes_filter]
    by_cases hk : k = key
    · have hfresh : (st.put key ⟨evidence, 0⟩).left k = 2 * returnWideningBudget + 1 := by
        simp only [ReturnStore.left, ReturnStore.put, if_pos hk, Option.getD_some, Nat.not_lt_zero,
          and_false, if_false, Nat.sub_zero]
      rw [if_pos hk, hfresh]
    · have hsame : (st.put key ⟨evidence, 0⟩).left k = st.left k :=
        ReturnStore.left_eq (if_neg hk) rfl
      rw [if_neg hk, hsame]
      exact ih.left k
  | @intern reports st st' d t h hknown hrun ih =>
    have hwp : wp (onTypes (internDescr order rounds d)) (fun _ st' =>
        Continues st.interning st'.interning ∧ st'.Sound ∧ st'.slots = st.slots)
        (fun _ => False) st := by
      rw [wp_onTypes]
      refine (wp_internDescr_kept order rounds (TyCtx.knows_iff.mpr hknown)).imp ?_
      rintro t s ⟨hk, -, -⟩
      exact ⟨hk, ih.sound.intern hk, rfl⟩
    obtain ⟨hk, hsound, hslots⟩ := hwp.ok hrun
    refine ⟨ih.later.trans hk.1, hsound, fun k => ?_⟩
    rw [ReturnStore.left_eq (congrFun hslots k) (hk.any_eq ih.sound.distinct)]
    exact ih.left k
  | @union reports st st' a b t h ha hb hrun ih =>
    have hjoin := (wp_rememberedUnion ih.sound ha hb).ok hrun
    refine ⟨ih.later.trans hjoin.kept.1, hjoin.sound, fun k => ?_⟩
    rw [ReturnStore.left_eq (congrFun hjoin.slots k) (hjoin.kept.any_eq ih.sound.distinct)]
    exact ih.left k

end Store

section Sample

/-- Two definitions for one activation in a row. -/
def twoDefinitions (types : Types) (a b : Ty) :
    Except Fault ((ReturnDefine × ReturnStore Unit) × ReturnDefine × ReturnStore Unit) := do
  let first ← defineReturn (storageOrder []) 8 () (some a) false (.start types)
  let second ← defineReturn (storageOrder []) 8 () (some b) false first.2
  pure (first, second)

theorem twoDefinitions_spec {types : Types} {a b : Ty}
    {p : (ReturnDefine × ReturnStore Unit) × ReturnDefine × ReturnStore Unit → Bool}
    (h : (twoDefinitions types a b).toOption.any p = true) : ∃ out st out' st',
      defineReturn (storageOrder []) 8 () (some a) false (.start types) = .ok (out, st) ∧
      defineReturn (storageOrder []) 8 () (some b) false st = .ok (out', st') ∧
      p ((out, st), out', st') = true := by
  obtain ⟨⟨⟨out, st⟩, out', st'⟩, hrun, hp⟩ := exists_ok_of_any h
  rw [twoDefinitions] at hrun
  cases hfirst : defineReturn (storageOrder []) 8 () (some a) false (.start types) with
  | error _ =>
    rw [hfirst] at hrun
    exact nomatch hrun
  | ok first =>
    cases hsecond : defineReturn (storageOrder []) 8 () (some b) false first.2 with
    | error _ =>
      simp only [hfirst, hsecond, bind, Except.bind] at hrun
      exact nomatch hrun
    | ok second =>
      simp only [hfirst, hsecond, bind, Except.bind, pure, Except.pure, Except.ok.injEq,
        Prod.mk.injEq] at hrun
      obtain ⟨rfl, rfl⟩ := hrun
      exact ⟨out, st, out', st', rfl, hsecond, hp⟩

/-- What interning these in turn leaves, with `{7, 12} | {8, 10} | {8, 11} | {9, 4} | {6, 6}` for
the tuples of type 13, and type 16 as the lists of type 14 that are not lists of type 13. -/
def cutPairs : List Descr :=
  [.none, .any, kinds ⟨false, true, false⟩ .any, kinds ⟨false, false, true⟩ .any,
    kinds ⟨true, false, false⟩ .any, kinds ⟨false, true, true⟩ .any,
    { Descr.unbranded with funcs := [.top] }, .tupleOf [2], .tupleOf [3], .tupleOf [5],
    { Descr.tupleOf [2] with brands := .lit "m" }, { Descr.tupleOf [3] with brands := .lit "m" },
    { Descr.tupleOf [5] with brands := .lit "m" },
    { Descr.unbranded with
        lists := [.posOf ⟨true, some 2⟩],
        tuples := [.posOf ⟨[6, 6]⟩, .posOf ⟨[7, 12]⟩, .posOf ⟨[8, 12]⟩, .posOf ⟨[9, 4]⟩] },
    { Descr.unbranded with
        lists := [.posOf ⟨true, some 2⟩, .posOf ⟨false, some 3⟩]
        tuples := [.top] },
    { Descr.unbranded with
        lists := [.posOf ⟨true, some 2⟩],
        tuples := [.posOf ⟨[6, 6]⟩, .posOf ⟨[9, 12]⟩, .posOf ⟨[9, 4]⟩] },
    { Descr.unbranded with lists := [⟨[⟨true, some 14⟩], [⟨false, some 15⟩]⟩] }]

def cutTypes : Types where
  cx := {
    arena := cutPairs
    children_lt := by
      intro t d h s hs
      have hall : cutPairs.zipIdx.all (fun p => p.1.children.all fun s => s < p.2) = true := by
        decide
      have hmem : (d, t) ∈ cutPairs.zipIdx := by simpa [List.mem_zipIdx_iff_getElem?] using h
      exact of_decide_eq_true (List.all_eq_true.mp (List.all_eq_true.mp hall _ hmem) s hs) }
  none := 0
  any := 1
  none_eq := rfl
  any_eq := rfl

/-- A pair of tuples of an integer, neither under a brand. -/
def plainPair : Val :=
  .mk none (.tuple [.mk none (.tuple [.mk none (.int 0)]), .mk none (.tuple [.mk none (.int 0)])])

end Sample

end Fz.Facts
