import Fz.Types.InternSound
import Fz.Types.OrderInjective
import Fz.Types.SubtypeOrder

/-!
# What interning keeps of the arena

A run of interning only pushes descriptors, each of them new, and made of the signatures that the
arena and the given descriptor have on the resource, function and map axes.  So it keeps the arena
free of repeats, and keeps what every such signature has in common (`KeepsArena`).  Whatever it
starts from, a store that interning built is canonical (`Built.canonical`).
-/

set_option linter.dupNamespace false

namespace Fz.Types

open Fz.Base

/-- The descriptors of the arena are distinct, and their signatures have a property. -/
structure ArenaHas (P : SigPred) (cx : TyCtx) : Prop where
  distinct : cx.arena.Nodup
  sigs : ∀ t, (cx.descr t).EachSig P

/-- A computation on the store that keeps such an arena, whether it succeeds or not. -/
def KeepsArena {α : Type} (P : SigPred) (m : InternM α) : Prop :=
  ∀ s : Interning, ArenaHas P s.cx → wp m (fun _ s' => ArenaHas P s'.cx) (fun _ => True) s

section Keeps

variable {P : SigPred} {intern : Descr → InternM Ty}

theorem keepsArena_pure {α : Type} (a : α) : KeepsArena P (pure a) := fun _ h => h

theorem keepsArena_bind {α β : Type} {m : InternM α} {f : α → InternM β} (hm : KeepsArena P m)
    (hf : ∀ a, KeepsArena P (f a)) : KeepsArena P (m >>= f) := by
  intro s hs
  rw [wp_bind]
  exact (hm s hs).imp fun a s' hs' => hf a s' hs'

theorem keepsArena_mapM {α β : Type} {f : α → InternM β} {xs : List α}
    (hf : ∀ x ∈ xs, KeepsArena P (f x)) : KeepsArena P (xs.mapM f) := by
  intro s hs
  have htrans : ∀ {a b c : Interning}, (ArenaHas P a.cx → ArenaHas P b.cx) →
      (ArenaHas P b.cx → ArenaHas P c.cx) → ArenaHas P a.cx → ArenaHas P c.cx :=
    fun h h' ha => h' (h ha)
  refine (wp_mapM (R := fun s s' => ArenaHas P s.cx → ArenaHas P s'.cx) (Q := fun _ _ _ => True)
    (fun _ h => h) htrans (fun _ _ => trivial) xs s fun x hx s' hs' => ?_).imp fun _ s' h => h.1 hs
  exact (hf x hx s' (hs' hs)).imp fun _ _ h => ⟨fun _ => h, trivial⟩

/-- The axes that normalisation writes anew are unconstrained. -/
structure SigPred.Free (P : SigPred) : Prop where
  tuple : ∀ s, P.tuple s
  list : ∀ s, P.list s

/-- Interning keeps the arena, on descriptors whose signatures have the property. -/
def InternKeeps (P : SigPred) (intern : Descr → InternM Ty) : Prop :=
  ∀ d : Descr, d.EachSig P → KeepsArena P (intern d)

theorem Each.of_free {T : Type} {Q : T → Prop} (h : ∀ s, Q s) (cs : List (Conj T)) : Each Q cs :=
  fun _ _ => ⟨fun s _ => h s, fun s _ => h s⟩

theorem keepsArena_difference (hI : InternKeeps P intern) (a b : Ty) :
    KeepsArena P (difference intern a b) := by
  intro s hs
  rw [difference, wp_bind, wp_get]
  split
  · exact hs
  split
  · exact hs
  split
  · exact hs
  · rw [wp_bind, wp_set]
    exact hI _ ((hs.sigs a).diff (hs.sigs b)) _ hs

theorem keepsArena_tupleClause (hI : InternKeeps P intern) (c : Conj TupleSig) :
    KeepsArena P (normalizeTupleCoordinateDifference intern c) := by
  intro s hs
  rw [normalizeTupleCoordinateDifference, wp_bind, wp_get]
  split
  · split
    · exact hs
    split
    · exact hs
    split
    · exact keepsArena_bind (keepsArena_difference hI _ _) (fun _ => keepsArena_pure _) s hs
    · exact hs
  · exact hs

theorem keepsArena_internRect (hI : InternKeeps P intern) {rect : Rect}
    (hrect : ∀ d, .built d ∈ rect → d.EachSig P) : KeepsArena P (internRect intern rect) := by
  refine keepsArena_bind (keepsArena_mapM fun c hc => ?_) fun _ => keepsArena_pure _
  cases c with
  | interned t => exact keepsArena_pure t
  | built d => exact hI d (hrect d hc)

theorem keepsArena_tuples (hI : InternKeeps P intern) (rounds : Nat)
    (clauses : List (Conj TupleSig)) : KeepsArena P (normalizeTupleAxis rounds intern clauses) := by
  refine keepsArena_bind (keepsArena_mapM fun c _ => keepsArena_tupleClause hI c) fun clauses => ?_
  intro s hs
  rw [wp_bind, wp_get]
  dsimp only
  rw [wp_bind, wp_set]
  refine keepsArena_bind (keepsArena_mapM fun rect hrect => keepsArena_internRect hI ?_)
    (fun _ => keepsArena_pure _) _ hs
  intro d hd
  have hjoin : JoinClosed s.cx fun c => (c.descr s.cx).EachSig P :=
    ⟨fun _ _ ha hb => ha.union hb, fun _ hc => .union .none hc⟩
  refine (eachCoord_fuseTupleRects hjoin ?_).1 rect hrect _ hd
  intro rect' hrect' c hc
  obtain ⟨sig, -, rfl⟩ := List.mem_map.mp hrect'
  obtain ⟨t, -, rfl⟩ := List.mem_map.mp hc
  exact hs.sigs t

theorem keepsArena_listNormalForm (hI : InternKeeps P intern) (c : Conj ListSig) :
    KeepsArena P (listNormalForm intern c) := by
  intro s hs
  rw [ listNormalForm, wp_bind, wp_get]
  split
  · exact hs
  split
  · exact hs
  split
  · exact hs
  split
  · exact hs
  · rename_i den hden
    rw [ listClauseOf]
    split
    · exact hs
    · rename_i elem minus hne
      have hmade := listDenotation_of_forall (Q := fun d => d.EachSig P)
        (fun a b ha hb => ha.intersect hb) .any (fun _ _ t _ => hs.sigs t) hden hne
      exact keepsArena_bind (hI _ hmade.1)
        (fun _ => keepsArena_bind (keepsArena_mapM fun cut hcut => hI _ (hmade.2 cut hcut))
          fun _ => keepsArena_pure _) s hs

theorem ArenaHas.push {s : Interning} (hs : ArenaHas P s.cx) {d : Descr} (hd : d.EachSig P)
    (hnew : d ∉ s.cx.arena) (h : ∀ t ∈ d.children, t < s.cx.arena.length) :
    ArenaHas P (s.push d h).cx := by
  have harena : (s.push d h).cx.arena = s.cx.arena ++ [d] := rfl
  constructor
  · rw [harena, List.nodup_append]
    refine ⟨hs.distinct, List.nodup_singleton d, fun x hx y hy heq => ?_⟩
    rw [heq, List.mem_singleton.mp hy] at hx
    exact hnew hx
  · intro t
    rw [TyCtx.descr, harena]
    rcases Nat.lt_trichotomy t s.cx.arena.length with ht | rfl | ht
    · rw [List.getD_append _ _ _ _ ht]
      exact hs.sigs t
    · rw [List.getD_append_right _ _ _ _ le_rfl, Nat.sub_self]
      exact hd
    · rw [List.getD_eq_default _ _ (by simp; omega)]
      exact .none

theorem keepsArena_internNormal {d : Descr} (hd : d.EachSig P) : KeepsArena P (internNormal d) := by
  intro s hs
  rw [internNormal, wp_bind, wp_get]
  split
  · exact hs
  · rename_i hnone
    split
    · rw [wp_bind, wp_set]
      refine hs.push hd (fun hmem => ?_) _
      have hsome := List.isSome_idxOf?.mpr hmem
      rw [TyCtx.lookup] at hnone
      rw [hnone] at hsome
      cases hsome
    · exact trivial

theorem internKeeps_internAt (hP : P.Free) (order : ClauseOrder) (rounds : Nat) :
    ∀ n, InternKeeps P (internAt order rounds n) := by
  intro n
  induction n with
  | zero => exact fun _ _ _ _ => trivial
  | succ n ih =>
    intro d hd s hs
    rw [internAt, wp_bind, wp_get]
    split
    · exact hs
    refine keepsArena_bind (keepsArena_tuples ih rounds _) (fun tuples => keepsArena_bind
      (keepsArena_bind (keepsArena_mapM fun c _ => keepsArena_listNormalForm ih c)
        fun _ => keepsArena_pure _) fun lists s' hs' => ?_) s hs
    rw [wp_bind, wp_get]
    refine keepsArena_internNormal (Descr.EachSig.settle ?_) s' hs'
    exact ⟨.of_free hP.tuple _, .of_free hP.list _, hd.resources, hd.funcs, hd.maps⟩

end Keeps

/-! ## Stores that interning built -/

/-- The maps of a descriptor are in order. -/
def SigPred.mapsInOrder : SigPred where
  tuple _ := True
  list _ := True
  resource _ := True
  arrow _ := True
  map := MapSig.InOrder

/-- A store that some run of internings built, each with the paths known at the time. -/
inductive Types.Built : Types → Prop where
  | core (types : Types) : types.cx.arena = [Descr.none, Descr.any] → Built types
  | intern {types : Types} {order : ClauseOrder} {rounds : Nat} {d : Descr} {t : Ty}
      {s : Interning} : Built types → Each MapSig.InOrder d.maps →
      types.intern order rounds d = .ok (t, s) → Built s.toTypes

theorem Types.Built.canonical {types : Types} (h : types.Built) : types.cx.Canonical := by
  have hkeeps : ArenaHas .mapsInOrder types.cx := by
    have hmaps : ∀ {d : Descr}, Each MapSig.InOrder d.maps → d.EachSig .mapsInOrder := fun h =>
      ⟨.of_free (fun _ => trivial) _, .of_free (fun _ => trivial) _, .of_free (fun _ => trivial) _,
        .of_free (fun _ => trivial) _, h⟩
    induction h with
    | core types hcore =>
      constructor
      · rw [hcore]
        decide
      · intro t
        rw [TyCtx.descr, hcore]
        match t with
        | 0 => exact .none
        | 1 => exact .any
        | t + 2 => exact .none
    | intern hbuilt hd hrun ih =>
      exact (internKeeps_internAt ⟨fun _ => trivial, fun _ => trivial⟩ _ _ _ _ (hmaps hd) _ ih).ok
        hrun
  exact ⟨hkeeps.distinct, fun t => (hkeeps.sigs t).maps⟩

theorem Types.Built.canonical_kinds : ∃ t s,
    coreTypes.intern (storageOrder []) 8 (kinds ⟨false, true, false⟩ .any) = .ok (t, s) ∧
      s.toTypes.cx.Canonical := by
  have hcheck : (coreTypes.intern (storageOrder []) 8
      (kinds ⟨false, true, false⟩ .any)).toOption.any (fun _ => true) = true := by
    decide +kernel
  obtain ⟨⟨t, s⟩, hrun, -⟩ := exists_ok_of_any hcheck
  exact ⟨t, s, hrun, Types.Built.canonical (.intern (.core _ rfl) (by rintro _ ⟨⟩) hrun)⟩

end Fz.Types
