import Fz.Base.List
import Fz.Types.AxisSound

/-!
# Carving tuples

Rectangles are products.  Fusing two of them that differ in one coordinate gives their union, if
the union of the two coordinates is one (`Rewrite.Sound`): the join of two descriptors that differ
in brand slot and in structure is a hull, and has more values than the two together.  Widening a
coordinate is licensed by a query, and never changes the union of the rectangles, hull or not.
-/

namespace Fz.Types

open Fz.Base

variable {cx : TyCtx} {calls : Calls}

/-! ## Exact joins and differences -/

/-- The computed coordinate has the values it stands for.  The other inclusions always hold. -/
def Rewrite.Sound (cx : TyCtx) (calls : Calls) : Rewrite → Prop
  | join a b => ∀ v ∈ (a.union b).meaning cx calls, v ∈ a.meaning cx calls ∨ v ∈ b.meaning cx calls
  | cut a b => ∀ v ∈ (a.diff b).meaning cx calls, v ∉ b.meaning cx calls

/-- The two descriptors agree on one factor or one of them is the result: a join is then no proper
hull, and a difference takes away what it should. -/
def Rewrite.exact (cx : TyCtx) : Rewrite → Bool
  | join a b =>
    a.brands = b.brands || a.sameStructureByConstruction b || a.looksEmpty || b.looksEmpty ||
      (a.union b).isSubtype cx a || (a.union b).isSubtype cx b
  | cut a b =>
    b.brands.containsAll a.brands || !a.brands.overlaps b.brands ||
      a.sameStructureByConstruction b || (a.intersect b).isEmpty cx

namespace Descr

variable {a b : Descr} {v : Val}

theorem mem_union_of_sameStructure {M : Ty → Set Val} (h : a.sameStructureByConstruction b = true) :
    (a.union b).Mem calls M v ↔ a.Mem calls M v ∨ b.Mem calls M v := by
  by_cases he : a.looksEmpty = true ∨ b.looksEmpty = true
  · exact mem_union_of_looksEmpty he
  obtain ⟨hea, heb⟩ := not_or.mp he
  rw [Mem, in_union _ hea heb, brands_union hea heb, admits_union, Bool.or_eq_true,
    in_of_sameStructure h, or_self, or_and_right, Mem, Mem, in_of_sameStructure h]

theorem mem_diff_of_not_overlaps {M : Ty → Set Val} (hcov : ¬b.brands.containsAll a.brands = true)
    (h : a.brands.overlaps b.brands = false) (hv : (a.diff b).Mem calls M v) :
    ¬b.Mem calls M v := by
  rw [diff, if_neg hcov, h] at hv
  intro hb
  rw [Mem, admits_of_not_overlaps h hv.1] at hb
  cases hb.1

theorem not_mem_of_mem_diff_sameStructure {M : Ty → Set Val}
    (hcov : ¬b.brands.containsAll a.brands = true) (hover : ¬(!a.brands.overlaps b.brands) = true)
    (h : a.sameStructureByConstruction b = true) (hv : (a.diff b).Mem calls M v) :
    ¬b.Mem calls M v := by
  rw [diff, if_neg hcov, if_neg hover, if_pos h] at hv
  have hslot : admits (a.brands.intersect b.brands.neg) v.brand = true := hv.1
  rw [admits_intersect, admits_neg, Bool.and_eq_true, Bool.not_eq_true'] at hslot
  intro hb
  rw [Mem, hslot.2] at hb
  cases hb.1

end Descr

/-- The two sides of a step only have literals of the arena. -/
def Rewrite.Honest (cx : TyCtx) (calls : Calls) : Rewrite → Prop
  | join a b => a.HonestIn cx calls ∧ b.HonestIn cx calls
  | cut a b => a.HonestIn cx calls ∧ b.HonestIn cx calls

theorem Rewrite.sound_of_exact {r : Rewrite} (hr : r.Honest cx calls) (h : r.exact cx = true) :
    r.Sound cx calls := by
  cases r with
  | join a b =>
    obtain ⟨ha, hb⟩ := hr
    have hab : (a.union b).HonestIn cx calls := ⟨ha.self.union hb.self, ha.arena⟩
    intro v hv
    simp only [exact, Bool.or_eq_true, decide_eq_true_eq] at h
    rcases h with ((((h | h) | h) | h) | h) | h
    · exact (Descr.meaning_union (.inl h)).mp hv
    · rw [Descr.mem_meaning] at hv ⊢
      rw [Descr.mem_meaning]
      exact (Descr.mem_union_of_sameStructure h).mp hv
    · exact (Descr.meaning_union (.inr (.inl h))).mp hv
    · exact (Descr.meaning_union (.inr (.inr h))).mp hv
    · exact .inl (Descr.isSubtype_sound hab ha h hv)
    · exact .inr (Descr.isSubtype_sound hab hb h hv)
  | cut a b =>
    obtain ⟨ha, hb⟩ := hr
    intro v hv
    simp only [exact, Bool.or_eq_true] at h
    by_cases hcov : b.brands.containsAll a.brands = true
    · rw [Descr.mem_meaning] at hv ⊢
      exact ((Descr.mem_diff_iff hcov).mp hv).2
    by_cases hover : (!a.brands.overlaps b.brands) = true
    · rw [Descr.mem_meaning] at hv ⊢
      exact Descr.mem_diff_of_not_overlaps hcov (by simpa using hover) hv
    rcases h with ((h | h) | h) | h
    · exact absurd h hcov
    · exact absurd h hover
    · rw [Descr.mem_meaning] at hv ⊢
      exact Descr.not_mem_of_mem_diff_sameStructure hcov hover h hv
    · intro hvb
      have hva : v ∈ a.meaning cx calls := by
        rw [Descr.mem_meaning] at hv ⊢
        exact Descr.mem_of_mem_diff hv
      exact Descr.isEmpty_sound ⟨ha.self.intersect hb.self, ha.arena⟩ h v
        (Descr.meaning_intersect.mpr ⟨hva, hvb⟩)

/-! ## Rectangles -/

/-- The sets a rectangle is the product of. -/
def Rect.sets (cx : TyCtx) (calls : Calls) (rect : Rect) : List (Set Val) :=
  rect.map fun c => (c.descr cx).meaning cx calls

/-- A sequence of values is in one of the rectangles. -/
def RectsHold (cx : TyCtx) (calls : Calls) (vs : List Val) (rects : List Rect) : Prop :=
  ∃ rect ∈ rects, vs ∈ listProd (Rect.sets cx calls rect)

/-- Every coordinate has a property. -/
def EachCoord (Q : Coord → Prop) (rects : List Rect) : Prop := ∀ rect ∈ rects, ∀ c ∈ rect, Q c

/-- A property that carving keeps: the unions it builds have it. -/
structure JoinClosed (cx : TyCtx) (Q : Coord → Prop) : Prop where
  union : ∀ a b, Q a → Q b → Q (.built ((a.descr cx).union (b.descr cx)))
  first : ∀ c, Q c → Q (.built (Descr.none.union (c.descr cx)))

/-- The literals of a coordinate are honest. -/
def CoordBelow (W : World cx) (c : Coord) : Prop :=
  Below cx W.calls (cx.arena.length + 1) (c.descr cx)

theorem coordBelow_joinClosed (W : World cx) : JoinClosed cx (CoordBelow W) where
  union _ _ ha hb := Below.union ha hb
  first _ hc := Below.union ⟨Nat.succ_pos _, .none⟩ hc

theorem Coord.descr_eq_of_sameAs {a b : Coord} (h : a.sameAs cx b = true) :
    a.descr cx = b.descr cx := by
  cases a with
  | interned a =>
    cases b with
    | interned b =>
      rw [sameAs, decide_eq_true_eq] at h
      rw [h]
    | built b => simpa [sameAs] using h
  | built a => cases b <;> simpa [sameAs] using h

theorem fusibleAt_spec {a b : Rect} {k : Nat} (h : fusibleAt cx a b = some k) :
    a.length = b.length ∧ k < a.length ∧
      ∀ i, i ≠ k → (Rect.sets cx calls a)[i]? = (Rect.sets cx calls b)[i]? := by
  rw [fusibleAt] at h
  split at h
  · exact nomatch h
  rename_i hlen
  rw [ne_eq, not_not] at hlen
  split at h
  · rename_i coord hdiffer
    cases h
    have hmem : k ∈ (List.range a.length).filter fun k =>
        !((a.getD k (.built .none)).sameAs cx (b.getD k (.built .none))) := by
      rw [hdiffer]
      exact .head _
    refine ⟨hlen, List.mem_range.mp (List.mem_of_mem_filter hmem), fun i hne => ?_⟩
    simp only [Rect.sets, List.getElem?_map]
    rcases Nat.lt_or_ge i a.length with hi | hi
    · have hsame : (a.getD i (.built .none)).sameAs cx (b.getD i (.built .none)) = true := by
        by_contra hno
        have : i ∈ [k] := by
          rw [← hdiffer, List.mem_filter, List.mem_range]
          exact ⟨hi, by simpa using hno⟩
        exact hne (List.mem_singleton.mp this)
      have hib : i < b.length := hlen ▸ hi
      rw [List.getD_eq_getElem _ _ hi, List.getD_eq_getElem _ _ hib] at hsame
      rw [List.getElem?_eq_getElem hi, List.getElem?_eq_getElem hib, Option.map_some,
        Option.map_some, Coord.descr_eq_of_sameAs hsame]
    · rw [List.getElem?_eq_none hi, List.getElem?_eq_none (hlen ▸ hi)]
  · exact nomatch h

/-- The rectangles of a pair stand in the list it was found in. -/
structure FusiblePair.In (cx : TyCtx) (p : FusiblePair) (rects : List Rect) : Prop where
  split : rects = p.before ++ p.left :: (p.between ++ p.right :: p.after)
  fusible : fusibleAt cx p.left p.right = some p.coord

theorem fusibleWith_spec {left : Rect} {rects : List Rect} {p : FusiblePair}
    (h : fusibleWith cx left rects = some p) : p.In cx (left :: rects) ∧ p.before = [] := by
  induction rects generalizing p with
  | nil => exact nomatch h
  | cons right rest ih =>
    rw [fusibleWith] at h
    split at h
    · rename_i coord hcoord
      cases h
      exact ⟨⟨rfl, hcoord⟩, rfl⟩
    · obtain ⟨q, hq, rfl⟩ := Option.map_eq_some_iff.mp h
      obtain ⟨⟨hsplit, hfusible⟩, hbefore⟩ := ih hq
      rw [hbefore, List.nil_append, List.cons.injEq] at hsplit
      refine ⟨⟨?_, hfusible⟩, hbefore⟩
      simp only [hbefore, List.nil_append, ← hsplit.1, hsplit.2, List.cons_append]

theorem nextFusiblePair_spec {rects : List Rect} {p : FusiblePair}
    (h : nextFusiblePair cx rects = some p) : p.In cx rects := by
  induction rects generalizing p with
  | nil => exact nomatch h
  | cons left rest ih =>
    rw [nextFusiblePair] at h
    split at h
    · rename_i q hq
      cases h
      exact (fusibleWith_spec hq).1
    · obtain ⟨q, hq, rfl⟩ := Option.map_eq_some_iff.mp h
      obtain ⟨hsplit, hfusible⟩ := ih hq
      exact ⟨by rw [hsplit]; rfl, hfusible⟩

namespace FusiblePair

variable {p : FusiblePair} {rects : List Rect} {Q : Coord → Prop}

theorem In.coord_lt (h : p.In cx rects) : p.coord < p.left.length ∧ p.coord < p.right.length := by
  obtain ⟨hlen, hk, -⟩ := @fusibleAt_spec cx (fun _ _ _ _ => True) _ _ _ h.fusible
  exact ⟨hk, hlen ▸ hk⟩

theorem In.length_fused (h : p.In cx rects) : (p.fused cx).length + 1 = rects.length := by
  rw [h.split, fused]
  simp only [List.length_append, List.length_cons]
  omega

theorem In.coords (h : p.In cx rects) (hQ : EachCoord Q rects) :
    Q (p.left.getD p.coord (.built .none)) ∧ Q (p.right.getD p.coord (.built .none)) := by
  obtain ⟨hl, hr⟩ := h.coord_lt
  exact ⟨hQ _ (by simp [h.split]) _ (getD_mem hl _), hQ _ (by simp [h.split]) _ (getD_mem hr _)⟩

theorem In.eachCoord_fused (h : p.In cx rects) (hjoin : JoinClosed cx Q)
    (hQ : EachCoord Q rects) : EachCoord Q (p.fused cx) := by
  obtain ⟨hl, hr⟩ := h.coords hQ
  have hold : ∀ rect ∈ rects, ∀ c ∈ rect, Q c := hQ
  rw [h.split] at hold
  intro rect hrect c hc
  simp only [fused, List.mem_append, List.mem_cons] at hrect
  rcases hrect with hrect | rfl | hrect | hrect
  · exact hold rect (by simp [hrect]) c hc
  · rcases List.mem_or_eq_of_mem_set hc with hc | rfl
    · exact hold p.left (by simp) c hc
    · exact hjoin.union _ _ hl hr
  · exact hold rect (by simp [hrect]) c hc
  · exact hold rect (by simp [hrect]) c hc

theorem In.holds_fused (h : p.In cx rects)
    (hjoin : (Rewrite.join (p.leftDescr cx) (p.rightDescr cx)).Sound cx calls) {vs : List Val} :
    RectsHold cx calls vs (p.fused cx) ↔ RectsHold cx calls vs rects := by
  obtain ⟨hlen, hk, hrest⟩ := fusibleAt_spec h.fusible
  have hkr : p.coord < p.right.length := hlen ▸ hk
  have hsets : Rect.sets cx calls (p.left.set p.coord
      (.built ((p.leftDescr cx).union (p.rightDescr cx)))) = (Rect.sets cx calls p.left).set p.coord
        (((p.leftDescr cx).union (p.rightDescr cx)).meaning cx calls) := by
    simp only [Rect.sets, List.map_set, Coord.descr]
  have hleft : (Rect.sets cx calls p.left)[p.coord]? =
      some ((p.leftDescr cx).meaning cx calls) := getElem?_map_getD hk _ _
  have hright : (Rect.sets cx calls p.right)[p.coord]? =
      some ((p.rightDescr cx).meaning cx calls) := getElem?_map_getD hkr _ _
  have hunion : vs ∈ listProd _ ↔ _ := mem_listProd_set_union (by simp [Rect.sets, hlen]) hleft
    hright hrest
    (fun v => ⟨hjoin v, fun hv => Descr.mem_meaning.mpr
      (Descr.mem_union_of_mem (hv.imp Descr.mem_meaning.mp Descr.mem_meaning.mp))⟩)
  simp only [RectsHold, h.split, fused, List.mem_append, List.mem_cons, or_and_right, exists_or,
    exists_eq_left, hsets, hunion]
  rw [or_assoc, or_left_comm (a := vs ∈ listProd (Rect.sets cx calls p.right))]

end FusiblePair

theorem nextFusiblePair_fuse (n : Nat) : ∀ rects : List Rect, rects.length ≤ n →
    nextFusiblePair cx (fuseOneCoordinateUnions cx n rects).1 = none := by
  induction n with
  | zero =>
    intro rects hlen
    obtain rfl : rects = [] := List.eq_nil_of_length_eq_zero (Nat.le_zero.mp hlen)
    rfl
  | succ n ih =>
    intro rects hlen
    rw [fuseOneCoordinateUnions]
    split
    · rename_i hnone
      exact hnone
    · rename_i p hp
      have := (nextFusiblePair_spec hp).length_fused
      exact ih _ (by omega)

variable {Q : Coord → Prop}

theorem eachCoord_fuse (hjoin : JoinClosed cx Q) (n : Nat) :
    ∀ rects : List Rect, EachCoord Q rects → EachCoord Q (fuseOneCoordinateUnions cx n rects).1 ∧
        ∀ r ∈ (fuseOneCoordinateUnions cx n rects).2,
          ∃ a b, r = .join (a.descr cx) (b.descr cx) ∧ Q a ∧ Q b := by
  induction n with
  | zero => exact fun rects hQ => ⟨hQ, fun _ h => nomatch h⟩
  | succ n ih =>
    intro rects hQ
    rw [fuseOneCoordinateUnions]
    split
    · exact ⟨hQ, fun _ h => nomatch h⟩
    · rename_i p hp
      have hspec := nextFusiblePair_spec hp
      obtain ⟨hrest, hjoins⟩ := ih _ (hspec.eachCoord_fused hjoin hQ)
      refine ⟨hrest, List.forall_mem_cons.mpr ⟨?_, hjoins⟩⟩
      exact ⟨_, _, rfl, hspec.coords hQ⟩

theorem holds_fuse (n : Nat) : ∀ {rects : List Rect},
    (∀ r ∈ (fuseOneCoordinateUnions cx n rects).2, r.Sound cx calls) → ∀ {vs : List Val},
      (RectsHold cx calls vs (fuseOneCoordinateUnions cx n rects).1 ↔
        RectsHold cx calls vs rects) := by
  induction n with
  | zero => exact fun _ => Iff.rfl
  | succ n ih =>
    intro rects hsound vs
    rw [fuseOneCoordinateUnions] at hsound ⊢
    split
    · rfl
    · rename_i p hp
      rw [hp] at hsound
      have hrest : RectsHold cx calls vs (fuseOneCoordinateUnions cx n (p.fused cx)).1 ↔
          RectsHold cx calls vs (p.fused cx) := ih fun r hr => hsound r (.tail _ hr)
      exact hrest.trans ((nextFusiblePair_spec hp).holds_fused (hsound _ (.head _)))

/-! ## Widening -/

/-- The coordinates of rectangles, as descriptors. -/
def descrs (cx : TyCtx) (rects : List Rect) : List (List Descr) :=
  rects.map (List.map (Coord.descr cx))

theorem map_meaning_descrs (rect : Rect) :
    (rect.map (Coord.descr cx)).map (Descr.meaning cx calls) = Rect.sets cx calls rect :=
  List.map_map

theorem JoinClosed.foldl (hjoin : JoinClosed cx Q) {A : Type} (f : A → Descr) :
    ∀ (xs : List A) (acc : Descr), (∀ x ∈ xs, ∃ c, Q c ∧ f x = c.descr cx) → Q (.built acc) →
      Q (.built (xs.foldl (fun acc x => acc.union (f x)) acc)) := by
  intro xs
  induction xs with
  | nil => exact fun _ _ h => h
  | cons x xs ih =>
    intro acc hxs hacc
    obtain ⟨c, hc, hx⟩ := hxs x (.head _)
    refine ih _ (fun y hy => hxs y (.tail _ hy)) ?_
    show Q (.built (acc.union (f x)))
    rw [hx]
    exact hjoin.union (.built acc) c hacc hc

theorem mem_foldl_union {A : Type} (f : A → Descr) {v : Val} : ∀ (xs : List A) (acc : Descr),
    (v ∈ acc.meaning cx calls ∨ ∃ x ∈ xs, v ∈ (f x).meaning cx calls) →
      v ∈ (xs.foldl (fun acc x => acc.union (f x)) acc).meaning cx calls := by
  have hleft : ∀ {a b : Descr}, v ∈ a.meaning cx calls ∨ v ∈ b.meaning cx calls →
      v ∈ (a.union b).meaning cx calls := fun h =>
    Descr.mem_meaning.mpr (Descr.mem_union_of_mem (h.imp Descr.mem_meaning.mp Descr.mem_meaning.mp))
  intro xs
  induction xs with
  | nil =>
    rintro acc (h | ⟨x, hx, -⟩)
    · exact h
    · exact nomatch hx
  | cons x xs ih =>
    rintro acc (h | ⟨y, hy, h⟩)
    · exact ih _ (.inl (hleft (.inl h)))
    · rcases List.mem_cons.mp hy with rfl | hy
      · exact ih _ (.inl (hleft (.inr h)))
      · exact ih _ (.inr ⟨y, hy, h⟩)

/-- What a widening replaces, and why it may. -/
structure WidensTo (cx : TyCtx) (rects : List Rect) (index coord : Nat) (grown : Descr)
    (rect : Rect) : Prop where
  at_index : rects[index]? = some rect
  coord_lt : coord < rect.length
  grown_eq : grown = columnUnion
    ((descrs cx rects).filter fun other => other.length = rect.length) coord
  inside : phiTuple (Descr.isEmpty cx) ((rect.map (Coord.descr cx)).set coord grown)
    ((descrs cx rects).filter fun other => other.length = rect.length) = true
  grown_ne : grown ≠ (rect.map (Coord.descr cx)).getD coord .none

theorem nextWidening_spec {rects : List Rect} {index coord : Nat} {grown : Descr}
    (h : nextWidening cx rects = some (index, coord, grown)) :
    ∃ rect, WidensTo cx rects index coord grown rect := by
  obtain ⟨i, hi, hrow⟩ := List.exists_of_findSome?_eq_some h
  obtain ⟨k, hk, hcoord⟩ := List.exists_of_findSome?_eq_some hrow
  obtain ⟨g, hg, heq⟩ := Option.map_eq_some_iff.mp hcoord
  simp only [Prod.mk.injEq] at heq
  obtain ⟨rfl, rfl, rfl⟩ := heq
  rw [List.mem_range, List.length_map] at hi
  have hrect : (rects.map (List.map (Coord.descr cx))).getD i [] =
      rects[i].map (Coord.descr cx) := by
    rw [List.getD_eq_getElem _ _ (by rwa [List.length_map]), List.getElem_map]
  rw [hrect] at hk hg
  rw [List.mem_range, List.length_map] at hk
  simp only [wideningAt, List.length_map] at hg
  split at hg
  · cases hg
  rename_i hne
  split at hg
  · rename_i hphi
    cases hg
    exact ⟨rects[i], List.getElem?_eq_getElem hi, hk, rfl, hphi, hne⟩
  · cases hg

theorem mem_siblings {rects : List Rect} {n : Nat} {row : List Descr}
    (h : row ∈ (descrs cx rects).filter fun other => other.length = n) :
    ∃ rect ∈ rects, rect.length = n ∧ row = rect.map (Coord.descr cx) := by
  obtain ⟨hrow, hlen⟩ := List.mem_filter.mp h
  obtain ⟨rect, hrect, rfl⟩ := List.mem_map.mp hrow
  exact ⟨rect, hrect, by simpa using hlen, rfl⟩

/-- The rectangles with one coordinate grown. -/
def grow (rects : List Rect) (index coord : Nat) (grown : Descr) : List Rect :=
  rects.modify index fun rect => rect.set coord (.built grown)

theorem mem_grow {rects : List Rect} {index coord : Nat} {grown : Descr} {rect r : Rect}
    (hrect : rects[index]? = some rect) (h : r ∈ grow rects index coord grown) :
    r ∈ rects ∨ r = rect.set coord (.built grown) := by
  obtain ⟨j, hj⟩ := List.mem_iff_getElem?.mp h
  rw [grow, List.getElem?_modify] at hj
  obtain ⟨r', hr', rfl⟩ := Option.map_eq_some_iff.mp hj
  split
  · rename_i heq
    subst heq
    cases hrect.symm.trans hr'
    exact .inr rfl
  · exact .inl (List.mem_of_getElem? hr')

namespace WidensTo

variable {rects : List Rect} {index coord : Nat} {grown : Descr} {rect : Rect} {Q : Coord → Prop}

theorem of_eachCoord (h : WidensTo cx rects index coord grown rect) (hjoin : JoinClosed cx Q)
    (hQ : EachCoord Q rects) : Q (.built grown) := by
  have hrow : ∀ row ∈ (descrs cx rects).filter (fun other => other.length = rect.length),
      ∃ c, Q c ∧ row.getD coord .none = c.descr cx := by
    intro row hrow
    obtain ⟨r, hr, hlen, rfl⟩ := mem_siblings hrow
    have hk : coord < r.length := hlen ▸ h.coord_lt
    refine ⟨r[coord], hQ r hr _ (List.getElem_mem hk), ?_⟩
    rw [List.getD_eq_getElem _ _ (by rwa [List.length_map]), List.getElem_map]
  have hself : rect.map (Coord.descr cx) ∈
      (descrs cx rects).filter fun other => other.length = rect.length :=
    List.mem_filter.mpr ⟨List.mem_map_of_mem (List.mem_of_getElem? h.at_index), by simp⟩
  rw [h.grown_eq, columnUnion]
  generalize (descrs cx rects).filter (fun other => other.length = rect.length) = siblings
    at hrow hself
  cases siblings with
  | nil => exact nomatch hself
  | cons row rows =>
    obtain ⟨c, hc, hrow₀⟩ := hrow row (.head _)
    refine hjoin.foldl _ rows _ (fun r hr => hrow r (.tail _ hr)) ?_
    show Q (.built (Descr.none.union (row.getD coord .none)))
    rw [hrow₀]
    exact hjoin.first c hc

theorem eachCoord_grow (h : WidensTo cx rects index coord grown rect) (hjoin : JoinClosed cx Q)
    (hQ : EachCoord Q rects) : EachCoord Q (grow rects index coord grown) := by
  intro r hr c hc
  rcases mem_grow h.at_index hr with hr | rfl
  · exact hQ r hr c hc
  · rcases List.mem_or_eq_of_mem_set hc with hc | rfl
    · exact hQ rect (List.mem_of_getElem? h.at_index) c hc
    · exact h.of_eachCoord hjoin hQ

theorem sets_set (rect : Rect) (coord : Nat) (grown : Descr) :
    Rect.sets cx calls (rect.set coord (.built grown)) =
      (Rect.sets cx calls rect).set coord (grown.meaning cx calls) := by
  simp only [Rect.sets, List.map_set, Coord.descr]

theorem holds_grow (W : World cx) (h : WidensTo cx rects index coord grown rect)
    (hbelow : EachCoord (CoordBelow W) rects) {vs : List Val} :
    RectsHold cx W.calls vs (grow rects index coord grown) ↔ RectsHold cx W.calls vs rects := by
  have hmem := List.mem_of_getElem? h.at_index
  constructor
  · rintro ⟨r, hr, hvs⟩
    rcases mem_grow h.at_index hr with hr | rfl
    · exact ⟨r, hr, hvs⟩
    · -- the grown rectangle is inside the union of its siblings
      have hgrown := h.of_eachCoord (coordBelow_joinClosed W) hbelow
      have hcov := phiTuple_sound (W.soundBelow (cx.arena.length + 1)) _ _ (fun d hd => ?_)
        (fun row hrow => ?_) h.inside
      · rw [sets_set, ← map_meaning_descrs, ← List.map_set] at hvs
        obtain ⟨_, hs, hin⟩ := hcov vs hvs
        obtain ⟨row, hrow, rfl⟩ := List.mem_map.mp hs
        obtain ⟨r, hr, -, rfl⟩ := mem_siblings hrow
        rw [map_meaning_descrs] at hin
        exact ⟨r, hr, hin⟩
      · rcases List.mem_or_eq_of_mem_set hd with hd | rfl
        · obtain ⟨c, hc, rfl⟩ := List.mem_map.mp hd
          exact hbelow rect hmem c hc
        · exact hgrown
      · obtain ⟨r, hr, hlen, rfl⟩ := mem_siblings hrow
        refine ⟨by simp [hlen], fun d hd => ?_⟩
        obtain ⟨c, hc, rfl⟩ := List.mem_map.mp hd
        exact hbelow r hr c hc
  · rintro ⟨r, hr, hvs⟩
    obtain ⟨j, hj⟩ := List.mem_iff_getElem?.mp hr
    have hj' : (grow rects index coord grown)[j]? =
        some (if index = j then r.set coord (.built grown) else r) := by
      rw [grow, List.getElem?_modify, hj]
      rfl
    refine ⟨_, List.mem_of_getElem? hj', ?_⟩
    split
    · rename_i heq
      subst heq
      cases h.at_index.symm.trans hj
      obtain ⟨c, hc⟩ : ∃ c, rect[coord]? = some c := ⟨_, List.getElem?_eq_getElem h.coord_lt⟩
      have hat : (Rect.sets cx W.calls rect)[coord]? =
          some ((c.descr cx).meaning cx W.calls) := by
        rw [Rect.sets, List.getElem?_map, hc]
        rfl
      rw [sets_set]
      refine mem_listProd_set_of_mem hat (fun v hv => ?_) hvs
      rw [h.grown_eq]
      refine mem_foldl_union _ _ _ (.inr ⟨rect.map (Coord.descr cx), ?_, ?_⟩)
      · exact List.mem_filter.mpr ⟨List.mem_map_of_mem hmem, by simp⟩
      · rw [List.getD_eq_getElem?_getD, List.getElem?_map, hc]
        exact hv
    · exact hvs

end WidensTo

theorem eachCoord_widen (hjoin : JoinClosed cx Q) (n : Nat) :
    ∀ rects : List Rect, EachCoord Q rects → EachCoord Q (widenToAxisUnion cx n rects).2 := by
  induction n with
  | zero => exact fun _ hQ => hQ
  | succ n ih =>
    intro rects hQ
    rw [widenToAxisUnion]
    split
    · exact hQ
    · rename_i index coord grown hnext
      obtain ⟨rect, hw⟩ := nextWidening_spec hnext
      exact ih _ (hw.eachCoord_grow hjoin hQ)

theorem holds_widen (W : World cx) (n : Nat) : ∀ {rects : List Rect},
    EachCoord (CoordBelow W) rects → ∀ {vs : List Val},
      (RectsHold cx W.calls vs (widenToAxisUnion cx n rects).2 ↔
        RectsHold cx W.calls vs rects) := by
  induction n with
  | zero => exact fun _ => Iff.rfl
  | succ n ih =>
    intro rects hbelow vs
    rw [widenToAxisUnion]
    split
    · rfl
    · rename_i index coord grown hnext
      obtain ⟨rect, hw⟩ := nextWidening_spec hnext
      have hrest := hw.eachCoord_grow (coordBelow_joinClosed W) hbelow
      exact (ih hrest).trans (hw.holds_grow W hbelow)

/-! ## Carving -/

theorem eachCoord_carve (hjoin : JoinClosed cx Q) (rounds n : Nat) :
    ∀ rects : List Rect, EachCoord Q rects → EachCoord Q (carveRects cx rounds n rects).1 ∧
      ∀ r ∈ (carveRects cx rounds n rects).2,
        ∃ a b, r = .join (a.descr cx) (b.descr cx) ∧ Q a ∧ Q b := by
  induction n with
  | zero => exact fun _ hQ => ⟨hQ, fun _ h => nomatch h⟩
  | succ n ih =>
    intro rects hQ
    obtain ⟨hfused, hjoins⟩ := eachCoord_fuse hjoin rects.length rects hQ
    have hwidened := eachCoord_widen hjoin
      rounds _ hfused
    rw [carveRects]
    dsimp only
    split
    · exact ⟨hwidened, hjoins⟩
    · obtain ⟨hcarved, hmore⟩ := ih _ hwidened
      refine ⟨hcarved, fun r hr => ?_⟩
      rcases List.mem_append.mp hr with hr | hr
      · exact hjoins r hr
      · exact hmore r hr

theorem holds_carve (W : World cx) (rounds n : Nat) : ∀ {rects : List Rect},
    EachCoord (CoordBelow W) rects →
    (∀ r ∈ (carveRects cx rounds n rects).2, r.Sound cx W.calls) → ∀ {vs : List Val},
      (RectsHold cx W.calls vs (carveRects cx rounds n rects).1 ↔
        RectsHold cx W.calls vs rects) := by
  induction n with
  | zero => exact fun _ _ => Iff.rfl
  | succ n ih =>
    intro rects hbelow hsound vs
    obtain ⟨hfused, -⟩ := eachCoord_fuse (coordBelow_joinClosed W) rects.length rects hbelow
    have hwidened := eachCoord_widen (coordBelow_joinClosed W)
      rounds _ hfused
    rw [carveRects] at hsound ⊢
    dsimp only at hsound ⊢
    split
    · rename_i hdone
      rw [if_pos hdone] at hsound
      exact (holds_widen W _ hfused).trans (holds_fuse _ hsound)
    · rename_i hdone
      rw [if_neg hdone] at hsound
      exact (ih hwidened fun r hr => hsound r (List.mem_append_right _ hr)).trans
        ((holds_widen W _ hfused).trans
          (holds_fuse _ fun r hr => hsound r (List.mem_append_left _ hr)))

theorem eachCoord_fuseTupleRects (hjoin : JoinClosed cx Q) {rounds : Nat}
    {rects : List Rect} (hQ : EachCoord Q rects) : EachCoord Q (fuseTupleRects cx rounds rects).1 ∧
      ∀ r ∈ (fuseTupleRects cx rounds rects).2,
        ∃ a b, r = .join (a.descr cx) (b.descr cx) ∧ Q a ∧ Q b := by
  rw [fuseTupleRects]
  split
  · exact ⟨hQ, fun _ h => nomatch h⟩
  · exact eachCoord_carve hjoin _ _ rects hQ

theorem holds_fuseTupleRects (W : World cx) {rounds : Nat} {rects : List Rect}
    (hbelow : EachCoord (CoordBelow W) rects)
    (hsound : ∀ r ∈ (fuseTupleRects cx rounds rects).2, r.Sound cx W.calls) {vs : List Val} :
    RectsHold cx W.calls vs (fuseTupleRects cx rounds rects).1 ↔ RectsHold cx W.calls vs rects := by
  rw [fuseTupleRects] at hsound ⊢
  split
  · rfl
  · rename_i hlen
    rw [if_neg hlen] at hsound
    exact holds_carve W _ _ hbelow hsound

end Fz.Types
