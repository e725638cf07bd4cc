import Fz.Types.SubtypeOrder

/-!
# The mask of a function clause

The loop over the subsets of the positive arrows counts them in 32 bits.  With fewer than 32
positive arrows it goes through all subsets, whatever the build does with shifts that are too far,
and so the answer is exact on points (`funcClauseEmpty_exact`).

On values it is not: a map type that is the union of two others, by the type of one field, is not
recognised as such, and an arrow into it is not either (`fieldSplit`).
-/

namespace Fz.Types

open Fz.Base

section Mask

variable (cx : TyCtx) (empty : Descr → Bool)

/-- The amount a 32-bit word is shifted by.  Past 31, a build that checks arithmetic panics and
another one drops the high bits of the amount. -/
def shiftAmount (overflowChecks : Bool) (n : Nat) : Option Nat :=
  if n < 32 then some n else if overflowChecks then none else some (n % 32)

/-- `maskCovered` with the bits of a 32-bit mask. -/
def maskCoveredU32 (p : List ArrowSig) (neg : ArrowSig) (mask : Nat) : Bool :=
  let picked := p.zipIdx
  let unionIn := picked.foldl
    (fun d (pi, i) => if mask.testBit (i % 32) then d.union (arrowInput pi) else d) Descr.none
  let interOut := picked.foldl
    (fun d (pi, i) => if mask.testBit (i % 32) then d else d.intersect (cx.descr pi.ret)) Descr.any
  empty ((arrowInput neg).diff unionIn) || empty (interOut.diff (cx.descr neg.ret))

/-- The emptiness of a function clause with a 32-bit mask, `none` when it panics. -/
def funcClauseEmptyU32 (overflowChecks : Bool) (c : Conj ArrowSig) : Option Bool :=
  let posLits := c.pos.filterMap ArrowSig.lit
  let negs := c.neg.filter fun n => n.lit.isNone
  if posLits.any fun lit => lit.captures.any fun t => empty (cx.descr t) then some true
  else if somePairDisjoint cx empty posLits then some true
  else if (c.neg.filterMap ArrowSig.lit).any fun n => posLits.any fun p => litCovered cx empty p n
  then some true
  else if negs.isEmpty then some false
  else (shiftAmount overflowChecks c.pos.length).map fun amount =>
    negs.any fun n =>
      (List.range (2 ^ amount)).all fun mask => maskCoveredU32 cx empty c.pos n mask

end Mask

variable {cx : TyCtx} {empty : Descr → Bool}

theorem maskCoveredU32_eq {p : List ArrowSig} (hp : p.length < 32) (neg : ArrowSig) (mask : Nat) :
    maskCoveredU32 cx empty p neg mask = maskCovered cx empty p neg mask := by
  have hbit : ∀ q ∈ p.zipIdx, mask.testBit (q.2 % 32) = mask.testBit q.2 := by
    intro q hq
    obtain ⟨-, hlt, -⟩ := List.mem_zipIdx hq
    rw [Nat.mod_eq_of_lt (by omega)]
  have hin : p.zipIdx.foldl
      (fun d (pi, i) => if mask.testBit (i % 32) then d.union (arrowInput pi) else d) Descr.none =
      p.zipIdx.foldl
        (fun d (pi, i) => if mask.testBit i then d.union (arrowInput pi) else d) Descr.none := by
    refine List.foldl_ext _ _ _ fun d q hq => ?_
    dsimp only
    rw [hbit q hq]
  have hout : p.zipIdx.foldl
      (fun d (pi, i) => if mask.testBit (i % 32) then d else d.intersect (cx.descr pi.ret))
        Descr.any =
      p.zipIdx.foldl
        (fun d (pi, i) => if mask.testBit i then d else d.intersect (cx.descr pi.ret))
          Descr.any := by
    refine List.foldl_ext _ _ _ fun d q hq => ?_
    dsimp only
    rw [hbit q hq]
  rw [maskCoveredU32, hin, hout]
  rfl

theorem funcClauseEmptyU32_eq {c : Conj ArrowSig} (hlen : c.pos.length < 32)
    (overflowChecks : Bool) : funcClauseEmptyU32 cx empty overflowChecks c =
      some (funcClauseEmpty cx empty c) := by
  rw [funcClauseEmptyU32, funcClauseEmpty, shiftAmount, if_pos hlen]
  split
  · rfl
  split
  · rfl
  split
  · rfl
  split
  · rename_i hnegs
    rw [List.isEmpty_iff.mp hnegs]
    rfl
  · simp only [maskCoveredU32_eq hlen, Option.map_some]

/-- The arrows of a clause carry no closure literal, and are over simple types with uniform
slots. -/
def SimpleArrows (cx : TyCtx) (c : Conj ArrowSig) : Prop :=
  ∀ s, s ∈ c.pos ∨ s ∈ c.neg → s.lit = none ∧ Simple.Part cx s.ret ∧ ∀ t ∈ s.args, Simple.Part cx t

theorem SimpleArrows.simple {c : Conj ArrowSig} (h : SimpleArrows cx c) :
    Simple cx { Descr.none with funcs := [c] } := by
  have hcaptures : ∀ s : ArrowSig, s.lit = none → ∀ l, s.lit = some l →
      ∀ t ∈ l.captures, Simple.Part cx t := by
    intro s hs l hl
    rw [hs] at hl
    exact nomatch hl
  rw [Simple.iff_eachSig, Descr.eachSig_onArrow_iff]
  refine ⟨?_, ⟨fun _ h => (nomatch h), fun _ h => (nomatch h), fun _ h => (nomatch h), ?_,
    fun _ h => (nomatch h)⟩⟩
  · intro c' hc'
    obtain rfl := List.mem_singleton.mp hc'
    exact ⟨fun s hs => (h s (.inl hs)).1, fun s hs => (h s (.inr hs)).1⟩
  · intro c' hc'
    obtain rfl := List.mem_singleton.mp hc'
    refine ⟨fun s hs => ?_, fun s hs => ?_⟩
    · obtain ⟨hlit, hret, hargs⟩ := h s (.inl hs)
      exact ⟨hret, hargs, hcaptures s hlit⟩
    · obtain ⟨hlit, hret, hargs⟩ := h s (.inr hs)
      exact ⟨hret, hargs, hcaptures s hlit⟩

section Sample

theorem records_simpleArrows : SimpleArrows records ⟨[⟨[4], 1, none⟩], [⟨[3], 2, none⟩]⟩ := by
  have hpart : ∀ t, t < 9 → Simple.Part records t := by
    intro t ht
    refine ⟨?_, records_simple t⟩
    match t, ht with
    | 0, _ => exact .inr (.inr ⟨"Meters", rfl⟩)
    | 1, _ | 2, _ | 3, _ | 4, _ | 5, _ | 6, _ | 7, _ | 8, _ => exact .inl rfl
  intro s hs
  rcases hs with hs | hs <;> obtain rfl := List.mem_singleton.mp hs
  · exact ⟨rfl, hpart 1 (by decide), by simpa using hpart 4 (by decide)⟩
  · exact ⟨rfl, hpart 2 (by decide), by simpa using hpart 3 (by decide)⟩

/-- Integers, floats, numbers, the maps of numbers, and those of integers or of floats. -/
def fieldSplit : TyCtx where
  arena := [{ Descr.unbranded with basic := ⟨false, true, false⟩ },
    { Descr.unbranded with basic := ⟨false, false, true⟩ },
    { Descr.unbranded with basic := ⟨false, true, true⟩ },
    mapOf 2, (mapOf 0).union (mapOf 1)]
  children_lt := by
    intro t d h s hs
    match t, h with
    | 0, h | 1, h | 2, h | 3, h | 4, h =>
      obtain rfl := Option.some.inj h
      revert s
      decide

theorem mem_mapOf {calls : Calls} {t : Ty} {v : Val} : v ∈ (mapOf t).meaning cx calls ↔
    ∃ fields w, v.shape = .map .plain fields ∧ fields (.atom "a") = some w ∧
      w ∈ cx.meaning calls t := by
  rw [Descr.mem_meaning]
  cases hshape : v.shape with
  | map tag fields =>
    simp [Descr.Mem, hshape, mapOf, Descr.unbranded, Descr.none, Shape.In, DnfHolds, Conj.Holds,
      Conj.posOf, Descr.admits_any, MapSig.Holds, eq_comm (a := MapTag.plain)]
  | _ =>
    simp [Descr.Mem, hshape, mapOf, Descr.unbranded, Descr.none, BasicBits.none, Shape.In, DnfHolds]

theorem mem_numbers {calls : Calls} {v : Val} (h : v ∈ fieldSplit.meaning calls 2) :
    v ∈ fieldSplit.meaning calls 0 ∨ v ∈ fieldSplit.meaning calls 1 := by
  simp only [TyCtx.meaning, Descr.mem_meaning] at h ⊢
  obtain ⟨hslot, hin⟩ := h
  cases hshape : v.shape with
  | int n => exact .inl ⟨hslot, by rw [hshape]; rfl⟩
  | float bits => exact .inr ⟨hslot, by rw [hshape]; rfl⟩
  | _ =>
    rw [hshape] at hin
    simp [fieldSplit, TyCtx.descr, Descr.unbranded, Descr.none, Shape.In, DnfHolds] at hin

theorem mem_split {calls : Calls} {v : Val} (h : v ∈ fieldSplit.meaning calls 3) :
    v ∈ fieldSplit.meaning calls 4 := by
  have hthree : fieldSplit.descr 3 = mapOf 2 := rfl
  have hfour : fieldSplit.descr 4 = (mapOf 0).union (mapOf 1) := rfl
  have hslots : Descr.SlotsAgree (mapOf 0) (mapOf 1) := .inl rfl
  rw [TyCtx.meaning, hthree] at h
  rw [TyCtx.meaning, hfour, Descr.meaning_union hslots]
  obtain ⟨fields, w, hshape, hfield, hw⟩ := mem_mapOf.mp h
  refine (mem_numbers hw).imp (fun h => ?_) fun h => ?_
  · exact mem_mapOf.mpr ⟨fields, w, hshape, hfield, h⟩
  · exact mem_mapOf.mpr ⟨fields, w, hshape, hfield, h⟩

end Sample

end Fz.Types
