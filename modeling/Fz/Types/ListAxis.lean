import Fz.Types.InternSound
import Fz.Types.OrderInjective
import Fz.Types.SubtypeOrder

/-!
# The list axis in normal form

Each clause is rewritten to what it denotes, an element type with a flag for `[]` and what is cut
off, and then `[]` is merged into the clauses that keep non-empty lists.  The element type and the
cuts are interned, so the axis keeps its lists whenever the coordinates computed while interning
them have the values they stand for, and then they do not depend on how the clauses and their
factors were listed (`normalizeLists_keeps`).

The clauses themselves do depend on it.  Two factors are met in the order they come in, and tuples
are carved by the first pair that can be fused, so the two orders of the factors end in two types
(`normalizeLists_depends_on_order`).
-/

set_option linter.dupNamespace false

namespace Fz.Types

open Fz.Base

theorem Each.of_sameClauseSet {T : Type} {P : T → Prop} {cs ds : List (Conj T)} (h : Each P cs)
    (hsame : SameClauseSet cs ds) : Each P ds := by
  intro d hd
  obtain ⟨c, hc, hpos, hneg⟩ := hsame.2 d hd
  exact ⟨fun p hp => (h c hc).1 p ((hpos p).mpr hp), fun n hn => (h c hc).2 n ((hneg n).mpr hn)⟩

theorem holds_of_sameClauseSet {T : Type} {m : T → Prop} {cs ds : List (Conj T)}
    (hsame : SameClauseSet cs ds) : DnfHolds m cs ↔ DnfHolds m ds := by
  have hfactors : ∀ {c d : Conj T}, c.SameFactors d → (c.Holds m ↔ d.Holds m) := by
    intro c d ⟨hpos, hneg⟩
    simp only [Conj.Holds, hpos, hneg]
  constructor
  · rintro ⟨c, hc, hholds⟩
    obtain ⟨d, hd, hcd⟩ := hsame.1 c hc
    exact ⟨d, hd, (hfactors hcd).mp hholds⟩
  · rintro ⟨d, hd, hholds⟩
    obtain ⟨c, hc, hcd⟩ := hsame.2 d hd
    exact ⟨c, hc, (hfactors hcd).mpr hholds⟩

theorem mem_listAxis {cx : TyCtx} {calls : Calls} {cs : List (Conj ListSig)} {vs : List Val} :
    .mk none (.list vs) ∈ (axisOf LISTS cs).meaning cx calls ↔
      DnfHolds ( ListSig.Holds (cx.meaning calls) vs) cs := by
  rw [Descr.mem_meaning]
  exact and_iff_right (Descr.admits_any _)

namespace Types

variable (order : ClauseOrder) (rounds : Nat)

/-- The list axis of a descriptor in normal form, with the store this leaves. -/
def normalizeLists (types : Types) (cs : List (Conj ListSig)) :
    Except Fault (List (Conj ListSig) × Interning) :=
  normalizeListClauses (internAt order rounds ((axisOf LISTS cs).rank + 1)) cs ⟨types, []⟩

theorem normalizeLists_spec (types : Types) {cs : List (Conj ListSig)}
    (hcs : Each (SigPred.naming (· < types.cx.arena.length)).list cs) :
    ∃ cs' s, types.normalizeLists order rounds cs = .ok (cs', s) ∧
      ∀ W : World types.cx, (∀ r ∈ s.rewrites, r.exact s.cx = true) → ∀ vs,
        (DnfHolds ( ListSig.Holds (s.cx.meaning W.calls) vs) cs' ↔
          DnfHolds ( ListSig.Holds (types.cx.meaning W.calls) vs) cs) := by
  have hknows : types.cx.Knows (axisOf LISTS cs) := ⟨nofun, hcs, nofun, nofun, nofun⟩
  have hlists : ListsAt types.cx (axisOf LISTS cs).rank cs :=
    Descr.EachSig.lists (Depth.of_knows hknows le_rfl)
  have hwp := wp_normalizeListClauses (interns_internAt order rounds (axisOf LISTS cs).rank)
    (s := ⟨types, []⟩) hlists
  obtain ⟨cs', s, hrun, hgrows, -, hmeaning⟩ := hwp.exists_ok
  refine ⟨cs', s, hrun, fun W hexact vs => ?_⟩
  have hgrow : Grows (axisOf LISTS cs).funcs ⟨types, []⟩ s := hgrows
  have hkept := hmeaning s.cx List.prefix_rfl (W.grow hgrow hknows nofun)
    (hgrow.sound (W.grow hgrow hknows nofun) hexact) vs
  refine hkept.trans ?_
  rw [← mem_listAxis, ← mem_listAxis]
  exact Set.ext_iff.mp (hgrow.extends_.meaning_eq hknows) _

end Types

section Sample

/-- Lists of integers without the non-empty ones, and non-empty lists of binaries. -/
def binaryLists : List (Conj ListSig) :=
  [⟨[⟨true, some 2⟩], [⟨false, some 2⟩]⟩, .posOf ⟨false, some 4⟩]

/-- The lists that are lists of both types. -/
def bothLists (a b : Ty) : List (Conj ListSig) := [⟨[⟨false, some a⟩, ⟨false, some b⟩], []⟩]

/-- Pairs: type 11 has two rectangles and all pairs that are outside another one, and so does
type 12.  Their meet has the rectangles of both, with what is inside the other one cut off. -/
def rectangles : List Descr :=
  let binary : Descr := kinds ⟨true, false, false⟩ .any
  let int : Descr := kinds ⟨false, true, false⟩ .any
  let float : Descr := kinds ⟨false, false, true⟩ .any
  [binary, int, float, { int with lists := [.top] }, { float with lists := [.top] },
    { binary with resources := [.top] }, { binary with maps := [.top] },
    { kinds ⟨false, true, true⟩ .any with resources := [.top], maps := [.top] },
    { binary with lists := [.top] },
    { Descr.unbranded with tuples := [.posOf ⟨[2, 5]⟩, .posOf ⟨[4, 6]⟩, ⟨[], [⟨[1, 9]⟩]⟩] },
    { Descr.unbranded with tuples := [.posOf ⟨[3, 7]⟩, .posOf ⟨[2, 8]⟩, ⟨[], [⟨[1, 10]⟩]⟩] }]

/-- What the two orders of the factors end in, one after the other. -/
def bothOrders (types : Types) (a b : Ty) : Option (List (Conj ListSig) × List (Conj ListSig)) :=
  match types.normalizeLists (storageOrder []) 8 (bothLists a b) with
  | .error _ => none
  | .ok (cs, s) =>
    match s.toTypes.normalizeLists (storageOrder []) 8 (bothLists b a) with
    | .error _ => none
    | .ok (ds, _) => some (cs, ds)

theorem rectangles_orders :
    (coreTypes.internAll (storageOrder []) 8 rectangles).toOption.bind (bothOrders · 11 12)
      = some ([.posOf ⟨false, some 14⟩], [.posOf ⟨false, some 15⟩]) := by
  decide +kernel

/-- Integers of any brand, numbers of one brand, integers and singles of integers, and all singles
that are not of the branded numbers. -/
def mixedSingles : List Descr :=
  [kinds ⟨false, true, false⟩ .any, kinds ⟨false, true, true⟩ (.lit "x"),
    { kinds ⟨false, true, false⟩ .any with tuples := [.posOf ⟨[2]⟩] },
    { Descr.unbranded with tuples := [⟨[], [⟨[3]⟩]⟩] }]

/-- An integer of that brand, alone in a tuple. -/
def single : Val := .mk none (.tuple [.mk (some "x") (.int 0)])

theorem mixedSingles_run : ∃ types s,
    coreTypes.internAll (storageOrder []) 8 mixedSingles = .ok types ∧
      types.normalizeLists (storageOrder []) 8 (bothLists 4 5) = .ok ([.posOf ⟨false, some 6⟩], s) ∧
      types.cx.arena = [Descr.none, Descr.any] ++ mixedSingles ∧
      (s.cx.descr 6).tuples = [.posOf ⟨[2]⟩] ∧ admits (s.cx.descr 6).brands none = true ∧
      s.cx.descr 2 = kinds ⟨false, true, false⟩ .any := by
  have hcheck : (coreTypes.internAll (storageOrder []) 8 mixedSingles).toOption.any (fun types =>
      types.cx.arena = [Descr.none, Descr.any] ++ mixedSingles &&
        (types.normalizeLists (storageOrder []) 8 (bothLists 4 5)).toOption.any fun r =>
          r.1 = [.posOf ⟨false, some 6⟩] && (r.2.cx.descr 6).tuples = [.posOf ⟨[2]⟩] &&
            admits (r.2.cx.descr 6).brands none &&
            r.2.cx.descr 2 = kinds ⟨false, true, false⟩ .any) = true := by
    decide +kernel
  obtain ⟨types, hrun, hcheck⟩ := exists_ok_of_any hcheck
  simp only [Bool.and_eq_true, decide_eq_true_eq] at hcheck
  obtain ⟨harena, hlists⟩ := hcheck
  obtain ⟨⟨cs, s⟩, hnormal, hlists⟩ := exists_ok_of_any hlists
  simp only [Bool.and_eq_true, decide_eq_true_eq] at hlists
  obtain ⟨⟨⟨rfl, htuples⟩, hbrands⟩, hint⟩ := hlists
  exact ⟨types, s, hrun, hnormal, harena, htuples, hbrands, hint⟩

end Sample

end Fz.Types
