import Fz.Types.Axis

/-!
# Interning

`intern` gives a descriptor its identity.  A descriptor that the arena holds has one already.
Otherwise it is normalised axis by axis, and the normal form is looked up again and pushed if it is
new.  Normalisation interns the coordinates it computes, so it is a computation on the store of
types; it fails only when a descriptor names a type that the store does not have, where the program
would index out of bounds, or when the depth it was given runs out.  A coordinate names only types
interned before it, so a depth past the rank of the descriptor is enough.

The store of a run also carries the record of the coordinates computed in it (`Rewrite`).
-/

set_option linter.dupNamespace false

namespace Fz.Types

/-! ## The store -/

/-- The store of types, with the two core types the operations name. -/
structure Types where
  cx : TyCtx
  none : Ty
  any : Ty
  none_eq : cx.arena[none]? = some Descr.none
  any_eq : cx.arena[any]? = some Descr.any

/-- How interning can fail. -/
inductive Fault where
  /-- A descriptor names a type the store does not have. -/
  | unknownType
  /-- The recursion is deeper than it was allowed to be. -/
  | tooDeep
  deriving DecidableEq

namespace TyCtx

/-- The id of this exact descriptor, if it has one. -/
def lookup (cx : TyCtx) (d : Descr) : Option Ty := cx.arena.idxOf? d

/-- The arena with one more descriptor. -/
def push (cx : TyCtx) (d : Descr) (h : ∀ t ∈ d.children, t < cx.arena.length) : TyCtx where
  arena := cx.arena ++ [d]
  children_lt := by
    intro t e he s hs
    rcases Nat.lt_or_ge t cx.arena.length with ht | ht
    · rw [List.getElem?_append_left ht] at he
      exact cx.children_lt t e he s hs
    · rw [List.getElem?_append_right ht, List.getElem?_singleton] at he
      split at he
      · cases he
        exact Nat.lt_of_lt_of_le (h s hs) ht
      · exact nomatch he

end TyCtx

/-- A store in the middle of a run, with the coordinates computed so far. -/
structure Interning extends Types where
  rewrites : List Rewrite

abbrev InternM := StateT Interning (Except Fault)

namespace Interning

def push (s : Interning) (d : Descr) (h : ∀ t ∈ d.children, t < s.cx.arena.length) : Interning where
  cx := s.cx.push d h
  none := s.none
  any := s.any
  none_eq := by
    have hlt := (List.getElem?_eq_some_iff.mp s.none_eq).1
    rw [TyCtx.push, List.getElem?_append_left hlt, s.none_eq]
  any_eq := by
    have hlt := (List.getElem?_eq_some_iff.mp s.any_eq).1
    rw [TyCtx.push, List.getElem?_append_left hlt, s.any_eq]
  rewrites := s.rewrites

def record (s : Interning) (steps : List Rewrite) : Interning :=
  { s with rewrites := s.rewrites ++ steps }

end Interning

/-- The identity of a normal form. -/
def internNormal (d : Descr) : InternM Ty := do
  let s ← get
  match s.cx.lookup d with
  | some t => pure t
  | none =>
    if h : ∀ t ∈ d.children, t < s.cx.arena.length then
      set (s.push d h)
      pure s.cx.arena.length
    else throw .unknownType

section Normalize

variable (rounds : Nat) (intern : Descr → InternM Ty)

/-! ## Tuples -/

def difference (a b : Ty) : InternM Ty := do
  let s ← get
  if a = b then pure s.none
  else if a = s.none then pure s.none
  else if b = s.none then pure a
  else
    set (s.record [.cut (s.cx.descr a) (s.cx.descr b)])
    intern ((s.cx.descr a).diff (s.cx.descr b))

/-- A tuple difference whose cover differs in one coordinate is one rectangle. -/
def normalizeTupleCoordinateDifference (clause : Conj TupleSig) : InternM (Conj TupleSig) := do
  let s ← get
  match clause.pos, clause.neg with
  | [positive], [negative] =>
    if positive.elems.length ≠ negative.elems.length then pure clause
    else if (positive.elems ++ negative.elems).any fun t => (s.cx.descr t).hasVars s.cx then
      pure clause
    else
      match (List.range positive.elems.length).filter fun k =>
        !s.cx.isSubtype (positive.elems.getD k 0) (negative.elems.getD k 0) with
      | [index] =>
        let elem ← difference intern (positive.elems.getD index 0) (negative.elems.getD index 0)
        pure (.posOf ⟨positive.elems.set index elem⟩)
      | _ => pure clause
  | _, _ => pure clause

def internCoord : Coord → InternM Ty
  | .interned ty => pure ty
  | .built d => intern d

def internRect (rect : Rect) : InternM (Conj TupleSig) := do
  let elems ← rect.mapM (internCoord intern)
  pure (.posOf ⟨elems⟩)

/-- The tuple axis: each clause by itself, then the plain ones carved together. -/
def normalizeTupleAxis (clauses : List (Conj TupleSig)) : InternM (List (Conj TupleSig)) := do
  let clauses ← clauses.mapM (normalizeTupleCoordinateDifference intern)
  let complex := clauses.filter fun c => (plainSig c).isNone
  let rects : List Rect := (clauses.filterMap plainSig).map fun sig => sig.elems.map .interned
  let s ← get
  let carved := fuseTupleRects s.cx rounds rects
  set (s.record carved.2)
  let plain ← carved.1.mapM (internRect intern)
  pure (complex ++ plain)

/-! ## Lists -/

def listClauseOf (den : ListDenotation) : InternM (Conj ListSig) :=
  match den.nonEmpty with
  | none => pure (.posOf ⟨true, none⟩)
  | some ⟨elem, minus⟩ => do
    let elem ← intern elem
    let cuts ← minus.mapM intern
    pure ⟨[⟨den.holdsEmpty, some elem⟩], cuts.map fun cut => ⟨false, some cut⟩⟩

def needsElementArithmetic (c : Conj ListSig) : Bool :=
  c.pos.length > 1 || c.neg.any fun n => n.elem.isSome

def clauseHasVars (cx : TyCtx) (c : Conj ListSig) : Bool :=
  ((c.pos ++ c.neg).filterMap ListSig.elem).any fun t => (cx.descr t).hasVars cx

/-- Whether a list clause states what it denotes already. -/
def isListNormal (cx : TyCtx) (c : Conj ListSig) : Bool :=
  match plainSig c with
  | some sig => sig.elem.all fun elem => !(cx.descr elem).looksEmpty
  | none => false

/-- One list clause rewritten to what it denotes. -/
def listNormalForm (c : Conj ListSig) : InternM (Conj ListSig) := do
  let s ← get
  if c.isTop then pure c
  else if isListNormal s.cx c then pure c
  else if needsElementArithmetic c && clauseHasVars s.cx c then pure c
  else
    match listDenotation s.cx (Descr.isEmpty s.cx) c with
    | none => pure c
    | some den => listClauseOf intern den

def normalizeListClauses (clauses : List (Conj ListSig)) : InternM (List (Conj ListSig)) := do
  let clauses ← clauses.mapM (listNormalForm intern)
  pure (mergeEmptyListClause clauses)

end Normalize

/-! ## The whole pass -/

/-- Exact duplicates collapsed, the first occurrence kept. -/
def dedupeExactClauses {T : Type} [DecidableEq T] (clauses : List (Conj T)) : List (Conj T) :=
  clauses.foldl pushNew []

/-- The passes that only sort and drop clauses. -/
def Descr.settle (order : ClauseOrder) (cx : TyCtx) (isEmptyTy : Ty → Bool) (d : Descr) : Descr :=
  let d := d.sortAxes order cx
  let d := d.dropEmptyClauses cx isEmptyTy
  let d := d.absorbCoveredClauses cx
  let d := { d with funcs := dedupeExactClauses d.funcs }
  if d.looksEmpty then none else d

/-- Interning, with recursion to depth `n`. -/
def internAt (order : ClauseOrder) (rounds : Nat) : Nat → Descr → InternM Ty
  | 0, _ => throw .tooDeep
  | n + 1, d => do
    let s ← get
    match s.cx.lookup d with
    | some t => pure t
    | none =>
      let tuples ← normalizeTupleAxis rounds (internAt order rounds n) d.tuples
      let lists ← normalizeListClauses (internAt order rounds n) d.lists
      let s ← get
      internNormal (({ d with tuples := tuples, lists := lists } : Descr).settle order s.cx
        fun t => t = s.none)

namespace Types

variable (order : ClauseOrder) (rounds : Nat)

/-- The identity of a descriptor, with the store it leaves. -/
def intern (types : Types) (d : Descr) : Except Fault (Ty × Interning) :=
  internAt order rounds (d.rank + 2) d ⟨types, []⟩

/-- The join of two types.  A join is cached under the unordered pair, so an answer is this one or
the one with the operands exchanged. -/
def union (types : Types) (a b : Ty) : Except Fault (Ty × Interning) :=
  if a = b then .ok (a, ⟨types, []⟩)
  else if a = types.none then .ok (b, ⟨types, []⟩)
  else if b = types.none then .ok (a, ⟨types, []⟩)
  else types.intern order rounds ((types.cx.descr a).union (types.cx.descr b))

end Types

end Fz.Types
