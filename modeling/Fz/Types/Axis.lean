import Fz.Types.Emptiness
import Mathlib.Data.List.Sort

/-!
# Rewriting one axis

An axis denotes the union of its clauses, and interning rewrites it to a clause list that depends
less on how it was built.  Empty clauses are dropped.  A clause that the others cover is dropped,
and an axis that its clauses cover becomes the clause without factors; each axis has rules of its
own that settle such questions from the signatures (`AxisView`), and asks the subtyping query only
where they do not.  The bare `[]` is merged into the clauses of non-empty lists.

Tuple clauses with one positive signature and nothing else are rectangles.  Two rectangles that
differ in one coordinate are fused into one over the union of that coordinate, and a coordinate is
widened to the union of its column as long as the rectangle stays inside the axis.  The coordinates
this builds are descriptors that are not interned yet (`Coord`).

Each fusion removes a rectangle, so there are fewer of them than rectangles.  The other two loops of
carving are cut at a number of rounds that is left open: what is proved about a carving holds
however many rounds it takes.
-/

namespace Fz.Types

/-- `a ⊆ b` for interned types. -/
def TyCtx.isSubtype (cx : TyCtx) (a b : Ty) : Bool :=
  a = b || (cx.descr a).isSubtype cx (cx.descr b)

namespace Descr

def looksFull (d : Descr) : Bool :=
  d.basic = .all && d.atoms.isAny && d.opaques.isAny && d.brands.isAny && d.vars.isAny &&
    isDnfTop d.tuples && isDnfTop d.lists && isDnfTop d.resources && isDnfTop d.funcs &&
    isDnfTop d.maps

/-- Whether a descriptor denotes every value, however it is spelled. -/
def isFull (cx : TyCtx) (d : Descr) : Bool :=
  if d.looksFull then true
  else
    let saturated := d.basic = .all && d.atoms.isAny && d.opaques.isAny && d.brands.isAny &&
      d.vars.isAny && !d.tuples.isEmpty && !d.lists.isEmpty && !d.resources.isEmpty &&
      !d.funcs.isEmpty && !d.maps.isEmpty
    saturated && any.isSubtype cx d

/-- Whether a descriptor mentions a type variable, down to depth `n`. -/
def hasVarsAt (cx : TyCtx) : Nat → Descr → Bool
  | 0, d => d.vars.values ≠ ∅
  | n + 1, d => d.vars.values ≠ ∅ || d.children.any fun t => hasVarsAt cx n (cx.descr t)

def hasVars (cx : TyCtx) (d : Descr) : Bool := d.hasVarsAt cx d.rank

end Descr

/-! ## Plain clauses -/

section Plain

variable {T : Type}

/-- The one positive signature of a clause that carries nothing else. -/
def plainSig (c : Conj T) : Option T :=
  match c.pos, c.neg with
  | [sig], [] => some sig
  | _, _ => none

/-- The signatures of clauses that are all plain. -/
def plainSigs : List (Conj T) → Option (List T)
  | [] => some []
  | c :: cs =>
    match plainSig c, plainSigs cs with
    | some sig, some sigs => some (sig :: sigs)
    | _, _ => none

/-- Every factor of `wider` is one of `narrower`. -/
def factorsAreSuperset [DecidableEq T] (wider narrower : Conj T) : Bool :=
  wider.pos.all (· ∈ narrower.pos) && wider.neg.all (· ∈ narrower.neg)

end Plain

/-! ## Axes -/

/-- What an axis can tell about a containment from the signatures alone. -/
inductive Coverage where
  | covered
  | notCovered
  | unproven
  deriving DecidableEq

/-- How an axis is put into a descriptor, and its own rules: whether one clause covers another,
whether the siblings of a clause cover it, and whether plain clauses cover the whole axis. -/
structure AxisView (T : Type) where
  install : Descr → List (Conj T) → Descr
  clauseCovers : (Ty → Ty → Bool) → Conj T → Conj T → Bool
  coverage : TyCtx → (Ty → Ty → Bool) → Conj T → List (Conj T) → Coverage
  plainTop : TyCtx → List T → Coverage

/-- Rules out coverage when some position is outside the union of the siblings' positions. -/
def positionwiseGate (cx : TyCtx) (clause : List Ty) (siblings : List (List Ty)) : Coverage :=
  let sameArity := siblings.filter fun sibling => sibling.length = clause.length
  let reachable := fun position => sameArity.foldl
    (fun acc sibling => acc.union (cx.descr (sibling.getD position 0))) Descr.none
  if clause.zipIdx.any fun (ours, position) =>
    !(cx.descr ours).isSubtype cx (reachable position)
  then .notCovered
  else if siblings.length = 1 then .notCovered
  else .unproven

def tupleCovers (sub : Ty → Ty → Bool) (wider narrower : Conj TupleSig) : Bool :=
  factorsAreSuperset wider narrower ||
    match plainSig narrower, plainSig wider with
    | some a, some b =>
      a.elems.length = b.elems.length && (a.elems.zip b.elems).all fun (x, y) => sub x y
    | _, _ => false

def TUPLES : AxisView TupleSig where
  install d clauses := { d with tuples := clauses }
  clauseCovers := tupleCovers
  coverage cx _ clause siblings :=
    match plainSig clause, plainSigs siblings with
    | some ours, some theirs => positionwiseGate cx ours.elems (theirs.map TupleSig.elems)
    | _, _ => .unproven
  plainTop _ _ := .notCovered

def listCovers (sub : Ty → Ty → Bool) (wider narrower : Conj ListSig) : Bool :=
  factorsAreSuperset wider narrower ||
    match plainSig narrower, plainSig wider with
    | some a, some b =>
      (!a.empty || b.empty) &&
        match a.elem, b.elem with
        | none, _ => true
        | some _, none => false
        | some x, some y => sub x y
    | _, _ => false

/-- One of the clauses has all the non-empty lists of `ours`. -/
def nonEmptyCovered (sub : Ty → Ty → Bool) (ours : ListSig) (plain : List ListSig) : Bool :=
  match ours.elem with
  | none => true
  | some x => plain.any fun theirs => theirs.elem.any fun y => sub x y

/-- The two shapes of a list clause are each covered by one sibling, maybe not the same. -/
def listCoverage (sub : Ty → Ty → Bool) (ours : ListSig) (plain : List ListSig) : Coverage :=
  let emptyCovered := !ours.empty || plain.any fun theirs => theirs.empty
  if emptyCovered && nonEmptyCovered sub ours plain then .covered else .notCovered

def LISTS : AxisView ListSig where
  install d clauses := { d with lists := clauses }
  clauseCovers := listCovers
  coverage _ sub clause siblings :=
    match plainSig clause, plainSigs siblings with
    | some ours, some plain => listCoverage sub ours plain
    | _, _ => .unproven
  plainTop cx sigs :=
    let admitsEmpty := sigs.any fun sig => sig.empty
    let admitsEveryElement := sigs.any fun sig => sig.elem.any fun elem => (cx.descr elem).isFull cx
    if admitsEmpty && admitsEveryElement then .covered else .notCovered

def resourceCovers (sub : Ty → Ty → Bool) (wider narrower : Conj ResourceSig) : Bool :=
  factorsAreSuperset wider narrower ||
    match plainSig narrower, plainSig wider with
    | some a, some b => sub a.payload b.payload
    | _, _ => false

def RESOURCES : AxisView ResourceSig where
  install d clauses := { d with resources := clauses }
  clauseCovers := resourceCovers
  coverage _ _ clause siblings :=
    if (plainSig clause).isNone || (plainSigs siblings).isNone then .unproven else .notCovered
  plainTop cx sigs :=
    if sigs.any fun sig => (cx.descr sig.payload).isFull cx then .covered else .notCovered

def mapCovers (sub : Ty → Ty → Bool) (wider narrower : Conj MapSig) : Bool :=
  factorsAreSuperset wider narrower ||
    match plainSig narrower, plainSig wider with
    | some a, some b =>
      a.tag = b.tag && b.fields.all fun (key, wide) =>
        (a.fields.lookup key).any fun narrow => sub narrow wide
    | _, _ => false

def mapCoverage (cx : TyCtx) (ours : MapSig) (theirs : List MapSig) : Coverage :=
  let sameTag := theirs.filter fun sig => sig.tag = ours.tag
  let reachable := fun key => sameTag.foldl (fun acc sig =>
    match sig.fields.lookup key with
    | some t => acc.union (cx.descr t)
    | none => acc.union Descr.any) Descr.none
  if ours.fields.any fun (key, t) => !(cx.descr t).isSubtype cx (reachable key) then .notCovered
  else if sameTag.length = 1 then .notCovered
  else .unproven

def MAPS : AxisView MapSig where
  install d clauses := { d with maps := clauses }
  clauseCovers := mapCovers
  coverage cx _ clause siblings :=
    match plainSig clause, plainSigs siblings with
    | some ours, some theirs => mapCoverage cx ours theirs
    | _, _ => .unproven
  plainTop _ _ := .notCovered

/-! ## Absorption -/

section Absorb

variable {T : Type} (cx : TyCtx) (view : AxisView T)

/-- The descriptor with one axis and nothing else. -/
def axisOf (clauses : List (Conj T)) : Descr := view.install Descr.unbranded clauses

def axisCoversItsTop (clauses : List (Conj T)) : Bool :=
  (axisOf view [.top]).isSubtype cx (axisOf view clauses)

def axisIsTop (clauses : List (Conj T)) : Bool :=
  if clauses.any Conj.isTop then true
  else
    let structural := match plainSigs clauses with
      | some sigs => view.plainTop cx sigs
      | none => .unproven
    match structural with
    | .covered => true
    | .notCovered => false
    | .unproven => axisCoversItsTop cx view clauses

/-- Whether the other surviving clauses cover a clause. -/
def clauseIsCovered (clause : Conj T) (others : List (Conj T)) : Bool :=
  if others.isEmpty then false
  else if others.any fun sibling => view.clauseCovers cx.isSubtype sibling clause then true
  else match view.coverage cx cx.isSubtype clause others with
    | .covered => true
    | .notCovered => false
    | .unproven => (axisOf view [clause]).isSubtype cx (axisOf view others)

/-- The walk over the clauses: `kept` are the earlier ones that survived, and the later ones all
count as surviving. -/
def dropCoveredFrom (kept : List (Conj T)) : List (Conj T) → List (Conj T)
  | [] => kept
  | clause :: rest =>
    if clauseIsCovered cx view clause (kept ++ rest) then dropCoveredFrom kept rest
    else dropCoveredFrom (kept ++ [clause]) rest

def dropCoveredClauses (clauses : List (Conj T)) : List (Conj T) :=
  if clauses.length < 2 then clauses else dropCoveredFrom cx view [] clauses

def absorbAxis (clauses : List (Conj T)) : List (Conj T) :=
  if clauses.isEmpty || isDnfTop clauses then clauses
  else if axisIsTop cx view clauses then [.top]
  else
    let kept := dropCoveredClauses cx view clauses
    if kept.length < clauses.length && axisIsTop cx view kept then [.top] else kept

end Absorb

def Descr.absorbCoveredClauses (cx : TyCtx) (d : Descr) : Descr :=
  { d with
    tuples := absorbAxis cx TUPLES d.tuples
    lists := absorbAxis cx LISTS d.lists
    resources := absorbAxis cx RESOURCES d.resources
    maps := absorbAxis cx MAPS d.maps }

/-! ## Empty clauses -/

/-- The emptiness of a tuple clause; a plain one is empty when a coordinate is the type `none`. -/
def plainTupleEmpty (cx : TyCtx) (isEmptyTy : Ty → Bool) (c : Conj TupleSig) : Bool :=
  match plainSig c with
  | some product => product.elems.any isEmptyTy
  | none => tupleClauseEmpty cx (Descr.isEmpty cx) c

def Descr.dropEmptyClauses (cx : TyCtx) (isEmptyTy : Ty → Bool) (d : Descr) : Descr :=
  { d with
    tuples := d.tuples.filter fun c => !plainTupleEmpty cx isEmptyTy c
    lists := d.lists.filter fun c => !listClauseEmpty cx (Descr.isEmpty cx) c
    resources := d.resources.filter fun c => !resourceClauseEmpty cx (Descr.isEmpty cx) c
    funcs := d.funcs.filter fun c => !funcClauseEmpty cx (Descr.isEmpty cx) c
    maps := d.maps.filter fun c => !mapClauseEmpty cx (Descr.isEmpty cx) c }

/-! ## The empty list -/

def justEmpty (c : Conj ListSig) : Bool :=
  match plainSig c with
  | some sig => sig.empty && sig.elem.isNone
  | none => false

def keepsOnlyNonEmpty (c : Conj ListSig) : Bool :=
  (match c.pos with
    | [sig] => !sig.empty && sig.elem.isSome
    | _ => false) && !c.neg.any ListSig.empty

/-- `[]` admitted by the first positive signature. -/
def allowEmpty (c : Conj ListSig) : Conj ListSig :=
  match c.pos with
  | [] => c
  | sig :: sigs => { c with pos := { sig with empty := true } :: sigs }

/-- `[] ∨ non_empty(T) = list(T)`, decided from the clause set. -/
def mergeEmptyListClause (clauses : List (Conj ListSig)) : List (Conj ListSig) :=
  if !clauses.any clauseHoldsEmpty then clauses
  else
    let widened := clauses.map fun c => if keepsOnlyNonEmpty c then allowEmpty c else c
    if widened.any fun c => !justEmpty c && clauseHoldsEmpty c then
      widened.filter fun c => !justEmpty c
    else widened

/-! ## Clause order -/

/-- How the signatures of each axis compare.  Nothing below depends on which order it is. -/
structure ClauseOrder where
  tuple : TyCtx → TupleSig → TupleSig → Ordering
  list : TyCtx → ListSig → ListSig → Ordering
  resource : TyCtx → ResourceSig → ResourceSig → Ordering
  arrow : TyCtx → ArrowSig → ArrowSig → Ordering
  map : TyCtx → MapSig → MapSig → Ordering

section Order

variable {T : Type}

/-- Shorter first, then element by element. -/
def lexOrder (cmp : T → T → Ordering) (a b : List T) : Ordering :=
  (compare a.length b.length).then
    (((a.zip b).map fun (x, y) => cmp x y).foldr Ordering.then .eq)

def dedupAdjacent [DecidableEq T] : List T → List T
  | [] => []
  | [x] => [x]
  | x :: y :: rest =>
    if x = y then dedupAdjacent (y :: rest) else x :: dedupAdjacent (y :: rest)

def sortBy (cmp : T → T → Ordering) (xs : List T) : List T :=
  xs.insertionSort fun a b => (cmp a b).isLE = true

def sortFactors [DecidableEq T] (cmp : T → T → Ordering) (factors : List T) : List T :=
  if factors.length < 2 then factors else dedupAdjacent (sortBy cmp factors)

def cmpConj (cmp : T → T → Ordering) (a b : Conj T) : Ordering :=
  (lexOrder cmp a.pos b.pos).then (lexOrder cmp a.neg b.neg)

def sortAxis [DecidableEq T] (cmp : T → T → Ordering) (clauses : List (Conj T)) : List (Conj T) :=
  let sorted := clauses.map fun c => ⟨sortFactors cmp c.pos, sortFactors cmp c.neg⟩
  if sorted.length < 2 then sorted else sortBy (cmpConj cmp) sorted

end Order

def Descr.sortAxes (order : ClauseOrder) (cx : TyCtx) (d : Descr) : Descr :=
  { d with
    tuples := sortAxis (order.tuple cx) d.tuples
    lists := sortAxis (order.list cx) d.lists
    resources := sortAxis (order.resource cx) d.resources
    funcs := sortAxis (order.arrow cx) d.funcs
    maps := sortAxis (order.map cx) d.maps }

/-! ## Carving tuples -/

/-- A coordinate: an interned type, or a descriptor still to be interned. -/
inductive Coord where
  | interned (ty : Ty)
  | built (d : Descr)
  deriving DecidableEq

namespace Coord

variable (cx : TyCtx)

def descr : Coord → Descr
  | interned ty => cx.descr ty
  | built d => d

def sameAs : Coord → Coord → Bool
  | interned a, interned b => a = b
  | a, b => a.descr cx = b.descr cx

end Coord

/-- A plain tuple clause, read as the product of its coordinates. -/
abbrev Rect := List Coord

/-- Two descriptors that a coordinate was computed from.  The record of these steps is no part of
the program, and nothing reads it. -/
inductive Rewrite where
  /-- Fusion put their union in a coordinate. -/
  | join (a b : Descr)
  /-- A tuple difference put their difference in a coordinate. -/
  | cut (a b : Descr)
  deriving DecidableEq

section Carve

variable (cx : TyCtx)

/-- The only coordinate two rectangles differ in, if there is just one. -/
def fusibleAt (a b : Rect) : Option Nat :=
  if a.length ≠ b.length then none
  else
    match (List.range a.length).filter fun k =>
      !((a.getD k (.built .none)).sameAs cx (b.getD k (.built .none))) with
    | [coord] => some coord
    | _ => none

/-- Two rectangles that differ in one coordinate, with the rectangles around them. -/
structure FusiblePair where
  before : List Rect
  left : Rect
  between : List Rect
  right : Rect
  after : List Rect
  coord : Nat

/-- The first rectangle of a list that `left` can be fused with. -/
def fusibleWith (left : Rect) : List Rect → Option FusiblePair
  | [] => none
  | right :: rest =>
    match fusibleAt cx left right with
    | some coord => some ⟨[], left, [], right, rest, coord⟩
    | none => (fusibleWith left rest).map fun p => { p with between := right :: p.between }

def nextFusiblePair : List Rect → Option FusiblePair
  | [] => none
  | left :: rest =>
    match fusibleWith cx left rest with
    | some p => some p
    | none => (nextFusiblePair rest).map fun p => { p with before := left :: p.before }

namespace FusiblePair

variable (p : FusiblePair)

def leftDescr : Descr := (p.left.getD p.coord (.built .none)).descr cx

def rightDescr : Descr := (p.right.getD p.coord (.built .none)).descr cx

/-- The rectangles after the fusion. -/
def fused : List Rect :=
  p.before ++ p.left.set p.coord (.built ((p.leftDescr cx).union (p.rightDescr cx))) ::
    (p.between ++ p.after)

end FusiblePair

/-- `{A,C} ∨ {B,C} = {A∨B, C}`, at most `n` times, with the unions taken. -/
def fuseOneCoordinateUnions : Nat → List Rect → List Rect × List Rewrite
  | 0, rects => (rects, [])
  | n + 1, rects =>
    match nextFusiblePair cx rects with
    | none => (rects, [])
    | some p =>
      let (fused, joins) := fuseOneCoordinateUnions n (p.fused cx)
      (fused, .join (p.leftDescr cx) (p.rightDescr cx) :: joins)

/-- The union of a column of rectangles. -/
def columnUnion (siblings : List (List Descr)) (coord : Nat) : Descr :=
  siblings.foldl (fun acc sibling => acc.union (sibling.getD coord .none)) .none

/-- What a coordinate of a rectangle is widened to, if it can be. -/
def wideningAt (mats : List (List Descr)) (rect : List Descr) (coord : Nat) : Option Descr :=
  let siblings := mats.filter fun other => other.length = rect.length
  let candidate := columnUnion siblings coord
  if candidate = rect.getD coord .none then none
  else if phiTuple (Descr.isEmpty cx) (rect.set coord candidate) siblings then some candidate
  else none

/-- The first rectangle and coordinate that can be widened, and to what. -/
def nextWidening (rects : List Rect) : Option (Nat × Nat × Descr) :=
  let mats := rects.map (List.map (Coord.descr cx))
  (List.range mats.length).findSome? fun index =>
    let rect := mats.getD index []
    (List.range rect.length).findSome? fun coord =>
      (wideningAt cx mats rect coord).map fun grown => (index, coord, grown)

/-- Grow coordinates while their rectangles stay inside the axis, at most `n` times.  Tells whether
one grew. -/
@[grind =] def widenToAxisUnion : Nat → List Rect → Bool × List Rect
  | 0, rects => (false, rects)
  | n + 1, rects =>
    match nextWidening cx rects with
    | none => (false, rects)
    | some (index, coord, grown) =>
      (true, (widenToAxisUnion n (rects.modify index fun rect => rect.set coord (.built grown))).2)

/-- Fusion and widening in turn, until neither changes anything, at most `n` times. -/
@[grind =] def carveRects (rounds : Nat) : Nat → List Rect → List Rect × List Rewrite
  | 0, rects => (rects, [])
  | n + 1, rects =>
    let (fused, joins) := fuseOneCoordinateUnions cx rects.length rects
    let (grew, widened) := widenToAxisUnion cx rounds fused
    if joins.isEmpty && !grew then (widened, joins)
    else
      let (carved, more) := carveRects rounds n widened
      (carved, joins ++ more)

def fuseTupleRects (rounds : Nat) (rects : List Rect) : List Rect × List Rewrite :=
  if rects.length < 2 then (rects, []) else carveRects cx rounds rounds rects

end Carve

end Fz.Types
