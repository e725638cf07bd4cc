import Fz.Types.Descr
import Mathlib.Algebra.Group.Nat.Defs

/-!
# Emptiness of descriptors

The per-axis algorithms.  A query for a descriptor asks queries for the coordinates of its clauses;
each axis takes the query as an argument, and `Descr.isEmptyMemo` ties the knot.  It carries the
set of descriptors in flight: a query that re-enters one of them answers `true`.  The set a query
leaves behind is the set it found, since a descriptor is removed when its query ends, so the set is
only handed down.

The knot is tied with a bound on the depth.  A coordinate is interned before the descriptor that
names it, so the ranks of the descriptors asked about decrease, except that a function clause asks
about its argument tuples at its own rank; `Descr.isEmpty` takes a bound twice the rank.
-/

namespace Fz.Types

variable (cx : TyCtx) (empty : Descr → Bool)

/-! ## Tuples -/

/-- The product `t` cut at coordinate `i` by `h`: inside `h` before it, outside `h` at it. -/
def splitCoord : List Descr → List Descr → Nat → List Descr
  | t :: ts, h :: _, 0 => t.diff h :: ts
  | t :: ts, h :: hs, i + 1 => t.intersect h :: splitCoord ts hs i
  | ts, _, _ => ts

theorem length_splitCoord (t h : List Descr) (i : Nat) : (splitCoord t h i).length = t.length := by
  induction t generalizing h i with
  | nil => cases h <;> cases i <;> rfl
  | cons d t ih =>
    cases h with
    | nil => cases i <;> rfl
    | cons e h =>
      cases i with
      | zero => rfl
      | succ i => rw [splitCoord, List.length_cons, ih, List.length_cons]

/-- Is the product of `t` minus the union of the products of `n` empty? -/
def phiTuple : List Descr → List (List Descr) → Bool
  | t, [] => t.any empty
  | t, head :: rest =>
    if t.any empty then true
    else if (List.zipWith (fun h ti => empty (ti.intersect h)) head t).any id then phiTuple t rest
    else (List.range t.length).all fun i => phiTuple (splitCoord t head i) rest

def tupleClauseEmpty (c : Conj TupleSig) : Bool :=
  match c.pos with
  | [] => false
  | p :: ps =>
    let arity := p.elems.length
    if ps.any fun q => q.elems.length ≠ arity then true
    else
      let t := ps.foldl
        (fun t q => List.zipWith (fun d e => d.intersect (cx.descr e)) t q.elems)
        (p.elems.map cx.descr)
      let negs := (c.neg.filter fun n => n.elems.length = arity).map fun n => n.elems.map cx.descr
      phiTuple empty t negs

/-! ## Lists -/

/-- What the positive factors say about the elements of the non-empty lists of a clause. -/
inductive ElemEvidence where
  | unconstrained
  | empty
  | inhabited (elem : Descr)

def ElemEvidence.meet (e : ElemEvidence) (sigElem : Option Ty) : ElemEvidence :=
  match sigElem with
  | none => .empty
  | some elem =>
    let next? := match e with
      | .empty => none
      | .unconstrained => some (cx.descr elem)
      | .inhabited prev => some (prev.intersect (cx.descr elem))
    match next? with
    | none => .empty
    | some next => if empty next then .empty else .inhabited next

def ElemEvidence.fragment : ElemEvidence → Option Descr
  | .unconstrained => some .any
  | .empty => none
  | .inhabited d => some d

/-- The non-empty lists over `elem`, except those with all elements in one of `minus`. -/
structure NonEmptyLists where
  elem : Descr
  minus : List Descr

structure ListDenotation where
  holdsEmpty : Bool
  nonEmpty : Option NonEmptyLists

def clauseHoldsEmpty (c : Conj ListSig) : Bool :=
  c.pos.all ListSig.empty && !c.neg.any ListSig.empty

/-- The negative factors cut off the element type one by one; `none` when one of them takes all of
it. -/
def listCuts (elem : Descr) : List ListSig → List Descr → Option (List Descr)
  | [], minus => some minus
  | n :: ns, minus =>
    match n.elem with
    | none => listCuts elem ns minus
    | some cut =>
      let cut := elem.intersect (cx.descr cut)
      if empty cut then listCuts elem ns minus
      else if empty (elem.diff cut) then none
      else listCuts elem ns (if cut ∈ minus then minus else minus ++ [cut])

/-- What a list clause denotes, `none` when it denotes nothing. -/
def listDenotation (c : Conj ListSig) : Option ListDenotation :=
  let holdsEmpty := clauseHoldsEmpty c
  let justEmpty : Option ListDenotation := if holdsEmpty then some ⟨true, none⟩ else none
  let evidence : ElemEvidence := c.pos.foldl (fun e p => e.meet cx empty p.elem) .unconstrained
  match evidence.fragment with
  | none => justEmpty
  | some elem =>
    match listCuts cx empty elem c.neg [] with
    | none => justEmpty
    | some minus => some ⟨holdsEmpty, some ⟨elem, minus⟩⟩

def listClauseEmpty (c : Conj ListSig) : Bool := ( listDenotation cx empty c).isNone

/-! ## Resources, functions and maps -/

def resourceClauseEmpty (c : Conj ResourceSig) : Bool :=
  let payload := match c.pos with
    | [] => Descr.any
    | p :: ps => ps.foldl (fun d q => d.intersect (cx.descr q.payload)) (cx.descr p.payload)
  if !c.pos.isEmpty && empty payload then true
  else c.neg.any fun n => empty (payload.diff (cx.descr n.payload))

def arrowInput (sig : ArrowSig) : Descr := Descr.tupleOf sig.args

def closureBrandsMeet : Option Nat → Option Nat → Bool
  | some a, some b => a = b
  | _, _ => true

def closureBrandInside : Option Nat → Option Nat → Bool
  | _, none => true
  | some pos, some neg => pos = neg
  | none, some _ => false

/-- Two positive literals that no closure is both of. -/
def litsDisjoint (a b : ClosureLit) : Bool :=
  !closureBrandsMeet a.fnId b.fnId || a.captures.length ≠ b.captures.length ||
    (a.captures.zip b.captures).any fun (x, y) => empty ((cx.descr x).intersect (cx.descr y))

def somePairDisjoint : List ClosureLit → Bool
  | [] => false
  | a :: lits => lits.any (litsDisjoint cx empty a) || somePairDisjoint lits

/-- A negative literal that covers a positive one. -/
def litCovered (pos neg : ClosureLit) : Bool :=
  closureBrandInside pos.fnId neg.fnId && pos.captures.length = neg.captures.length &&
    (pos.captures.zip neg.captures).all fun (p, n) => empty ((cx.descr p).diff (cx.descr n))

/-- The arrows of `p`, each applied or not according to the bits of `mask`, are below the negative
arrow `neg`. -/
def maskCovered (p : List ArrowSig) (neg : ArrowSig) (mask : Nat) : Bool :=
  let picked := p.zipIdx
  let unionIn := picked.foldl
    (fun d (pi, i) => if mask.testBit i then d.union (arrowInput pi) else d) Descr.none
  let interOut := picked.foldl
    (fun d (pi, i) => if mask.testBit i then d else d.intersect (cx.descr pi.ret)) Descr.any
  empty ((arrowInput neg).diff unionIn) || empty (interOut.diff (cx.descr neg.ret))

def funcClauseEmpty (c : Conj ArrowSig) : Bool :=
  let posLits := c.pos.filterMap ArrowSig.lit
  if posLits.any fun lit => lit.captures.any fun t => empty (cx.descr t) then true
  else if somePairDisjoint cx empty posLits then true
  else if (c.neg.filterMap ArrowSig.lit).any fun n => posLits.any fun p => litCovered cx empty p n
  then true
  else (c.neg.filter fun n => n.lit.isNone).any fun n =>
    (List.range (2 ^ c.pos.length)).all fun mask => maskCovered cx empty c.pos n mask

/-- Meet a field into the fields merged so far. -/
def mergeField (merged : List (MapKey × Descr)) (field : MapKey × Ty) : List (MapKey × Descr) :=
  if (merged.lookup field.1).isSome then
    merged.map fun (k, d) => if k = field.1 then (k, d.intersect (cx.descr field.2)) else (k, d)
  else merged ++ [(field.1, cx.descr field.2)]

def mapClauseEmpty (c : Conj MapSig) : Bool :=
  match c.pos with
  | [] => false
  | p :: ps =>
    if ps.any fun q => q.tag ≠ p.tag then true
    else
      let merged := ps.foldl (fun m q => q.fields.foldl (mergeField cx) m)
        (p.fields.map fun (k, t) => (k, cx.descr t))
      if merged.any fun (_, d) => empty d then true
      else c.neg.any fun n => n.tag = p.tag &&
        n.fields.all (fun (k, _) => (merged.lookup k).isSome) &&
        n.fields.all fun (k, t) => match merged.lookup k with
          | some d => empty (d.diff (cx.descr t))
          | none => false

/-! ## Descriptors -/

namespace Descr

/-- One round of the query, over a query for the coordinates. -/
def isEmptyStep (d : Descr) : Bool :=
  d.brands.isNone ||
    (d.basic.isEmpty && d.atoms.isNone && d.opaques.isNone && d.vars.isNone &&
      d.tuples.all (tupleClauseEmpty cx empty) && d.lists.all (listClauseEmpty cx empty) &&
      d.resources.all (resourceClauseEmpty cx empty) && d.funcs.all (funcClauseEmpty cx empty) &&
      d.maps.all (mapClauseEmpty cx empty))

/-- The query with the set of descriptors in flight, cut at depth `n`. -/
def isEmptyMemo : Nat → List Descr → Descr → Bool
  | 0, _, _ => false
  | n + 1, inFlight, d =>
    if d ∈ inFlight then true else d.isEmptyStep cx (isEmptyMemo n (d :: inFlight))

/-- One more than the latest interned type a descriptor names. -/
def rank (d : Descr) : Nat := d.children.foldr (fun t n => max (t + 1) n) 0

def isEmpty (d : Descr) : Bool := d.isEmptyMemo cx (2 * d.rank + 2) []

def isSubtype (a b : Descr) : Bool := (a.diff b).isEmpty cx

end Descr

end Fz.Types
