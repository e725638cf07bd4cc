import Fz.Base.Except
import Mathlib.Data.List.Basic
import Mathlib.Data.List.Nodup
import Mathlib.Data.List.Perm.Basic

/-!
# The surface of a scope

One pass over the items of a scope puts the clauses of each function together.  It keeps the `@doc`
and `@spec` attributes that wait for their function, the groups of clauses that are still open, in
the order of their first clauses, and the finished forms.  An item that is neither a clause nor an
attribute closes all groups.

What the pass comes to can be said without it.  The items that are no attributes take the function
attributes before them along, as units (`unitsFrom`).  The units that are no clauses cut the scope
into segments, and a segment is grouped by the names and arities of its clauses (`layout`).
-/

namespace Fz.Front

open Fz.Base (Except.bind_eq_ok)

/-! ## The pass -/

structure QuotedSourceError (Span : Type) where
  message : String
  code : Option String
  span : Option Span

structure FunctionGroupKey where
  name : String
  arity : Nat
  deriving DecidableEq

/-- The node of an item: the name of its head, where that is an atom, and where it stands. -/
structure QuotedAstNode (Span : Type) where
  head : Option String
  span : Option Span

/-- What is read from single items, and how items are built to forms. -/
structure SurfaceReader (Item Attr Form Span : Type) where
  astNode : Item → Except (QuotedSourceError Span) (Option (QuotedAstNode Span))
  parseFunctionGroupKey : Item → Except (QuotedSourceError Span) FunctionGroupKey
  parseScopeAttr : Item → Except (QuotedSourceError Span) Attr
  surfaceSpan : Item → Except (QuotedSourceError Span) Span
  isDummy : Span → Bool
  /-- The form of one item. -/
  buildItem : Item → Except (QuotedSourceError Span) Form
  /-- The form of items put together in a list. -/
  buildGroup : List Item → Except (QuotedSourceError Span) Form

structure PendingFunctionGroup (Item : Type) where
  itemRoots : List Item
  kind : String

/-- A form and the items it is built from. -/
structure ScopeForm (Item Form : Type) where
  items : List Item
  form : Form

/-- The attributes with the items they are read from, and the forms. -/
structure ScopeSurface (Item Attr Form : Type) where
  attrs : List (Item × Attr)
  forms : List (ScopeForm Item Form)

structure SurfaceState (Item Attr Form : Type) extends ScopeSurface Item Attr Form where
  groupOrder : List FunctionGroupKey
  groups : FunctionGroupKey → Option (PendingFunctionGroup Item)
  pendingFunctionAttrs : List Item

def isFunctionDefinitionHead (head : String) : Bool := ["def", "defp", "defmacro"].contains head

namespace SurfaceReader

variable {Item Attr Form Span : Type} (r : SurfaceReader Item Attr Form Span)

def user (code : String) (span : Option Span) (message : String) : QuotedSourceError Span :=
  ⟨message, some code, span.filter fun span => !r.isDummy span⟩

def flushFunctionGroups : List FunctionGroupKey → SurfaceState Item Attr Form →
    Except (QuotedSourceError Span) (SurfaceState Item Attr Form)
  | [], st => .ok { st with groupOrder := [] }
  | key :: order, st =>
    match st.groups key with
    | none => flushFunctionGroups order st
    | some group => do
      let form ← r.buildGroup group.itemRoots
      flushFunctionGroups order { st with
        forms := st.forms ++ [⟨group.itemRoots, form⟩]
        groups := fun k => if k = key then none else st.groups k }

def rejectDanglingFunctionAttrs (pending : List Item) : Except (QuotedSourceError Span) Unit :=
  match pending with
  | [] => .ok ()
  | root :: _ => do
    let head ←
      match ← r.astNode root with
      | none => .ok "@doc/@spec"
      | some node =>
        match node.head with
        | some head => .ok head
        | none => .error ⟨"expected an atom", none, none⟩
    let span ← r.surfaceSpan root
    .error (r.user "parse/dangling-function-attr" (some span) ("`" ++ head ++
      "` does not attach to any function definition: function attributes must be followed by " ++
        "their function's clauses"))

/-- A form of one item, with the groups before it closed. -/
def readOther (st : SurfaceState Item Attr Form) (item : Item) :
    Except (QuotedSourceError Span) (SurfaceState Item Attr Form) := do
  let st ← r.flushFunctionGroups st.groupOrder st
  r.rejectDanglingFunctionAttrs st.pendingFunctionAttrs
  let form ← r.buildItem item
  .ok { st with forms := st.forms ++ [⟨[item], form⟩] }

def readExtern (st : SurfaceState Item Attr Form) (item : Item) :
    Except (QuotedSourceError Span) (SurfaceState Item Attr Form) := do
  let st ← r.flushFunctionGroups st.groupOrder st
  let itemRoots := st.pendingFunctionAttrs ++ [item]
  let form ← r.buildGroup itemRoots
  .ok { st with forms := st.forms ++ [⟨itemRoots, form⟩], pendingFunctionAttrs := [] }

def readClause (st : SurfaceState Item Attr Form) (item : Item) (head : String)
    (span : Option Span) : Except (QuotedSourceError Span) (SurfaceState Item Attr Form) :=
  match r.parseFunctionGroupKey item with
  | .error error =>
    .error (r.user "parse/invalid-function-definition" span
      ("invalid `" ++ head ++ "` function head: " ++ error.message))
  | .ok key =>
    let groupOrder := if (st.groups key).isSome then st.groupOrder else st.groupOrder ++ [key]
    let entry := (st.groups key).getD ⟨[], head⟩
    if entry.kind ≠ head then
      .error (r.user "parse/mixed-function-visibility" span
        ("quoted function group `" ++ key.name ++ "/" ++ toString key.arity ++ "` mixes `" ++
          entry.kind ++ "` and `" ++ head ++ "` heads"))
    else
      let entry : PendingFunctionGroup Item :=
        { entry with itemRoots := entry.itemRoots ++ st.pendingFunctionAttrs ++ [item] }
      .ok { st with
        groupOrder := groupOrder
        groups := fun k => if k = key then some entry else st.groups k
        pendingFunctionAttrs := [] }

def readItem (st : SurfaceState Item Attr Form) (item : Item) :
    Except (QuotedSourceError Span) (SurfaceState Item Attr Form) := do
  match ← r.astNode item with
  | none => .error ⟨"expected quoted item AST node", none, none⟩
  | some node =>
    match node.head with
    | none => r.readOther st item
    | some head =>
      if head.startsWith "@" then
        if head = "@doc" ∨ head = "@spec" then
          .ok { st with pendingFunctionAttrs := st.pendingFunctionAttrs ++ [item] }
        else do
          let attr ← r.parseScopeAttr item
          .ok { st with attrs := st.attrs ++ [(item, attr)] }
      else if isFunctionDefinitionHead head then r.readClause st item head node.span
      else if head = "extern" then r.readExtern st item
      else r.readOther st item

def readItems : List Item → SurfaceState Item Attr Form →
    Except (QuotedSourceError Span) (ScopeSurface Item Attr Form)
  | [], st => do
    let st ← r.flushFunctionGroups st.groupOrder st
    r.rejectDanglingFunctionAttrs st.pendingFunctionAttrs
    .ok st.toScopeSurface
  | item :: items, st => do
    let st ← r.readItem st item
    readItems items st

def readSurface (items : List Item) :
    Except (QuotedSourceError Span) (ScopeSurface Item Attr Form) :=
  r.readItems items ⟨⟨[], []⟩, [], fun _ => none, []⟩

end SurfaceReader

/-! ## The layout -/

inductive ItemKind where
  | scopeAttr
  | functionAttr
  | clause (key : FunctionGroupKey) (head : String)
  | externItem
  | other
  deriving DecidableEq

namespace ItemKind

def isAttr : ItemKind → Bool
  | scopeAttr => true
  | functionAttr => true
  | _ => false

/-- Externs and other forms stand between the segments of a scope. -/
def isBoundary : ItemKind → Bool
  | externItem => true
  | other => true
  | _ => false

end ItemKind

/-- An item that is no attribute, and the function attributes since the one before it. -/
structure SurfaceUnit (Item : Type) where
  attrs : List Item
  item : Item

namespace SurfaceUnit

variable {Item : Type}

def items (u : SurfaceUnit Item) : List Item := u.attrs ++ [u.item]

end SurfaceUnit

section Layout

variable {Item : Type} (kind : Item → ItemKind)

/-- The units of some items, and the function attributes behind the last. -/
def unitsFrom : List Item → List Item → List (SurfaceUnit Item) × List Item
  | pending, [] => ([], pending)
  | pending, item :: items =>
    match kind item with
    | .scopeAttr => unitsFrom pending items
    | .functionAttr => unitsFrom (pending ++ [item]) items
    | _ => (⟨pending, item⟩ :: (unitsFrom [] items).1, (unitsFrom [] items).2)

def SurfaceUnit.key (u : SurfaceUnit Item) : Option FunctionGroupKey :=
  match kind u.item with
  | .clause key _ => some key
  | _ => none

/-- Every key once, where it comes first. -/
def firsts : List FunctionGroupKey → List FunctionGroupKey
  | [] => []
  | key :: keys => key :: (firsts keys).filter (· ≠ key)

/-- The clauses of a key with their attributes, in order. -/
def clausesOf (segment : List (SurfaceUnit Item)) (key : FunctionGroupKey) : List Item :=
  (segment.filter fun u => u.key kind = some key).flatMap SurfaceUnit.items

/-- The groups of a segment. -/
def grouped (segment : List (SurfaceUnit Item)) : List (List Item) :=
  (firsts (segment.filterMap (SurfaceUnit.key kind))).map (clausesOf kind segment)

/-- The groups of each segment, and the units between the segments. -/
def layout : List (SurfaceUnit Item) → List (SurfaceUnit Item) → List (List Item)
  | segment, [] => grouped kind segment
  | segment, u :: units =>
    match u.key kind with
    | some _ => layout (segment ++ [u]) units
    | none => grouped kind segment ++ u.items :: layout [] units

variable {kind}

theorem mem_firsts {key : FunctionGroupKey} {keys : List FunctionGroupKey} :
    key ∈ firsts keys ↔ key ∈ keys := by
  induction keys with
  | nil => simp [firsts]
  | cons first keys ih =>
    simp only [firsts, List.mem_cons, List.mem_filter, ih, decide_eq_true_eq]
    tauto

theorem nodup_firsts (keys : List FunctionGroupKey) : (firsts keys).Nodup := by
  induction keys with
  | nil => exact List.nodup_nil
  | cons first keys ih =>
    refine List.nodup_cons.mpr ⟨fun h => ?_, ih.filter _⟩
    simpa using (List.mem_filter.mp h).2

theorem firsts_append_singleton (keys : List FunctionGroupKey) (key : FunctionGroupKey) :
    firsts (keys ++ [key]) = if key ∈ keys then firsts keys else firsts keys ++ [key] := by
  induction keys with
  | nil => simp [firsts]
  | cons first keys ih =>
    simp only [List.cons_append, firsts, ih, List.mem_cons]
    by_cases hfirst : key = first
    · subst hfirst
      by_cases hkeys : key ∈ keys <;> simp [hkeys, List.filter_append]
    · by_cases hkeys : key ∈ keys <;> simp [hfirst, hkeys, List.filter_append]

variable (kind) in
theorem unitsFrom_perm (pending items : List Item) :
    ((items.filter fun item => kind item = .scopeAttr) ++
      ((unitsFrom kind pending items).1.flatMap SurfaceUnit.items ++
        (unitsFrom kind pending items).2)).Perm (pending ++ items) := by
  induction items generalizing pending with
  | nil => simp [unitsFrom]
  | cons item items ih =>
    -- A unit takes what is pending in front of the items that are still to come.
    have hunit : ((items.filter fun item => kind item = .scopeAttr) ++
        ((pending ++ item :: (unitsFrom kind [] items).1.flatMap SurfaceUnit.items) ++
          (unitsFrom kind [] items).2)).Perm (pending ++ item :: items) := by
      rw [List.append_assoc, List.cons_append]
      refine (List.perm_append_comm_assoc _ _ _).trans (List.Perm.append_left pending ?_)
      exact List.perm_middle.trans ((ih []).cons item)
    cases hkind : kind item with
    | scopeAttr =>
      simp only [unitsFrom, hkind, List.filter_cons, decide_true, if_true]
      exact ((ih pending).cons item).trans List.perm_middle.symm
    | functionAttr =>
      simpa [unitsFrom, hkind, List.filter_cons] using ih (pending ++ [item])
    | clause key head =>
      simpa [unitsFrom, hkind, List.filter_cons, SurfaceUnit.items] using hunit
    | externItem =>
      simpa [unitsFrom, hkind, List.filter_cons, SurfaceUnit.items] using hunit
    | other =>
      simpa [unitsFrom, hkind, List.filter_cons, SurfaceUnit.items] using hunit

variable (kind) in
theorem flatMap_filter_key_perm (segment : List (SurfaceUnit Item)) {keys : List FunctionGroupKey}
    (hkeys : keys.Nodup) :
    (keys.flatMap fun key => segment.filter fun u => u.key kind = some key).Perm
      (segment.filter fun u => ∃ key ∈ keys, u.key kind = some key) := by
  induction keys with
  | nil => simp
  | cons key keys ih =>
    have hnot : key ∉ keys := (List.nodup_cons.mp hkeys).1
    have hsplit := List.filter_append_perm (fun u => decide (u.key kind = some key))
      (segment.filter fun u => ∃ k ∈ key :: keys, u.key kind = some k)
    rw [List.filter_filter, List.filter_filter] at hsplit
    refine List.Perm.trans ?_ hsplit
    rw [List.flatMap_cons]
    refine List.Perm.append (.of_eq ?_) ((ih (List.nodup_cons.mp hkeys).2).trans (.of_eq ?_))
    · refine List.filter_congr fun u _ => ?_
      by_cases h : u.key kind = some key <;> simp [h]
    · refine List.filter_congr fun u _ => ?_
      by_cases h : u.key kind = some key
      · simp [h, hnot]
      · simp [h]

theorem grouped_perm {segment : List (SurfaceUnit Item)}
    (hsegment : ∀ u ∈ segment, ∃ key, u.key kind = some key) :
    (grouped kind segment).flatten.Perm (segment.flatMap SurfaceUnit.items) := by
  have hkeys := flatMap_filter_key_perm kind segment
    (nodup_firsts (segment.filterMap (SurfaceUnit.key kind)))
  have hall : (segment.filter fun u =>
      ∃ key ∈ firsts (segment.filterMap (SurfaceUnit.key kind)), u.key kind = some key)
        = segment := by
    refine List.filter_eq_self.mpr fun u hu => ?_
    obtain ⟨key, hkey⟩ := hsegment u hu
    have hmem : key ∈ firsts (segment.filterMap (SurfaceUnit.key kind)) :=
      mem_firsts.mpr (List.mem_filterMap.mpr ⟨u, hu, hkey⟩)
    exact decide_eq_true ⟨key, hmem, hkey⟩
  rw [hall] at hkeys
  have hitems := hkeys.flatMap_right SurfaceUnit.items
  rw [List.flatMap_assoc] at hitems
  exact hitems

variable (kind) in
theorem layout_perm (segment units : List (SurfaceUnit Item))
    (hsegment : ∀ u ∈ segment, ∃ key, u.key kind = some key) :
    (layout kind segment units).flatten.Perm
      (segment.flatMap SurfaceUnit.items ++ units.flatMap SurfaceUnit.items) := by
  induction units generalizing segment with
  | nil => simpa [layout] using grouped_perm hsegment
  | cons u units ih =>
    cases hkey : u.key kind with
    | some key =>
      have hnext : ∀ v ∈ segment ++ [u], ∃ key, v.key kind = some key := by
        intro v hv
        rcases List.mem_append.mp hv with hv | hv
        · exact hsegment v hv
        · cases List.mem_singleton.mp hv
          exact ⟨key, hkey⟩
      simpa [layout, hkey] using ih _ hnext
    | none =>
      have hrest := @ih [] (by simp)
      simp only [layout, hkey, List.flatten_append, List.flatten_cons, List.flatMap_cons]
      exact (grouped_perm hsegment).append (hrest.append_left _)

theorem exists_infix_grouped {segment : List (SurfaceUnit Item)} {u : SurfaceUnit Item}
    {key : FunctionGroupKey} (hu : u ∈ segment) (hkey : u.key kind = some key) :
    ∃ group ∈ grouped kind segment, u.items <:+: group := by
  refine ⟨clausesOf kind segment key, List.mem_map_of_mem (mem_firsts.mpr
    (List.mem_filterMap.mpr ⟨u, hu, hkey⟩)), ?_⟩
  have hmem : u ∈ segment.filter fun u => u.key kind = some key :=
    List.mem_filter.mpr ⟨hu, decide_eq_true hkey⟩
  obtain ⟨before, after, hsplit⟩ := List.append_of_mem hmem
  rw [clausesOf, hsplit, List.flatMap_append, List.flatMap_cons, ← List.append_assoc]
  exact ⟨_, _, rfl⟩

theorem exists_infix_layout (segment : List (SurfaceUnit Item)) {units : List (SurfaceUnit Item)}
    {u : SurfaceUnit Item}
    (hsegment : ∀ u ∈ segment, ∃ key, u.key kind = some key) (hu : u ∈ segment ++ units) :
    ∃ group ∈ layout kind segment units, u.items <:+: group := by
  induction units generalizing segment with
  | nil =>
    rw [List.append_nil] at hu
    obtain ⟨key, hkey⟩ := hsegment u hu
    exact exists_infix_grouped hu hkey
  | cons v units ih =>
    cases hv : v.key kind with
    | some key =>
      rw [layout, hv]
      refine ih _ ?_ (by simpa using hu)
      intro w hw
      rcases List.mem_append.mp hw with hw | hw
      · exact hsegment w hw
      · cases List.mem_singleton.mp hw
        exact ⟨key, hv⟩
    | none =>
      rw [layout, hv]
      rcases List.mem_append.mp hu with hu | hu
      · obtain ⟨key, hkey⟩ := hsegment u hu
        obtain ⟨group, hgroup, hin⟩ := exists_infix_grouped hu hkey
        exact ⟨group, List.mem_append_left _ hgroup, hin⟩
      · rcases List.mem_cons.mp hu with rfl | hu
        · exact ⟨u.items, List.mem_append_right _ List.mem_cons_self, List.infix_rfl⟩
        · obtain ⟨group, hgroup, hin⟩ := @ih [] (by simp) hu
          exact ⟨group, List.mem_append_right _ (List.mem_cons_of_mem _ hgroup), hin⟩

theorem layout_clauses (segment : List (SurfaceUnit Item)) {units : List (SurfaceUnit Item)}
    (hunits : ∀ u ∈ units, ∃ key, u.key kind = some key) :
    layout kind segment units = grouped kind (segment ++ units) := by
  induction units generalizing segment with
  | nil => rw [layout, List.append_nil]
  | cons u units ih =>
    obtain ⟨key, hkey⟩ := hunits u List.mem_cons_self
    rw [layout, hkey]
    simpa using @ih (segment ++ [u]) fun v hv => hunits v (List.mem_cons_of_mem _ hv)

theorem layout_boundary {segment front : List (SurfaceUnit Item)} {u : SurfaceUnit Item}
    (hu : u.key kind = none) (rest : List (SurfaceUnit Item)) :
    layout kind segment (front ++ u :: rest) =
      layout kind segment front ++ u.items :: layout kind [] rest := by
  induction front generalizing segment with
  | nil => simp only [List.nil_append, layout, hu]
  | cons v front ih =>
    cases hv : v.key kind with
    | some key =>
      simp only [List.cons_append, layout, hv]
      exact ih
    | none => simp [layout, hv, ih]

theorem unitsFrom_append (pending items rest : List Item) : unitsFrom kind pending (items ++ rest) =
      ((unitsFrom kind pending items).1 ++ (unitsFrom kind (unitsFrom kind pending items).2 rest).1,
        (unitsFrom kind (unitsFrom kind pending items).2 rest).2) := by
  induction items generalizing pending with
  | nil => rfl
  | cons item items ih => cases hkind : kind item <;> simp [unitsFrom, hkind, ih]

theorem unitsFrom_attrs {attrs : List Item} (hattrs : ∀ attr ∈ attrs, (kind attr).isAttr)
    (pending : List Item) : unitsFrom kind pending attrs =
      ([], pending ++ attrs.filter fun attr => kind attr = .functionAttr) := by
  induction attrs generalizing pending with
  | nil => simp [unitsFrom]
  | cons attr attrs ih =>
    have hattr := hattrs attr List.mem_cons_self
    have hrest := ih fun a ha => hattrs a (List.mem_cons_of_mem _ ha)
    cases hkind : kind attr with
    | scopeAttr => simpa [unitsFrom, hkind] using hrest pending
    | functionAttr => simpa [unitsFrom, hkind] using hrest (pending ++ [attr])
    | clause key head => simp [hkind, ItemKind.isAttr] at hattr
    | externItem => simp [hkind, ItemKind.isAttr] at hattr
    | other => simp [hkind, ItemKind.isAttr] at hattr

theorem unitsFrom_cons {item : Item} (hitem : (kind item).isAttr = false)
    (pending items : List Item) : unitsFrom kind pending (item :: items) =
      (⟨pending, item⟩ :: (unitsFrom kind [] items).1, (unitsFrom kind [] items).2) := by
  cases hkind : kind item with
  | scopeAttr => simp [hkind, ItemKind.isAttr] at hitem
  | functionAttr => simp [hkind, ItemKind.isAttr] at hitem
  | clause key head => simp [unitsFrom, hkind]
  | externItem => simp [unitsFrom, hkind]
  | other => simp [unitsFrom, hkind]

theorem mem_unitsFrom (before after : List Item) {attrs : List Item} {item : Item}
    (hattrs : ∀ attr ∈ attrs, (kind attr).isAttr) (hitem : (kind item).isAttr = false) :
    ∃ front, ⟨front ++ attrs.filter fun attr => kind attr = .functionAttr, item⟩ ∈
      (unitsFrom kind [] (before ++ (attrs ++ item :: after))).1 := by
  refine ⟨(unitsFrom kind [] before).2, ?_⟩
  rw [unitsFrom_append, unitsFrom_append, unitsFrom_attrs hattrs, unitsFrom_cons hitem]
  simp

theorem unitsFrom_clauses {items : List Item}
    (hitems : ∀ item ∈ items, (kind item).isBoundary = false) (pending : List Item) :
    ∀ u ∈ (unitsFrom kind pending items).1, ∃ key, u.key kind = some key := by
  induction items generalizing pending with
  | nil => simp [unitsFrom]
  | cons item items ih =>
    have hitem := hitems item List.mem_cons_self
    have hrest := ih fun i hi => hitems i (List.mem_cons_of_mem _ hi)
    cases hkind : kind item with
    | scopeAttr => simpa [unitsFrom, hkind] using hrest pending
    | functionAttr => simpa [unitsFrom, hkind] using hrest (pending ++ [item])
    | clause key head => simpa [unitsFrom, hkind, SurfaceUnit.key] using hrest []
    | externItem => simp [hkind, ItemKind.isBoundary] at hitem
    | other => simp [hkind, ItemKind.isBoundary] at hitem

theorem layout_segment {before segment after : List Item}
    (hbefore : ∀ item ∈ before.getLast?, (kind item).isBoundary)
    (hafter : ∀ item ∈ after.head?, (kind item).isBoundary)
    (hsegment : ∀ item ∈ segment, (kind item).isBoundary = false) :
    ∃ front back, layout kind [] (unitsFrom kind [] (before ++ (segment ++ after))).1 =
      front ++ (grouped kind (unitsFrom kind [] segment).1 ++ back) := by
  have hnone : ∀ {attrs : List Item} {item : Item}, (kind item).isBoundary →
      (⟨attrs, item⟩ : SurfaceUnit Item).key kind = none := by
    intro attrs item hitem
    cases hkind : kind item <;> simp_all [SurfaceUnit.key, ItemKind.isBoundary]
  have hattr : ∀ {item : Item}, (kind item).isBoundary → (kind item).isAttr = false := by
    intro item hitem
    cases hkind : kind item <;> simp_all [ItemKind.isAttr, ItemKind.isBoundary]
  have hrest : ∃ back, layout kind [] (unitsFrom kind [] (segment ++ after)).1 =
      grouped kind (unitsFrom kind [] segment).1 ++ back := by
    rw [unitsFrom_append]
    cases after with
    | nil =>
      refine ⟨[], ?_⟩
      simpa [unitsFrom] using layout_clauses [] (unitsFrom_clauses hsegment [])
    | cons item after =>
      have hitem := hafter item rfl
      rw [unitsFrom_cons (hattr hitem), layout_boundary (hnone hitem),
        layout_clauses [] (unitsFrom_clauses hsegment []), List.nil_append]
      exact ⟨_, rfl⟩
  obtain ⟨back, hback⟩ := hrest
  rcases List.eq_nil_or_concat' before with rfl | ⟨before, item, rfl⟩
  · exact ⟨[], back, hback⟩
  · have hitem := hbefore item (by simp)
    rw [List.append_assoc, unitsFrom_append, List.singleton_append, unitsFrom_cons (hattr hitem),
      layout_boundary (hnone hitem), hback]
    exact ⟨layout kind [] (unitsFrom kind [] before).1 ++
      [SurfaceUnit.items ⟨(unitsFrom kind [] before).2, item⟩], back, by simp⟩

end Layout

/-! ## The pass and the layout -/

/-- All clauses in a form are clauses of one function. -/
def OneFunction {Item : Type} (kind : Item → ItemKind) (items : List Item) : Prop :=
  ∀ a ∈ items, ∀ b ∈ items, ∀ {key key' : FunctionGroupKey} {head head' : String},
    kind a = .clause key head → kind b = .clause key' head' → key = key' ∧ head = head'

/-- The open groups with one more clause. -/
def SurfaceState.withClause {Item Attr Form : Type} (st : SurfaceState Item Attr Form)
    (item : Item) (key : FunctionGroupKey) (head : String) : SurfaceState Item Attr Form :=
  { st with
    groupOrder := if (st.groups key).isSome then st.groupOrder else st.groupOrder ++ [key]
    groups := fun k => if k = key then
      some ⟨((st.groups key).getD ⟨[], head⟩).itemRoots ++ st.pendingFunctionAttrs ++ [item], head⟩
      else st.groups k
    pendingFunctionAttrs := [] }

namespace SurfaceReader

variable {Item Attr Form Span : Type} (r : SurfaceReader Item Attr Form Span)

/-- What an item is.  An item that cannot be read is no item of an accepted scope. -/
def kind (item : Item) : ItemKind :=
  match r.astNode item with
  | .ok (some ⟨some head, _⟩) =>
    if head.startsWith "@" then
      if head = "@doc" ∨ head = "@spec" then .functionAttr else .scopeAttr
    else if isFunctionDefinitionHead head then
      match r.parseFunctionGroupKey item with
      | .ok key => .clause key head
      | .error _ => .other
    else if head = "extern" then .externItem
    else .other
  | _ => .other

theorem rejectDanglingFunctionAttrs_eq_ok {pending : List Item} :
    r.rejectDanglingFunctionAttrs pending = .ok () ↔ pending = [] := by
  cases pending with
  | nil => simp [rejectDanglingFunctionAttrs]
  | cons root pending =>
    simp only [rejectDanglingFunctionAttrs, Except.bind_eq_ok, reduceCtorEq, iff_false]
    rintro ⟨node, -, h⟩
    split at h
    · simp [Except.bind_eq_ok] at h
    · split at h <;> simp [Except.bind_eq_ok] at h

variable {st st' : SurfaceState Item Attr Form}

theorem flushFunctionGroups_spec {order : List FunctionGroupKey} (hnodup : order.Nodup)
    (h : r.flushFunctionGroups order st = .ok st') :
    st'.attrs = st.attrs ∧ st'.pendingFunctionAttrs = st.pendingFunctionAttrs ∧
      st'.groupOrder = [] ∧ (∀ key, st'.groups key = if key ∈ order then none else st.groups key) ∧
      st'.forms.map ScopeForm.items = st.forms.map ScopeForm.items ++
        order.filterMap fun key => (st.groups key).map PendingFunctionGroup.itemRoots := by
  induction order generalizing st with
  | nil =>
    cases h
    simp
  | cons key order ih =>
    obtain ⟨hkey, hnodup⟩ := List.nodup_cons.mp hnodup
    cases hgroup : st.groups key with
    | none =>
      simp only [flushFunctionGroups, hgroup] at h
      obtain ⟨hattrs, hpending, horder, hgroups, hforms⟩ := ih hnodup h
      refine ⟨hattrs, hpending, horder, fun k => ?_, by simp [hforms, hgroup]⟩
      rw [hgroups]
      by_cases hk : k = key
      · simp [hk, hgroup]
      · simp [hk]
    | some group =>
      simp only [flushFunctionGroups, hgroup, Except.bind_eq_ok] at h
      obtain ⟨form, -, h⟩ := h
      obtain ⟨hattrs, hpending, horder, hgroups, hforms⟩ := ih hnodup h
      refine ⟨hattrs, hpending, horder, fun k => ?_, ?_⟩
      · rw [hgroups]
        by_cases hk : k = key
        · simp [hk]
        · simp [hk]
      · rw [hforms, List.filterMap_cons, hgroup, List.map_append, List.append_assoc]
        refine congrArg _ (congrArg _ (List.filterMap_congr fun k hk => ?_))
        have hne : k ≠ key := fun heq => hkey (heq ▸ hk)
        simp only [if_neg hne]

/-- The open groups are those of the segment read so far. -/
structure Matches (st : SurfaceState Item Attr Form) (segment : List (SurfaceUnit Item)) :
    Prop where
  clauses : ∀ u ∈ segment, ∃ key, u.key r.kind = some key
  order : st.groupOrder = firsts (segment.filterMap (SurfaceUnit.key r.kind))
  groups : ∀ key, (st.groups key).map PendingFunctionGroup.itemRoots =
    if key ∈ segment.filterMap (SurfaceUnit.key r.kind) then some (clausesOf r.kind segment key)
    else none
  kinds : ∀ key group, st.groups key = some group → ∀ item ∈ group.itemRoots,
    r.kind item = .functionAttr ∨ r.kind item = .clause key group.kind
  pending : ∀ item ∈ st.pendingFunctionAttrs, r.kind item = .functionAttr

variable {segment : List (SurfaceUnit Item)}

theorem Matches.flush
    (hst : r.Matches st segment) (h : r.flushFunctionGroups st.groupOrder st = .ok st') :
    r.Matches st' [] ∧ st'.attrs = st.attrs ∧ st'.pendingFunctionAttrs = st.pendingFunctionAttrs ∧
      st'.forms.map ScopeForm.items = st.forms.map ScopeForm.items ++ grouped r.kind segment ∧
      ∀ items ∈ grouped r.kind segment, OneFunction r.kind items := by
  obtain ⟨hattrs, hpending, horder, hgroups, hforms⟩ :=
    r.flushFunctionGroups_spec (hst.order ▸ nodup_firsts _) h
  have hnone : ∀ key, st'.groups key = none := by
    intro key
    rw [hgroups]
    split
    · rfl
    · rename_i hkey
      rw [hst.order, mem_firsts] at hkey
      have hgroup := hst.groups key
      rw [if_neg hkey] at hgroup
      exact Option.map_eq_none_iff.mp hgroup
  have hgroup : ∀ key ∈ firsts (segment.filterMap (SurfaceUnit.key r.kind)),
      (st.groups key).map PendingFunctionGroup.itemRoots = some (clausesOf r.kind segment key) :=
    fun key hkey => by rw [hst.groups, if_pos (mem_firsts.mp hkey)]
  refine ⟨⟨by simp, horder, fun key => by simp [hnone key], fun key group hkey => ?_, ?_⟩,
    hattrs, hpending, ?_, ?_⟩
  · rw [hnone] at hkey
    cases hkey
  · rw [hpending]
    exact hst.pending
  · rw [hforms, hst.order, List.filterMap_congr hgroup, grouped]
    exact congrArg _ (congrFun List.filterMap_eq_map _)
  · intro items hitems
    obtain ⟨key, hkey, rfl⟩ := List.mem_map.mp hitems
    obtain ⟨group, hsome, heq⟩ := Option.map_eq_some_iff.mp (hgroup key hkey)
    have hkinds := hst.kinds key group hsome
    rw [heq] at hkinds
    intro a ha b hb k k' head head' hka hkb
    rcases hkinds a ha with h | h
    · rw [hka] at h
      cases h
    · rcases hkinds b hb with h' | h'
      · rw [hkb] at h'
        cases h'
      · rw [hka] at h
        rw [hkb] at h'
        cases h
        cases h'
        exact ⟨rfl, rfl⟩

/-- What one item does to the state, by its kind. -/
theorem readItem_eq_ok {item : Item}
    (h : r.readItem st item = .ok st') :
    match r.kind item with
    | .scopeAttr => ∃ attr, st' = { st with attrs := st.attrs ++ [(item, attr)] }
    | .functionAttr =>
      st' = { st with pendingFunctionAttrs := st.pendingFunctionAttrs ++ [item] }
    | .clause key head => (∀ group, st.groups key = some group → group.kind = head) ∧
        st' = st.withClause item key head
    | .externItem => ∃ flushed form, r.flushFunctionGroups st.groupOrder st = .ok flushed ∧
        st' = { flushed with
          forms := flushed.forms ++ [⟨flushed.pendingFunctionAttrs ++ [item], form⟩]
          pendingFunctionAttrs := [] }
    | .other => ∃ flushed form, r.flushFunctionGroups st.groupOrder st = .ok flushed ∧
        flushed.pendingFunctionAttrs = [] ∧
        st' = { flushed with forms := flushed.forms ++ [⟨[item], form⟩] } := by
  have hother : r.readOther st item = .ok st' → ∃ flushed form,
      r.flushFunctionGroups st.groupOrder st = .ok flushed ∧ flushed.pendingFunctionAttrs = [] ∧
        st' = { flushed with forms := flushed.forms ++ [⟨[item], form⟩] } := by
    intro h
    simp only [readOther, Except.bind_eq_ok] at h
    obtain ⟨flushed, hflush, _, hdangling, form, -, hst⟩ := h
    cases hst
    exact ⟨flushed, form, hflush, r.rejectDanglingFunctionAttrs_eq_ok.mp hdangling, rfl⟩
  simp only [readItem, Except.bind_eq_ok] at h
  obtain ⟨node, hnode, h⟩ := h
  cases node with
  | none => cases h
  | some node =>
    obtain ⟨head, span⟩ := node
    cases head with
    | none =>
      simp only [kind, hnode]
      exact hother h
    | some head =>
      simp only at h
      by_cases hat : head.startsWith "@"
      · by_cases hdoc : head = "@doc" ∨ head = "@spec"
        · simp only [kind, hnode, if_pos hat, if_pos hdoc]
          rw [if_pos hat, if_pos hdoc] at h
          cases h
          rfl
        · simp only [kind, hnode, if_pos hat, if_neg hdoc]
          rw [if_pos hat, if_neg hdoc, Except.bind_eq_ok] at h
          obtain ⟨attr, -, h⟩ := h
          cases h
          exact ⟨attr, rfl⟩
      · by_cases hdef : isFunctionDefinitionHead head
        · rw [if_neg hat, if_pos hdef, readClause] at h
          cases hkey : r.parseFunctionGroupKey item with
          | error error =>
            rw [hkey] at h
            cases h
          | ok key =>
            simp only [kind, hnode, if_neg hat, if_pos hdef, hkey]
            simp only [hkey] at h
            split at h
            · cases h
            · rename_i hhead
              rw [ne_eq, not_not] at hhead
              refine ⟨fun group hgroup => by simpa [hgroup] using hhead, ?_⟩
              cases h
              simp only [SurfaceState.withClause, hhead]
        · by_cases hextern : head = "extern"
          · simp only [kind, hnode, if_neg hat, if_neg hdef, if_pos hextern]
            rw [if_neg hat, if_neg hdef, if_pos hextern] at h
            simp only [readExtern, Except.bind_eq_ok] at h
            obtain ⟨flushed, hflush, form, -, hst⟩ := h
            cases hst
            exact ⟨flushed, form, hflush, rfl⟩
          · simp only [kind, hnode, if_neg hat, if_neg hdef, if_neg hextern]
            rw [if_neg hat, if_neg hdef, if_neg hextern] at h
            exact hother h

theorem Matches.clause {st : SurfaceState Item Attr Form}
    {item : Item} {key : FunctionGroupKey} {head : String} (hst : r.Matches st segment)
    (hkind : r.kind item = .clause key head)
    (hhead : ∀ group, st.groups key = some group → group.kind = head) :
    r.Matches (st.withClause item key head) (segment ++ [⟨st.pendingFunctionAttrs, item⟩]) := by
  have hkey : (⟨st.pendingFunctionAttrs, item⟩ : SurfaceUnit Item).key r.kind = some key := by
    simp only [SurfaceUnit.key, hkind]
  have hkeys : (segment ++ [(⟨st.pendingFunctionAttrs, item⟩ : SurfaceUnit Item)]).filterMap
      (SurfaceUnit.key r.kind) = segment.filterMap (SurfaceUnit.key r.kind) ++ [key] := by
    simp [List.filterMap_append, hkey]
  have hgroup := hst.groups key
  have hopen : (st.groups key).isSome ↔ key ∈ segment.filterMap (SurfaceUnit.key r.kind) := by
    rw [← Option.isSome_map (f := PendingFunctionGroup.itemRoots), hgroup]
    by_cases hmem : key ∈ segment.filterMap (SurfaceUnit.key r.kind)
    · rw [if_pos hmem]
      exact iff_of_true rfl hmem
    · rw [if_neg hmem]
      exact iff_of_false (by simp) hmem
  refine ⟨?_, ?_, fun k => ?_, ?_, by simp [SurfaceState.withClause]⟩
  · intro u hu
    rcases List.mem_append.mp hu with hu | hu
    · exact hst.clauses u hu
    · cases List.mem_singleton.mp hu
      exact ⟨key, hkey⟩
  · rw [hkeys, firsts_append_singleton, SurfaceState.withClause, hst.order]
    by_cases hmem : key ∈ segment.filterMap (SurfaceUnit.key r.kind)
    · rw [if_pos hmem, if_pos (hopen.mpr hmem)]
    · rw [if_neg hmem, if_neg (mt hopen.mp hmem)]
  · rw [hkeys, clausesOf, List.filter_append, List.flatMap_append, ← clausesOf]
    by_cases hk : k = key
    · subst hk
      have hroots : ((st.groups k).getD ⟨[], head⟩).itemRoots = clausesOf r.kind segment k := by
        by_cases hmem : k ∈ segment.filterMap (SurfaceUnit.key r.kind)
        · rw [if_pos hmem] at hgroup
          obtain ⟨group, hsome, hroots⟩ := Option.map_eq_some_iff.mp hgroup
          rw [hsome, Option.getD_some, hroots]
        · rw [if_neg hmem, Option.map_eq_none_iff] at hgroup
          rw [hgroup, Option.getD_none, clausesOf, List.filter_eq_nil_iff.mpr, List.flatMap_nil]
          intro u hu heq
          exact hmem (List.mem_filterMap.mpr ⟨u, hu, of_decide_eq_true heq⟩)
      simp [SurfaceState.withClause, hroots, hkey, SurfaceUnit.items]
    · have hne : key ≠ k := fun h => hk h.symm
      have hsame : (st.withClause item key head).groups k = st.groups k := if_neg hk
      rw [hsame, hst.groups k]
      simp [hkey, hne, hk]
  · intro k group hsome i hi
    simp only [SurfaceState.withClause] at hsome
    split at hsome
    · rename_i hk
      subst hk
      cases hsome
      simp only [List.mem_append, List.mem_singleton] at hi
      rcases hi with (hi | hi) | rfl
      · cases hgroups : st.groups k with
        | none => simp [hgroups] at hi
        | some group =>
          rw [hgroups, Option.getD_some] at hi
          rw [← hhead group hgroups]
          exact hst.kinds k group hgroups i hi
      · exact .inl (hst.pending i hi)
      · exact .inr hkind
    · exact hst.kinds k group hsome i hi

/-- What an accepted scope is read to. -/
structure Reads (pending : List Item) (segment : List (SurfaceUnit Item)) (items : List Item)
    (start surface : ScopeSurface Item Attr Form) : Prop where
  attrs : surface.attrs.map Prod.fst = start.attrs.map Prod.fst ++
    items.filter fun item => r.kind item = .scopeAttr
  forms : surface.forms.map ScopeForm.items = start.forms.map ScopeForm.items ++
    layout r.kind segment (unitsFrom r.kind pending items).1
  leftover : (unitsFrom r.kind pending items).2 = []
  attached : ∀ u ∈ (unitsFrom r.kind pending items).1, r.kind u.item = .other → u.attrs = []
  oneFunction : ∀ group ∈ layout r.kind segment (unitsFrom r.kind pending items).1,
    OneFunction r.kind group

theorem oneFunction_of_not_clause {attrs : List Item} {item : Item}
    (hattrs : ∀ attr ∈ attrs, r.kind attr = .functionAttr)
    (hitem : ∀ key head, r.kind item ≠ .clause key head) :
    OneFunction r.kind (attrs ++ [item]) := by
  intro a ha b hb key key' head head' hka hkb
  rcases List.mem_append.mp ha with ha | ha
  · rw [hattrs a ha] at hka
    cases hka
  · rw [List.mem_singleton.mp ha] at hka
    exact absurd hka (hitem key head)

theorem Reads.boundary {pending : List Item} {item : Item}
    {items : List Item} {start next surface : ScopeSurface Item Attr Form}
    (hrest : r.Reads [] [] items next surface) (hitem : (r.kind item).isBoundary)
    (hpending : ∀ attr ∈ pending, r.kind attr = .functionAttr)
    (hother : r.kind item = .other → pending = []) (hattrs : next.attrs = start.attrs)
    (hforms : next.forms.map ScopeForm.items = start.forms.map ScopeForm.items ++
      (grouped r.kind segment ++ [pending ++ [item]]))
    (hone : ∀ group ∈ grouped r.kind segment, OneFunction r.kind group) :
    r.Reads pending segment (item :: items) start surface := by
  have hattr : (r.kind item).isAttr = false ∧ r.kind item ≠ .scopeAttr ∧
      (∀ key head, r.kind item ≠ .clause key head) ∧
      (⟨pending, item⟩ : SurfaceUnit Item).key r.kind = none := by
    cases hkind : r.kind item <;>
      simp_all [ItemKind.isAttr, ItemKind.isBoundary, SurfaceUnit.key]
  obtain ⟨hattr, hscope, hclause, hkey⟩ := hattr
  refine ⟨?_, ?_, ?_, ?_, ?_⟩
  · rw [hrest.attrs, hattrs, List.filter_cons_of_neg (by simpa using hscope)]
  · rw [hrest.forms, hforms, unitsFrom_cons hattr]
    simp only [layout, hkey, List.append_assoc, List.singleton_append, SurfaceUnit.items]
  · rw [unitsFrom_cons hattr]
    exact hrest.leftover
  · rw [unitsFrom_cons hattr]
    intro u hu
    rcases List.mem_cons.mp hu with rfl | hu
    · exact hother
    · exact hrest.attached u hu
  · rw [unitsFrom_cons hattr]
    simp only [layout, hkey, List.mem_append, List.mem_cons]
    rintro group (hgroup | rfl | hgroup)
    · exact hone group hgroup
    · exact r.oneFunction_of_not_clause hpending hclause
    · exact hrest.oneFunction group hgroup

theorem readItems_reads {items : List Item} {st : SurfaceState Item Attr Form}
    {surface : ScopeSurface Item Attr Form}
    (hst : r.Matches st segment) (h : r.readItems items st = .ok surface) :
    r.Reads st.pendingFunctionAttrs segment items st.toScopeSurface surface := by
  induction items generalizing st segment with
  | nil =>
    simp only [readItems, Except.bind_eq_ok] at h
    obtain ⟨flushed, hflush, _, hdangling, h⟩ := h
    cases h
    obtain ⟨-, hattrs, hpending, hforms, hone⟩ := hst.flush r hflush
    rw [r.rejectDanglingFunctionAttrs_eq_ok, hpending] at hdangling
    exact ⟨by simp [hattrs], by simpa [unitsFrom, layout] using hforms, hdangling,
      by simp [unitsFrom], by simpa [unitsFrom, layout] using hone⟩
  | cons item items ih =>
    simp only [readItems, Except.bind_eq_ok] at h
    obtain ⟨next, hnext, h⟩ := h
    have hstep := r.readItem_eq_ok hnext
    cases hkind : r.kind item with
    | scopeAttr =>
      simp only [hkind] at hstep
      obtain ⟨attr, rfl⟩ := hstep
      have hmatches : r.Matches { st with attrs := st.attrs ++ [(item, attr)] } segment :=
        ⟨hst.clauses, hst.order, hst.groups, hst.kinds, hst.pending⟩
      have hrest := ih hmatches h
      refine ⟨?_, ?_, ?_, ?_, ?_⟩
      · simpa [hkind, List.filter_cons] using hrest.attrs
      · simpa [unitsFrom, hkind] using hrest.forms
      · simpa [unitsFrom, hkind] using hrest.leftover
      · simpa [unitsFrom, hkind] using hrest.attached
      · simpa [unitsFrom, hkind] using hrest.oneFunction
    | functionAttr =>
      simp only [hkind] at hstep
      subst hstep
      have hpending : ∀ attr ∈ st.pendingFunctionAttrs ++ [item],
          r.kind attr = .functionAttr := by
        intro attr hattr
        rcases List.mem_append.mp hattr with hattr | hattr
        · exact hst.pending attr hattr
        · rwa [List.mem_singleton.mp hattr]
      have hmatches : r.Matches
          { st with pendingFunctionAttrs := st.pendingFunctionAttrs ++ [item] } segment :=
        ⟨hst.clauses, hst.order, hst.groups, hst.kinds, hpending⟩
      have hrest := ih hmatches h
      refine ⟨?_, ?_, ?_, ?_, ?_⟩
      · simpa [hkind, List.filter_cons] using hrest.attrs
      · simpa [unitsFrom, hkind] using hrest.forms
      · simpa [unitsFrom, hkind] using hrest.leftover
      · simpa [unitsFrom, hkind] using hrest.attached
      · simpa [unitsFrom, hkind] using hrest.oneFunction
    | clause key head =>
      simp only [hkind] at hstep
      obtain ⟨hhead, rfl⟩ := hstep
      have hrest := ih (hst.clause r hkind hhead) h
      have hkey : (⟨st.pendingFunctionAttrs, item⟩ : SurfaceUnit Item).key r.kind =
          some key := by simp only [SurfaceUnit.key, hkind]
      refine ⟨?_, ?_, ?_, ?_, ?_⟩
      · simpa [hkind, List.filter_cons, SurfaceState.withClause] using hrest.attrs
      · simpa [unitsFrom, hkind, layout, hkey, SurfaceState.withClause] using hrest.forms
      · simpa [unitsFrom, hkind, SurfaceState.withClause] using hrest.leftover
      · simpa [unitsFrom, hkind, SurfaceState.withClause] using hrest.attached
      · simpa [unitsFrom, hkind, layout, hkey, SurfaceState.withClause] using hrest.oneFunction
    | externItem =>
      simp only [hkind] at hstep
      obtain ⟨flushed, form, hflush, rfl⟩ := hstep
      obtain ⟨hflushed, hattrs, hpending, hforms, hone⟩ := hst.flush r hflush
      have hmatches : r.Matches
          { flushed with
            forms := flushed.forms ++ [⟨flushed.pendingFunctionAttrs ++ [item], form⟩]
            pendingFunctionAttrs := [] } [] :=
        ⟨hflushed.clauses, hflushed.order, hflushed.groups, hflushed.kinds, by simp⟩
      refine (ih hmatches h).boundary r (by rw [hkind]; rfl) hst.pending (by simp [hkind])
        hattrs ?_ hone
      simp [hforms, hpending]
    | other =>
      simp only [hkind] at hstep
      obtain ⟨flushed, form, hflush, hnone, rfl⟩ := hstep
      obtain ⟨hflushed, hattrs, hpending, hforms, hone⟩ := hst.flush r hflush
      have hmatches : r.Matches
          { flushed with forms := flushed.forms ++ [⟨[item], form⟩] } [] :=
        ⟨hflushed.clauses, hflushed.order, hflushed.groups, hflushed.kinds, hflushed.pending⟩
      have hrest := ih hmatches h
      rw [show ({ flushed with forms := flushed.forms ++ [⟨[item], form⟩] } :
        SurfaceState Item Attr Form).pendingFunctionAttrs = [] from hnone] at hrest
      refine hrest.boundary r (by rw [hkind]; rfl) hst.pending (fun _ => hpending ▸ hnone)
        hattrs ?_ hone
      simp [hforms, ← hpending, hnone]

theorem matches_nil : r.Matches ⟨⟨[], []⟩, [], fun _ => none, []⟩ [] :=
  ⟨by simp, rfl, by simp, by simp, by simp⟩

/-- A function attribute that no clause and no extern follows before the next other form. -/
def Dangling (items : List Item) : Prop :=
  ∃ before attr after, items = before ++ attr :: after ∧ r.kind attr = .functionAttr ∧
    ((∀ item ∈ after, (r.kind item).isAttr) ∨
      ∃ between item rest, after = between ++ item :: rest ∧
        (∀ item ∈ between, (r.kind item).isAttr) ∧ r.kind item = .other)

theorem Reads.not_dangling {items : List Item} {start surface : ScopeSurface Item Attr Form}
    (h : r.Reads [] [] items start surface) : ¬ r.Dangling items := by
  rintro ⟨before, attr, after, rfl, hattr, hafter⟩
  have hcons : ∀ {attrs : List Item}, (∀ item ∈ attrs, (r.kind item).isAttr) →
      ∀ item ∈ attr :: attrs, (r.kind item).isAttr := by
    intro attrs hattrs item hitem
    rcases List.mem_cons.mp hitem with rfl | hitem
    · rw [hattr]
      rfl
    · exact hattrs item hitem
  rcases hafter with hafter | ⟨between, item, rest, rfl, hbetween, hother⟩
  · have hleft := h.leftover
    rw [unitsFrom_append, unitsFrom_attrs (hcons hafter)] at hleft
    simp [hattr] at hleft
  · have hitem : (r.kind item).isAttr = false := by rw [hother]; rfl
    obtain ⟨front, hunit⟩ := mem_unitsFrom before rest (hcons hbetween) hitem
    have hattrs := h.attached _ hunit hother
    simp [hattr] at hattrs

/-- An accepted scope loses no item and repeats none.  Its forms are the groups of its segments and
the items between them, each group of one function and one head, and a function attribute stands
before its item.  A scope with a function attribute that has no item is not accepted. -/
theorem readSurface_keeps (items : List Item) : (∀ surface, r.readSurface items = .ok surface →
      (surface.attrs.map Prod.fst ++ surface.forms.flatMap ScopeForm.items).Perm items ∧
      surface.forms.map ScopeForm.items = layout r.kind [] (unitsFrom r.kind [] items).1 ∧
      (∀ before segment after, items = before ++ (segment ++ after) →
        (∀ item ∈ before.getLast?, (r.kind item).isBoundary) →
        (∀ item ∈ after.head?, (r.kind item).isBoundary) →
        (∀ item ∈ segment, (r.kind item).isBoundary = false) →
        ∃ front back, surface.forms.map ScopeForm.items =
          front ++ (grouped r.kind (unitsFrom r.kind [] segment).1 ++ back)) ∧
      (∀ form ∈ surface.forms, OneFunction r.kind form.items) ∧
      (∀ before attr between item after, items = before ++ (attr :: between ++ item :: after) →
        r.kind attr = .functionAttr → (∀ other ∈ between, (r.kind other).isAttr) →
        (r.kind item).isAttr = false → ∃ form ∈ surface.forms,
          attr :: (between.filter fun other => r.kind other = .functionAttr) ++ [item]
            <:+: form.items)) ∧
    (r.Dangling items → ∃ error, r.readSurface items = .error error) := by
  have hreads : ∀ surface, r.readSurface items = .ok surface →
      r.Reads [] [] items ⟨[], []⟩ surface := fun surface h => r.readItems_reads r.matches_nil h
  refine ⟨fun surface h => ?_, fun hdangling => ?_⟩
  · have hread := hreads surface h
    have hforms : surface.forms.map ScopeForm.items =
        layout r.kind [] (unitsFrom r.kind [] items).1 := by simpa using hread.forms
    refine ⟨?_, hforms, ?_, ?_, ?_⟩
    · have hunits := unitsFrom_perm r.kind [] items
      rw [hread.leftover, List.append_nil, List.nil_append] at hunits
      refine List.Perm.trans (List.Perm.append (.of_eq (by simpa using hread.attrs)) ?_) hunits
      rw [List.flatMap_def, hforms]
      simpa using layout_perm r.kind [] (unitsFrom r.kind [] items).1 (by simp)
    · rintro before segment after rfl hbefore hafter hsegment
      rw [hforms]
      exact layout_segment hbefore hafter hsegment
    · intro form hform
      exact hread.oneFunction _ (hforms ▸ List.mem_map_of_mem hform)
    · rintro before attr between item after rfl hattr hbetween hitem
      have hattrs : ∀ other ∈ attr :: between, (r.kind other).isAttr := by
        intro other hother
        rcases List.mem_cons.mp hother with rfl | hother
        · rw [hattr]
          rfl
        · exact hbetween other hother
      obtain ⟨front, hunit⟩ := mem_unitsFrom before after hattrs hitem
      obtain ⟨group, hgroup, hinfix⟩ := exists_infix_layout [] (by simp)
        (List.mem_append_right [] hunit)
      rw [← hforms] at hgroup
      obtain ⟨form, hform, rfl⟩ := List.mem_map.mp hgroup
      refine ⟨form, hform, List.IsInfix.trans ⟨front, [], ?_⟩ hinfix⟩
      simp [SurfaceUnit.items, hattr]
  · cases h : r.readSurface items with
    | error error => exact ⟨error, rfl⟩
    | ok surface => exact absurd hdangling ((hreads surface h).not_dangling r)

end SurfaceReader

end Fz.Front
