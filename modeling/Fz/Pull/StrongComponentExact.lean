import Fz.Pull.StrongComponent

/-!
# The search for recursive groups is exact

The search keeps the products that it visited in two parts.  Those that left the stack are settled:
every product that one of them reads has left the stack too (`Searching`).  A visit adds a segment
to the stack, the products that it visited and that reach something below the segment, and the link
of the visited product is a lower bound for what the segment reads on the stack (`Visited`).  At the
root of the search nothing lies below the segment, so the segment is what the root reaches and what
reaches the root.
-/

namespace Fz.Pull

open Relation (ReflTransGen)

variable {Key Kind : Type} [LinearOrder Key] [DecidableEq Kind]

section Graph

variable (memo : PendingMemo Key) (current : Key) (currentDependencies : ProductDependencies Key)

/-- A product of the pending graph waits, or is the current one. -/
def Waits (key : Key) : Prop :=
  key = current ∨ (memo.pendingProductDependencies key).isSome = true

/-- One product of the pending graph records a read of another. -/
def Reads (key dependency : Key) : Prop :=
  Waits memo current dependency ∧
    ∃ dependencies,
      (if key = current then some currentDependencies else memo.pendingProductDependencies key) =
        some dependencies ∧ dependency ∈ dependencies.products

/-- Reachable in the pending graph. -/
def Reaches : Key → Key → Prop := ReflTransGen (Reads memo current currentDependencies)

end Graph

namespace PendingStrongComponent

variable {memo : PendingMemo Key} {current : Key} {currentDependencies : ProductDependencies Key}
  {kind : Key → Kind} {search search' : PendingStrongComponent Key} {key : Key}

/-- The number of a visited product. -/
def number (search : PendingStrongComponent Key) (key : Key) : Option Nat :=
  (search.nodes.lookup key).map PendingNode.index

theorem mem_nodes_iff : key ∈ search.nodes ↔ ∃ n, search.number key = some n := by
  rw [Finmap.mem_iff, number]
  cases search.nodes.lookup key with
  | none => exact ⟨nofun, nofun⟩
  | some node => exact ⟨fun _ => ⟨_, rfl⟩, fun _ => ⟨_, rfl⟩⟩

/-! ## What the search keeps -/

/-- Between two steps the stack holds visited products, and what left the stack is closed. -/
structure Searching (memo : PendingMemo Key) (current : Key)
    (currentDependencies : ProductDependencies Key) (search : PendingStrongComponent Key) :
    Prop where
  onStack : ∀ key, key ∈ search.onStack ↔ key ∈ search.stack
  distinct : search.stack.Nodup
  visited : ∀ key ∈ search.stack, key ∈ search.nodes
  number_lt : ∀ key n, search.number key = some n → n < search.nextIndex
  settled : ∀ key ∈ search.nodes, key ∉ search.stack → ∀ dependency,
    Reads memo current currentDependencies key dependency →
    dependency ∈ search.nodes ∧ dependency ∉ search.stack

/-- The nodes of a search are kept and new ones have later numbers. -/
structure Extends (search search' : PendingStrongComponent Key) : Prop where
  next : search.nextIndex ≤ search'.nextIndex
  kept : ∀ key node, search.nodes.lookup key = some node → search'.nodes.lookup key = some node
  fresh : ∀ key n, key ∉ search.nodes → search'.number key = some n → search.nextIndex ≤ n

theorem Extends.mem (h : Extends search search') (hkey : key ∈ search.nodes) :
    key ∈ search'.nodes := by
  obtain ⟨node, hnode⟩ := Finmap.mem_iff.mp hkey
  exact Finmap.mem_iff.mpr ⟨node, h.kept key node hnode⟩

theorem Extends.number (h : Extends search search') (hkey : key ∈ search.nodes) :
    search'.number key = search.number key := by
  obtain ⟨node, hnode⟩ := Finmap.mem_iff.mp hkey
  rw [PendingStrongComponent.number, PendingStrongComponent.number, hnode, h.kept key node hnode]

theorem Extends.trans {search₁ search₂ search₃ : PendingStrongComponent Key}
    (h : Extends search₁ search₂) (h' : Extends search₂ search₃) : Extends search₁ search₃ where
  next := h.next.trans h'.next
  kept key node hnode := h'.kept key node (h.kept key node hnode)
  fresh key n hkey hn := by
    by_cases hmem : key ∈ search₂.nodes
    · rw [h'.number hmem] at hn
      exact h.fresh key n hkey hn
    · exact h.next.trans (h'.fresh key n hmem hn)

/-- What a product reads is visited, and has at least some number while it is on the stack. -/
def ReadsFrom (search : PendingStrongComponent Key) (low : Nat) (dependency : Key) : Prop :=
  dependency ∈ search.nodes ∧
    (dependency ∈ search.stack → ∀ n, search.number dependency = some n → low ≤ n)

theorem ReadsFrom.mono {low low' : Nat} (h : ReadsFrom search low key) (hle : low' ≤ low) :
    ReadsFrom search low' key :=
  ⟨h.1, fun hs n hn => hle.trans (h.2 hs n hn)⟩

/-- A product of a segment is new, reads nothing before `low`, and reaches what is below. -/
structure InSegment (memo : PendingMemo Key) (current : Key)
    (currentDependencies : ProductDependencies Key) (search search' : PendingStrongComponent Key)
    (low : Nat) (below : List Key) (key : Key) : Prop where
  new : key ∉ search.nodes
  reads : ∀ dependency, Reads memo current currentDependencies key dependency →
    ReadsFrom search' low dependency
  reaches : ∃ other ∈ below, Reaches memo current currentDependencies key other

/-- A visit of a product adds a segment to the stack. -/
structure Visited (memo : PendingMemo Key) (current : Key)
    (currentDependencies : ProductDependencies Key) (key : Key)
    (search search' : PendingStrongComponent Key) : Prop where
  searching : Searching memo current currentDependencies search'
  extend : Extends search search'
  reached : ∀ other ∈ search'.nodes, other ∈ search.nodes ∨
    Reaches memo current currentDependencies key other
  node : ∃ n low segment, search'.nodes.lookup key = some ⟨n, low⟩ ∧ search.nextIndex ≤ n ∧
    search'.stack = segment ++ search.stack ∧
    (∀ other ∈ segment,
      InSegment memo current currentDependencies search search' low search.stack other) ∧
    (low = n ∨ ∃ below ∈ search.stack, search.number below = some low ∧
      Reaches memo current currentDependencies key below)

/-- While the reads of a product are followed, the product and the segment above it are on the
stack. -/
structure Segment (memo : PendingMemo Key) (current : Key)
    (currentDependencies : ProductDependencies Key) (key : Key)
    (search : PendingStrongComponent Key) (followed : List Key) (low : Nat)
    (search' : PendingStrongComponent Key) : Prop where
  number : search'.number key = some search.nextIndex
  low_le : low ≤ search.nextIndex
  stack : ∃ segment, search'.stack = segment ++ key :: search.stack ∧ ∀ other ∈ segment,
    InSegment memo current currentDependencies search search' low (key :: search.stack) other
  below : ∃ below ∈ search'.stack, search'.number below = some low ∧
    Reaches memo current currentDependencies key below
  followed : ∀ dependency ∈ followed, Waits memo current dependency →
    ReadsFrom search' low dependency

structure Scanning (memo : PendingMemo Key) (current : Key)
    (currentDependencies : ProductDependencies Key) (key : Key)
    (search : PendingStrongComponent Key) (followed : List Key)
    (search' : PendingStrongComponent Key) : Prop where
  searching : Searching memo current currentDependencies search'
  extend : Extends search search'
  later : search.nextIndex < search'.nextIndex
  reached : ∀ other ∈ search'.nodes, other ∈ search.nodes ∨
    Reaches memo current currentDependencies key other
  segment : ∃ low, search'.nodes.lookup key = some ⟨search.nextIndex, low⟩ ∧
    Segment memo current currentDependencies key search followed low search'

/-! ## Steps -/

theorem Searching.congr (h : Searching memo current currentDependencies search)
    (hnext : search'.nextIndex = search.nextIndex) (hnumber : search'.number = search.number)
    (hstack : search'.stack = search.stack) (hon : search'.onStack = search.onStack) :
    Searching memo current currentDependencies search' := by
  have hmem : ∀ key, key ∈ search'.nodes ↔ key ∈ search.nodes := fun key => by
    rw [mem_nodes_iff, mem_nodes_iff, hnumber]
  refine ⟨?_, ?_, ?_, ?_, ?_⟩
  · rw [hon, hstack]
    exact h.onStack
  · rw [hstack]
    exact h.distinct
  · intro key hkey
    rw [hstack] at hkey
    exact (hmem key).mpr (h.visited key hkey)
  · rw [hnext, hnumber]
    exact h.number_lt
  · intro key hkey hns dependency hread
    rw [hstack] at hns ⊢
    rw [hmem]
    exact h.settled key ((hmem key).mp hkey) hns dependency hread

theorem ReadsFrom.congr {low : Nat} (h : ReadsFrom search low key)
    (hnumber : search'.number = search.number) (hstack : search'.stack = search.stack) :
    ReadsFrom search' low key := by
  obtain ⟨hmem, hlow⟩ := h
  refine ⟨?_, ?_⟩
  · rw [mem_nodes_iff, hnumber]
    exact mem_nodes_iff.mp hmem
  · rw [hstack, hnumber]
    exact hlow

variable {before : PendingStrongComponent Key}

variable {followed : List Key}

theorem Segment.congr {low : Nat}
    (h : Segment memo current currentDependencies key before followed low search)
    (hnumber : search'.number = search.number) (hstack : search'.stack = search.stack) :
    Segment memo current currentDependencies key before followed low search' := by
  obtain ⟨segment, hsplit, hsegment⟩ := h.stack
  refine ⟨by rw [hnumber]; exact h.number, h.low_le, ⟨segment, by rw [hstack, hsplit], ?_⟩, ?_, ?_⟩
  · intro other hother
    have hin := hsegment other hother
    exact ⟨hin.new, fun dependency hread => (hin.reads dependency hread).congr hnumber hstack,
      hin.reaches⟩
  · rw [hnumber, hstack]
    exact h.below
  · exact fun dependency hd hw => (h.followed dependency hd hw).congr hnumber hstack

theorem lower_spec {n low : Nat} (hkey : search.nodes.lookup key = some ⟨n, low⟩) (bound : Nat) :
    ∃ search', search.lower key bound = some search' ∧
      search'.nodes.lookup key = some ⟨n, min low bound⟩ ∧
      (∀ other, other ≠ key → search'.nodes.lookup other = search.nodes.lookup other) ∧
      search'.number = search.number ∧ search'.nextIndex = search.nextIndex ∧
      search'.stack = search.stack ∧ search'.onStack = search.onStack := by
  refine ⟨{ search with nodes := search.nodes.insert key ⟨n, min low bound⟩ },
    by rw [lower, hkey]; rfl, Finmap.lookup_insert _, fun other hne =>
      Finmap.lookup_insert_of_ne _ hne, ?_, rfl, rfl, rfl⟩
  funext other
  rw [number, number]
  by_cases hne : other = key
  · subst hne
    rw [hkey]
    show Option.map _ ((search.nodes.insert other _).lookup other) = _
    rw [Finmap.lookup_insert]
    rfl
  · exact congrArg (Option.map PendingNode.index) (Finmap.lookup_insert_of_ne _ hne)

theorem Scanning.lower {low : Nat}
    {bound : Nat} (hs : Searching memo current currentDependencies search)
    (he : Extends before search) (hl : before.nextIndex < search.nextIndex)
    (hr : ∀ other ∈ search.nodes, other ∈ before.nodes ∨
      Reaches memo current currentDependencies key other) (hnew : key ∉ before.nodes)
    (hkey : search.nodes.lookup key = some ⟨before.nextIndex, low⟩)
    (hsegment : Segment memo current currentDependencies key before followed (min low bound)
      search) : ∃ search', search.lower key bound = some search' ∧
      Scanning memo current currentDependencies key before followed search' := by
  obtain ⟨search', hlower, hkey', hother, hnumber, hnext, hstack, hon⟩ := lower_spec hkey bound
  refine ⟨search', hlower, hs.congr hnext hnumber hstack hon, ⟨?_, ?_, ?_⟩, ?_, ?_, _, hkey',
    hsegment.congr hnumber hstack⟩
  · rw [hnext]
    exact he.next
  · intro other node hnode
    have hne : other ≠ key := by
      rintro rfl
      exact hnew (Finmap.mem_iff.mpr ⟨node, hnode⟩)
    rw [hother other hne]
    exact he.kept other node hnode
  · rw [hnumber]
    exact he.fresh
  · rw [hnext]
    exact hl
  · intro other hmem
    rw [mem_nodes_iff, hnumber] at hmem
    exact hr other (mem_nodes_iff.mpr hmem)

theorem number_enter_self : (search.enter key).number key = some search.nextIndex := by
  show Option.map _ ((search.nodes.insert key _).lookup key) = _
  rw [Finmap.lookup_insert]
  rfl

theorem number_enter {other : Key} (h : other ≠ key) :
    (search.enter key).number other = search.number other :=
  congrArg (Option.map PendingNode.index) (Finmap.lookup_insert_of_ne _ h)

theorem mem_nodes_enter {other : Key} :
    other ∈ (search.enter key).nodes ↔ other = key ∨ other ∈ search.nodes :=
  Finmap.mem_insert

theorem Scanning.init (h : Searching memo current currentDependencies search)
    (hkey : key ∉ search.nodes) :
    Scanning memo current currentDependencies key search [] (search.enter key) where
  searching := {
    onStack := fun other => by
      show other ∈ insert key search.onStack ↔ other ∈ key :: search.stack
      rw [Finset.mem_insert, List.mem_cons, h.onStack]
    distinct := List.nodup_cons.mpr ⟨fun hs => hkey (h.visited key hs), h.distinct⟩
    visited := fun other hother => mem_nodes_enter.mpr
      ((List.mem_cons.mp hother).imp_right (h.visited other))
    number_lt := fun other n hn => by
      by_cases hne : other = key
      · subst hne
        rw [number_enter_self] at hn
        cases hn
        exact Nat.lt_succ_self _
      · rw [number_enter hne] at hn
        exact Nat.lt_succ_of_lt (h.number_lt other n hn)
    settled := fun other hother hns dependency hread => by
      obtain ⟨hne, hns⟩ := not_or.mp (List.mem_cons.not.mp hns)
      obtain ⟨hd, hds⟩ := h.settled other ((mem_nodes_enter.mp hother).resolve_left hne) hns
        dependency hread
      refine ⟨mem_nodes_enter.mpr (.inr hd), List.mem_cons.not.mpr (not_or.mpr ⟨?_, hds⟩)⟩
      rintro rfl
      exact hkey hd }
  extend := {
    next := Nat.le_succ _
    kept := fun other node hnode => by
      refine (Finmap.lookup_insert_of_ne _ ?_).trans hnode
      rintro rfl
      exact hkey (Finmap.mem_iff.mpr ⟨node, hnode⟩)
    fresh := fun other n hother hn => by
      by_cases hne : other = key
      · subst hne
        rw [number_enter_self] at hn
        cases hn
        exact le_rfl
      · rw [number_enter hne] at hn
        exact absurd (mem_nodes_iff.mpr ⟨n, hn⟩) hother }
  later := Nat.lt_succ_self _
  reached other hother := by
    rcases mem_nodes_enter.mp hother with rfl | hother
    · exact .inr .refl
    · exact .inl hother
  segment := ⟨search.nextIndex, Finmap.lookup_insert _, number_enter_self, le_rfl,
    ⟨[], rfl, nofun⟩, ⟨key, .head _, number_enter_self, .refl⟩, nofun⟩

theorem ReadsFrom.extend {low : Nat} {segment : List Key} (h : ReadsFrom search low key)
    (he : Extends search search') (hstack : search'.stack = segment ++ search.stack)
    (hsegment : ∀ other ∈ segment, other ∉ search.nodes) : ReadsFrom search' low key := by
  refine ⟨he.mem h.1, fun hs n hn => ?_⟩
  rw [hstack] at hs
  rw [he.number h.1] at hn
  exact h.2 ((List.mem_append.mp hs).resolve_left fun hs => hsegment key hs h.1) n hn

variable {dependency : Key}

theorem Segment.visit {low : Nat}
    (h : Segment memo current currentDependencies key before followed low search)
    (hs : Searching memo current currentDependencies search)
    (he : Extends before search) (hl : before.nextIndex < search.nextIndex)
    (hread : Reads memo current currentDependencies key dependency)
    (hv : Visited memo current currentDependencies dependency search search') :
    ∃ n link, search'.nodes.lookup dependency = some ⟨n, link⟩ ∧
      Segment memo current currentDependencies key before (followed ++ [dependency])
        (min low link) search' := by
  obtain ⟨n, link, segment', hnode, hn, hstack', hsegment', hlink⟩ := hv.node
  obtain ⟨segment, hstack, hsegment⟩ := h.stack
  have hfresh : ∀ other ∈ segment', other ∉ search.nodes := fun other ho => (hsegment' other ho).new
  have hkeep : ∀ {d}, ReadsFrom search low d → ReadsFrom search' (min low link) d := fun hd =>
    (hd.extend hv.extend hstack' hfresh).mono (Nat.min_le_left _ _)
  have hkey : key ∈ search.nodes := mem_nodes_iff.mpr ⟨_, h.number⟩
  refine ⟨n, link, hnode, ?_, (Nat.min_le_left _ _).trans h.low_le,
    ⟨segment' ++ segment, by rw [hstack', hstack, List.append_assoc], ?_⟩, ?_, ?_⟩
  · rw [hv.extend.number hkey, h.number]
  · intro other hother
    rcases List.mem_append.mp hother with hother | hother
    · have hin := hsegment' other hother
      refine ⟨fun hb => hin.new (he.mem hb),
        fun d hd => (hin.reads d hd).mono (Nat.min_le_right _ _), ?_⟩
      -- below the segment of the dependency lies the segment so far, which reaches further down
      obtain ⟨mid, hmid, hreach⟩ := hin.reaches
      rw [hstack] at hmid
      rcases List.mem_append.mp hmid with hmid | hmid
      · obtain ⟨below, hbelow, hreach'⟩ := (hsegment mid hmid).reaches
        exact ⟨below, hbelow, hreach.trans hreach'⟩
      · exact ⟨mid, hmid, hreach⟩
    · have hin := hsegment other hother
      exact ⟨hin.new, fun d hd => hkeep (hin.reads d hd), hin.reaches⟩
  · obtain ⟨below, hbelow, hnumber, hreach⟩ := h.below
    by_cases hlow : low ≤ link
    · rw [Nat.min_eq_left hlow]
      refine ⟨below, ?_, ?_, hreach⟩
      · rw [hstack']
        exact List.mem_append_right _ hbelow
      · rw [hv.extend.number (hs.visited below hbelow), hnumber]
    · rw [Nat.min_eq_right (Nat.le_of_not_le hlow)]
      rcases hlink with rfl | ⟨below, hbelow, hnumber, hreach⟩
      · exact absurd (h.low_le.trans (hl.le.trans hn)) hlow
      · refine ⟨below, ?_, ?_, .head hread hreach⟩
        · rw [hstack']
          exact List.mem_append_right _ hbelow
        · rw [hv.extend.number (hs.visited below hbelow), hnumber]
  · intro d hd hw
    rcases List.mem_append.mp hd with hd | hd
    · exact hkeep (h.followed d hd hw)
    · rw [List.mem_singleton.mp hd]
      refine ⟨Finmap.mem_iff.mpr ⟨_, hnode⟩, fun hds m hm => ?_⟩
      rw [PendingStrongComponent.number, hnode] at hm
      cases hm
      exact (Nat.min_le_left _ _).trans (h.low_le.trans (hl.le.trans hn))

theorem Segment.seen {low : Nat} (bound : Nat)
    (h : Segment memo current currentDependencies key before followed low search)
    (hd : dependency ∈ search.nodes) (hread : Reads memo current currentDependencies key dependency)
    (hbound : if dependency ∈ search.stack then search.number dependency = some bound
      else low ≤ bound) :
    Segment memo current currentDependencies key before (followed ++ [dependency]) (min low bound)
      search := by
  obtain ⟨segment, hstack, hsegment⟩ := h.stack
  refine ⟨h.number, (Nat.min_le_left _ _).trans h.low_le, ⟨segment, hstack, fun other hother => ?_⟩,
    ?_, fun d hmem hw => ?_⟩
  · have hin := hsegment other hother
    exact ⟨hin.new, fun d hd => (hin.reads d hd).mono (Nat.min_le_left _ _), hin.reaches⟩
  · by_cases hlow : low ≤ bound
    · rw [Nat.min_eq_left hlow]
      exact h.below
    · rw [Nat.min_eq_right (Nat.le_of_not_le hlow)]
      split at hbound
      · rename_i hds
        exact ⟨dependency, hds, hbound, .single hread⟩
      · exact absurd hbound hlow
  · rcases List.mem_append.mp hmem with hmem | hmem
    · exact (h.followed d hmem hw).mono (Nat.min_le_left _ _)
    · rw [List.mem_singleton.mp hmem]
      refine ⟨hd, fun hds n hn => ?_⟩
      rw [if_pos hds, hn] at hbound
      cases hbound
      exact Nat.min_le_right _ _

theorem Scanning.congr (h : Scanning memo current currentDependencies key before followed search)
    (hnext : search'.nextIndex = search.nextIndex) (hnodes : search'.nodes = search.nodes)
    (hstack : search'.stack = search.stack) (hon : search'.onStack = search.onStack) :
    Scanning memo current currentDependencies key before followed search' := by
  have hnumber : search'.number = search.number := by
    funext other
    rw [number, number, hnodes]
  obtain ⟨low, hkey, hsegment⟩ := h.segment
  refine ⟨h.searching.congr hnext hnumber hstack hon, ⟨?_, ?_, ?_⟩, ?_, ?_, low, ?_,
    hsegment.congr hnumber hstack⟩
  · rw [hnext]
    exact h.extend.next
  · rw [hnodes]
    exact h.extend.kept
  · rw [hnumber]
    exact h.extend.fresh
  · rw [hnext]
    exact h.later
  · rw [hnodes]
    exact h.reached
  · rw [hnodes]
    exact hkey

/-! ## The bound of the recursion -/

/-- How many products of the pending graph are not visited. -/
def unvisited (memo : PendingMemo Key) (current : Key) (search : PendingStrongComponent Key) :
    Nat :=
  (insert current memo.pendingDependencies.keys \ search.nodes.keys).card

theorem mem_of_waits (h : Waits memo current key) :
    key ∈ insert current memo.pendingDependencies.keys := by
  rcases h with rfl | h
  · exact Finset.mem_insert_self _ _
  · exact Finset.mem_insert_of_mem (Finmap.mem_keys.mpr (Finmap.lookup_isSome.mp h))

theorem unvisited_lt (h : Extends search search') (hw : Waits memo current key)
    (hkey : key ∉ search.nodes) (hkey' : key ∈ search'.nodes) :
    unvisited memo current search' < unvisited memo current search := by
  refine Finset.card_lt_card (Finset.ssubset_iff_subset_ne.mpr ⟨?_, fun heq => ?_⟩)
  · refine Finset.sdiff_subset_sdiff (Finset.Subset.refl _) fun other hother => ?_
    exact Finmap.mem_keys.mpr (h.mem (Finmap.mem_keys.mp hother))
  · have hmem := Finset.mem_sdiff.mpr ⟨mem_of_waits hw, Finmap.mem_keys.not.mpr hkey⟩
    rw [← heq] at hmem
    exact (Finset.mem_sdiff.mp hmem).2 (Finmap.mem_keys.mpr hkey')

/-! ## Scans and visits -/

theorem not_waits
    (h : dependency ≠ current ∧ (memo.pendingProductDependencies dependency).isNone = true) :
    ¬ Waits memo current dependency := by
  rintro (hw | hw)
  · exact h.1 hw
  · rw [Option.isNone_iff_eq_none.mp h.2] at hw
    exact nomatch hw

theorem waits_of
    (h : ¬ (dependency ≠ current ∧ (memo.pendingProductDependencies dependency).isNone = true)) :
    Waits memo current dependency := by
  by_cases heq : dependency = current
  · exact .inl heq
  · exact .inr (Option.isSome_iff_ne_none.mpr fun hnone =>
      h ⟨heq, Option.isNone_iff_eq_none.mpr hnone⟩)

/-- A visit with enough fuel returns. -/
def VisitReturns (memo : PendingMemo Key) (current : Key)
    (currentDependencies : ProductDependencies Key) (visit : PendingStrongComponent Key → Key →
      Option (PendingStrongComponent Key × Option (List Key))) (fuel : Nat) : Prop :=
  ∀ (search : PendingStrongComponent Key) (key : Key),
    Searching memo current currentDependencies search → key ∉ search.nodes →
    Waits memo current key → unvisited memo current search ≤ fuel →
    ∃ search' result, visit search key = some (search', result) ∧
      Visited memo current currentDependencies key search search'

section Scan

variable {visit : PendingStrongComponent Key → Key →
    Option (PendingStrongComponent Key × Option (List Key))} {fuel : Nat}
  {before : PendingStrongComponent Key} {followed : List Key}

theorem Scanning.skip (h : Scanning memo current currentDependencies key before followed search)
    {dependency : Key} (hw : ¬ Waits memo current dependency) :
    Scanning memo current currentDependencies key before (followed ++ [dependency]) search := by
  obtain ⟨low, hkey, hsegment⟩ := h.segment
  refine ⟨h.searching, h.extend, h.later, h.reached, low, hkey, hsegment.number, hsegment.low_le,
    hsegment.stack, hsegment.below, fun other hother hwaits => ?_⟩
  rcases List.mem_append.mp hother with hother | hother
  · exact hsegment.followed other hother hwaits
  · rw [List.mem_singleton.mp hother] at hwaits
    exact absurd hwaits hw

/-- One read is followed. -/
theorem scan_step (hvisit : VisitReturns memo current currentDependencies visit fuel)
    (hnew : key ∉ before.nodes) (hw : Waits memo current key)
    (hfuel : unvisited memo current before ≤ fuel + 1) {dependency : Key}
    (hread : Waits memo current dependency → Reads memo current currentDependencies key dependency)
    (h : Scanning memo current currentDependencies key before followed search)
    (dependencies : List Key) :
    ∃ search', scan memo current visit key (dependency :: dependencies) search =
        scan memo current visit key dependencies search' ∧
      Scanning memo current currentDependencies key before (followed ++ [dependency]) search' := by
  rw [scan]
  split
  · rename_i hskip
    exact ⟨search, rfl, h.skip (not_waits hskip)⟩
  · rename_i hskip
    have hwaits := waits_of hskip
    have h : Scanning memo current currentDependencies key before followed search.scanned :=
      h.congr rfl rfl rfl rfl
    dsimp only
    generalize search.scanned = search at h ⊢
    obtain ⟨low, hkey, hsegment⟩ := h.segment
    cases hnode : search.nodes.lookup dependency with
    | none =>
      have hdep : dependency ∉ search.nodes := fun hmem => by
        rw [Finmap.mem_iff, hnode] at hmem
        exact nomatch hmem.choose_spec
      have hlt := unvisited_lt h.extend hw hnew (mem_nodes_iff.mpr ⟨_, hsegment.number⟩)
      obtain ⟨search', result, hrun, hv⟩ := hvisit search dependency h.searching hdep hwaits
        (Nat.le_of_lt_succ (hlt.trans_le hfuel))
      obtain ⟨n, link, hnode', hsegment'⟩ :=
        hsegment.visit h.searching h.extend h.later (hread hwaits) hv
      have hreached : ∀ other ∈ search'.nodes, other ∈ before.nodes ∨
          Reaches memo current currentDependencies key other := by
        intro other hother
        rcases hv.reached other hother with hother | hother
        · exact h.reached other hother
        · exact .inr (.head (hread hwaits) hother)
      obtain ⟨search'', hlower, hscan⟩ := Scanning.lower hv.searching (h.extend.trans hv.extend)
        (h.later.trans_le hv.extend.next) hreached hnew (hv.extend.kept key _ hkey) hsegment'
      refine ⟨search'', ?_, hscan⟩
      simp only [hrun, hnode', hlower, Option.bind_eq_bind, Option.bind_some]
    | some node =>
      have hdep : dependency ∈ search.nodes := Finmap.mem_iff.mpr ⟨node, hnode⟩
      by_cases hon : dependency ∈ search.onStack
      · have hds := (h.searching.onStack dependency).mp hon
        have hsegment' := hsegment.seen node.index hdep (hread hwaits) (by
          rw [if_pos hds, number, hnode]
          rfl)
        obtain ⟨search', hlower, hscan⟩ := Scanning.lower h.searching h.extend h.later h.reached
          hnew hkey hsegment'
        refine ⟨search', ?_, hscan⟩
        simp only [if_pos hon, hlower, Option.bind_eq_bind, Option.bind_some]
      · have hds := (h.searching.onStack dependency).not.mp hon
        have hsegment' := hsegment.seen low hdep (hread hwaits) (by rw [if_neg hds])
        rw [Nat.min_self] at hsegment'
        refine ⟨search, ?_, h.searching, h.extend, h.later, h.reached, low, hkey, hsegment'⟩
        simp only [if_neg hon]

theorem scan_spec (hvisit : VisitReturns memo current currentDependencies visit fuel)
    (hnew : key ∉ before.nodes) (hw : Waits memo current key)
    (hfuel : unvisited memo current before ≤ fuel + 1) (dependencies : List Key)
    (hreads : ∀ dependency ∈ dependencies, Waits memo current dependency →
      Reads memo current currentDependencies key dependency)
    (h : Scanning memo current currentDependencies key before followed search) :
    ∃ search', scan memo current visit key dependencies search = some search' ∧
      Scanning memo current currentDependencies key before (followed ++ dependencies) search' := by
  induction dependencies generalizing followed search with
  | nil => exact ⟨search, rfl, by rwa [List.append_nil]⟩
  | cons dependency dependencies ih =>
    obtain ⟨search₁, hstep, hscan⟩ := scan_step hvisit hnew hw hfuel (hreads dependency (.head _)) h
      dependencies
    obtain ⟨search', hrest, hscan'⟩ := ih (fun d hd => hreads d (.tail _ hd)) hscan
    rw [List.append_assoc] at hscan'
    exact ⟨search', hstep.trans hrest, hscan'⟩

end Scan

theorem popComponent_append (segment stack : List Key) (onStack : Finset Key)
    (hkey : key ∉ segment) : ∃ onStack', popComponent key (segment ++ key :: stack) onStack =
        some (segment ++ [key], stack, onStack') ∧
      ∀ other, other ∈ onStack' ↔ other ∈ onStack ∧ other ∉ segment ∧ other ≠ key := by
  induction segment generalizing onStack with
  | nil =>
    refine ⟨onStack.erase key, by rw [List.nil_append, popComponent, if_pos rfl]; rfl,
      fun other => ?_⟩
    rw [Finset.mem_erase]
    exact ⟨fun h => ⟨h.2, nofun, h.1⟩, fun h => ⟨h.2.2, h.1⟩⟩
  | cons member segment ih =>
    obtain ⟨hne, hkey⟩ := not_or.mp (List.mem_cons.not.mp hkey)
    obtain ⟨onStack', hpop, hmem⟩ := ih (onStack.erase member) hkey
    refine ⟨onStack', ?_, fun other => ?_⟩
    · rw [List.cons_append, popComponent, if_neg (Ne.symm hne), hpop]
      rfl
    · rw [hmem, Finset.mem_erase, List.mem_cons, not_or]
      exact ⟨fun h => ⟨h.1.2, ⟨h.1.1, h.2.1⟩, h.2.2⟩, fun h => ⟨⟨h.2.1.1, h.1⟩, h.2.1.2, h.2.2⟩⟩

theorem reads_iff :
    Reads memo current currentDependencies key dependency ↔ Waits memo current dependency ∧
      dependency ∈ ((dependenciesOf memo current currentDependencies key).map
        ProductDependencies.products).getD [] := by
  rw [Reads, dependenciesOf]
  refine and_congr_right fun _ => ?_
  generalize (if key = current then some currentDependencies
    else memo.pendingProductDependencies key) = dependencies
  cases dependencies with
  | none =>
    refine ⟨?_, nofun⟩
    rintro ⟨_, h, _⟩
    exact nomatch h
  | some dependencies =>
    refine ⟨?_, fun h => ⟨_, rfl, h⟩⟩
    rintro ⟨_, ⟨⟩, h⟩
    exact h

theorem visit_scans {fuel : Nat}
    (hvisit : VisitReturns memo current currentDependencies
      (visit memo current currentDependencies kind fuel) fuel)
    (hs : Searching memo current currentDependencies search) (hnew : key ∉ search.nodes)
    (hw : Waits memo current key) (hfuel : unvisited memo current search ≤ fuel + 1) :
    ∃ search' low, visit memo current currentDependencies kind (fuel + 1) search key =
        (if low ≠ search.nextIndex then some (search', none)
        else do
          let (component, stack, onStack) ← popComponent key search'.stack search'.onStack
          some ({ search' with stack := stack, onStack := onStack }, some component)) ∧
      search'.nodes.lookup key = some ⟨search.nextIndex, low⟩ ∧
      Scanning memo current currentDependencies key search
        (((dependenciesOf memo current currentDependencies key).map
          ProductDependencies.products).getD []) search' ∧
      Segment memo current currentDependencies key search
        (((dependenciesOf memo current currentDependencies key).map
          ProductDependencies.products).getD []) low search' := by
  have hinit := Scanning.init hs hnew
  have hstart : Scanning memo current currentDependencies key search []
      (if (dependenciesOf memo current currentDependencies key).isSome ∧ kind key = kind current
        then (search.enter key).candidate else search.enter key) := by
    split
    · exact hinit.congr rfl rfl rfl rfl
    · exact hinit
  obtain ⟨search', hscan, hscanning⟩ := scan_spec hvisit hnew hw hfuel _
    (fun dependency hd hwaits => reads_iff.mpr ⟨hwaits, hd⟩) hstart
  obtain ⟨low, hkey, hsegment⟩ := hscanning.segment
  refine ⟨search', low, ?_, hkey, hscanning, hsegment⟩
  rw [visit]
  dsimp only
  rw [Option.bind_eq_bind, hscan, Option.bind_some, Option.bind_eq_bind, hkey, Option.bind_some]
  rfl

theorem Searching.pop {segment : List Key} {onStack : Finset Key}
    (hs : Searching memo current currentDependencies search)
    (h : Searching memo current currentDependencies search') (he : Extends search search')
    (hstack : search'.stack = segment ++ search.stack)
    (hreads : ∀ other ∈ segment, ∀ dependency,
      Reads memo current currentDependencies other dependency →
      ReadsFrom search' search.nextIndex dependency)
    (hon : ∀ other, other ∈ onStack ↔ other ∈ search'.onStack ∧ other ∉ segment) :
    Searching memo current currentDependencies
      { search' with stack := search.stack, onStack := onStack } := by
  have hnd := h.distinct
  rw [hstack] at hnd
  refine ⟨fun other => ?_, (List.nodup_append.mp hnd).2.1, fun other hother => ?_, h.number_lt,
    fun other hother hns dependency hread => ?_⟩
  · rw [hon, h.onStack, hstack, List.mem_append]
    exact ⟨fun hmem => hmem.1.resolve_left hmem.2, fun hmem => ⟨.inr hmem, fun hseg =>
      (List.nodup_append.mp hnd).2.2 other hseg other hmem rfl⟩⟩
  · exact he.mem (hs.visited other hother)
  · by_cases hos : other ∈ search'.stack
    · rw [hstack] at hos
      obtain ⟨hd, hfrom⟩ :=
        hreads other ((List.mem_append.mp hos).resolve_right hns) dependency hread
      refine ⟨hd, fun hds => ?_⟩
      obtain ⟨n, hn⟩ := mem_nodes_iff.mp (hs.visited dependency hds)
      have hle := hfrom (by rw [hstack]; exact List.mem_append_right _ hds) n
        ((he.number (hs.visited dependency hds)).trans hn)
      exact absurd (hs.number_lt dependency n hn) (Nat.not_lt_of_le hle)
    · obtain ⟨hd, hds⟩ := h.settled other hother hos dependency hread
      exact ⟨hd, fun hmem => hds (by rw [hstack]; exact List.mem_append_right _ hmem)⟩

theorem visit_returns (memo : PendingMemo Key) (current : Key)
    (currentDependencies : ProductDependencies Key) (kind : Key → Kind) (fuel : Nat) :
    VisitReturns memo current currentDependencies (visit memo current currentDependencies kind fuel)
      fuel := by
  induction fuel with
  | zero =>
    intro search key hs hnew hw hfuel
    have hmem := Finset.mem_sdiff.mpr ⟨mem_of_waits hw, Finmap.mem_keys.not.mpr hnew⟩
    rw [unvisited, Nat.le_zero, Finset.card_eq_zero] at hfuel
    rw [hfuel] at hmem
    exact absurd hmem (Finset.notMem_empty _)
  | succ fuel ih =>
    intro search key hs hnew hw hfuel
    obtain ⟨search', low, hrun, hkey, h, hsegment⟩ := visit_scans ih hs hnew hw hfuel
    obtain ⟨segment, hstack, hin⟩ := hsegment.stack
    have hreads : ∀ dependency, Reads memo current currentDependencies key dependency →
        ReadsFrom search' low dependency := fun dependency hread =>
      hsegment.followed dependency (reads_iff.mp hread).2 (reads_iff.mp hread).1
    have hnd := h.searching.distinct
    rw [hstack] at hnd
    rw [hrun]
    by_cases hlow : low = search.nextIndex
    · -- the product is the root of its component, which leaves the stack
      have hkseg : key ∉ segment := fun hmem =>
        (List.nodup_append.mp hnd).2.2 key hmem key (.head _) rfl
      obtain ⟨onStack', hpop, hon⟩ := popComponent_append segment search.stack search'.onStack hkseg
      rw [if_neg (not_not.mpr hlow), hstack, hpop]
      refine ⟨_, _, rfl, ?_, ?_, h.reached, ?_⟩
      · refine hs.pop h.searching h.extend
          (show search'.stack = (segment ++ [key]) ++ search.stack by
            rw [hstack, List.append_assoc]; rfl) (fun other hother => ?_) fun other => ?_
        · rcases List.mem_append.mp hother with hother | hother
          · rw [← hlow]
            exact (hin other hother).reads
          · rw [List.mem_singleton.mp hother, ← hlow]
            exact hreads
        · rw [hon, List.mem_append, List.mem_singleton, not_or]
      · exact ⟨h.extend.next, h.extend.kept, h.extend.fresh⟩
      · exact ⟨search.nextIndex, low, [], hkey, le_rfl, rfl, nofun, .inl hlow⟩
    · rw [if_pos hlow]
      obtain ⟨below, hbelow, hnumber, hreach⟩ := hsegment.below
      have hbelow' : below ∈ search.stack := by
        rw [hstack] at hbelow
        rcases List.mem_append.mp hbelow with hbelow | hbelow
        · have hfresh := h.extend.fresh below low (hin below hbelow).new hnumber
          exact absurd (Nat.le_antisymm hsegment.low_le hfresh) hlow
        · rcases List.mem_cons.mp hbelow with rfl | hbelow
          · rw [hsegment.number] at hnumber
            exact absurd (Option.some.inj hnumber).symm hlow
          · exact hbelow
      refine ⟨_, _, rfl, h.searching, h.extend, h.reached, search.nextIndex, low, segment ++ [key],
        hkey, le_rfl, by rw [hstack, List.append_assoc]; rfl, ?_, .inr ⟨below, hbelow', ?_, hreach⟩⟩
      · intro other hother
        rcases List.mem_append.mp hother with hother | hother
        · have hother := hin other hother
          refine ⟨hother.new, hother.reads, ?_⟩
          obtain ⟨mid, hmid, hreach'⟩ := hother.reaches
          rcases List.mem_cons.mp hmid with rfl | hmid
          · exact ⟨below, hbelow', hreach'.trans hreach⟩
          · exact ⟨mid, hmid, hreach'⟩
        · rw [List.mem_singleton.mp hother]
          exact ⟨hnew, hreads, below, hbelow', hreach⟩
      · rw [← h.extend.number (hs.visited below hbelow'), hnumber]

/-! ## The component of the root -/

theorem searching_new :
    Searching memo current currentDependencies (new : PendingStrongComponent Key) where
  onStack key := ⟨fun h => absurd h (Finset.notMem_empty key), nofun⟩
  distinct := .nil
  visited _ h := nomatch h
  number_lt _ _ h := nomatch h
  settled _ h := absurd h Finmap.notMem_empty

theorem mem_of_reaches (h : ∀ other ∈ search.nodes, ∀ dependency,
      Reads memo current currentDependencies other dependency → dependency ∈ search.nodes)
    (hkey : key ∈ search.nodes) {other : Key}
    (hreach : Reaches memo current currentDependencies key other) : other ∈ search.nodes := by
  induction hreach with
  | refl => exact hkey
  | tail _ hread ih => exact h _ ih _ hread

theorem Searching.not_mem_stack_of_reaches
    (h : Searching memo current currentDependencies search) (hkey : key ∈ search.nodes)
    (hns : key ∉ search.stack) {other : Key}
    (hreach : Reaches memo current currentDependencies key other) :
    other ∈ search.nodes ∧ other ∉ search.stack := by
  induction hreach with
  | refl => exact ⟨hkey, hns⟩
  | tail _ hread ih => exact h.settled _ ih.1 ih.2 _ hread

/-- The search finds what the root reaches and what reaches the root, each product once. -/
theorem visit_root (currentDependencies : ProductDependencies Key) (kind : Key → Kind) {fuel : Nat}
    (hw : Waits memo current key)
    (hfuel : unvisited memo current (new : PendingStrongComponent Key) ≤ fuel + 1) :
    ∃ search component, visit memo current currentDependencies kind (fuel + 1) new key =
        some (search, some component) ∧ component.Nodup ∧
      ∀ other, other ∈ component ↔ Reaches memo current currentDependencies key other ∧
        Reaches memo current currentDependencies other key := by
  obtain ⟨search, low, hrun, hkey, h, hsegment⟩ := visit_scans
    (visit_returns memo current currentDependencies kind fuel) searching_new Finmap.notMem_empty
    hw hfuel
  obtain ⟨segment, hstack, hin⟩ := hsegment.stack
  have hnd := h.searching.distinct
  rw [hstack] at hnd
  have hlow : low = (new : PendingStrongComponent Key).nextIndex := Nat.le_zero.mp hsegment.low_le
  have hkseg : key ∉ segment := fun hmem =>
    (List.nodup_append.mp hnd).2.2 key hmem key (.head _) rfl
  obtain ⟨onStack, hpop, -⟩ := popComponent_append segment [] search.onStack hkseg
  have hstack' : search.stack = segment ++ [key] := hstack
  refine ⟨{ search with stack := [], onStack := onStack }, segment ++ [key], ?_, hnd,
    fun other => ?_⟩
  · rw [hrun, if_neg (not_not.mpr hlow), hstack', hpop]
    rfl
  · have hkmem : key ∈ search.nodes := mem_nodes_iff.mpr ⟨_, hsegment.number⟩
    constructor
    · intro hmem
      rw [← hstack'] at hmem
      refine ⟨(h.reached other (h.searching.visited other hmem)).resolve_left
        Finmap.notMem_empty, ?_⟩
      rw [hstack'] at hmem
      rcases List.mem_append.mp hmem with hmem | hmem
      · obtain ⟨below, hbelow, hreach⟩ := (hin other hmem).reaches
        rwa [List.mem_singleton.mp hbelow] at hreach
      · rw [List.mem_singleton.mp hmem]
        exact .refl
    · rintro ⟨hto, hfrom⟩
      rw [← hstack']
      have hother := mem_of_reaches (fun mid hmid dependency hread => ?_) hkmem hto
      · by_contra hns
        have hks := (h.searching.not_mem_stack_of_reaches hother hns hfrom).2
        rw [hstack'] at hks
        exact hks (List.mem_append_right _ (.head _))
      · by_cases hms : mid ∈ search.stack
        · rw [hstack'] at hms
          rcases List.mem_append.mp hms with hms | hms
          · exact ((hin mid hms).reads dependency hread).1
          · rw [List.mem_singleton.mp hms] at hread
            exact (hsegment.followed dependency (reads_iff.mp hread).2 (reads_iff.mp hread).1).1
        · exact (h.searching.settled mid hmid hms dependency hread).1

end PendingStrongComponent

/-! ## The recursive group -/

/-- For a dependency that the current product reads, the search returns.  It reports a closed cycle
just when the dependency reaches the current product in the pending graph, and the group holds, in
order, the products of the kind of the current one that it reaches and that reach it. -/
theorem PendingMemo.pendingStrongComponent_exact (memo : PendingMemo Key) (kind : Key → Kind)
    (current : Key) (currentDependencies : ProductDependencies Key) (dependency : Key)
    (hread : dependency ∈ currentDependencies.products) :
    ∃ members search, memo.pendingStrongComponent kind current currentDependencies dependency =
        some (members, search) ∧
      (search.cycleClosed = true ↔ Reaches memo current currentDependencies dependency current) ∧
      (search.cycleClosed = members.isSome) ∧
      ∀ group, members = some group → group.Pairwise (· < ·) ∧ ∀ key, key ∈ group ↔
        kind key = kind current ∧ Reaches memo current currentDependencies current key ∧
          Reaches memo current currentDependencies key current := by
  rw [pendingStrongComponent, PendingStrongComponent.find]
  by_cases hskip : dependency ≠ current ∧ (memo.pendingProductDependencies dependency).isNone = true
  · rw [if_pos hskip]
    refine ⟨_, _, rfl, ⟨nofun, fun hreach => ?_⟩, rfl, nofun⟩
    rcases hreach.cases_head with heq | ⟨other, ⟨-, dependencies, hdep, -⟩, -⟩
    · exact absurd heq hskip.1
    · rw [if_neg hskip.1, Option.isNone_iff_eq_none.mp hskip.2] at hdep
      exact nomatch hdep
  · rw [if_neg hskip]
    have hw := PendingStrongComponent.waits_of hskip
    have hto : Reaches memo current currentDependencies current dependency :=
      .single ⟨hw, currentDependencies, if_pos rfl, hread⟩
    obtain ⟨search, component, hrun, hnd, hmem⟩ :=
      PendingStrongComponent.visit_root currentDependencies kind hw
        ((Finset.card_le_card Finset.sdiff_subset).trans (Finset.card_insert_le _ _))
    have hcurrent : current ∈ component ↔
        Reaches memo current currentDependencies dependency current :=
      (hmem current).trans (and_iff_left hto)
    simp only [hrun, Option.bind_eq_bind, Option.bind_some]
    refine ⟨_, _, rfl, ?_, ?_, fun group hgroup => ?_⟩
    · rw [List.any_eq_true, ← hcurrent]
      exact ⟨fun ⟨other, hother, heq⟩ => of_decide_eq_true heq ▸ hother,
        fun h => ⟨current, h, decide_eq_true rfl⟩⟩
    · split
      · rename_i h
        rw [h]
        rfl
      · rename_i h
        rw [Bool.eq_false_iff.mpr h]
        rfl
    · split at hgroup
      · rename_i h
        obtain ⟨other, hother, heq⟩ := List.any_eq_true.mp h
        have hback := hcurrent.mp (of_decide_eq_true heq ▸ hother)
        cases hgroup
        refine ⟨?_, fun key => ?_⟩
        · have hnd' := (List.perm_insertionSort (· ≤ ·) _).nodup_iff.mpr
            (hnd.filter fun member => kind member = kind current)
          have hsorted := List.pairwise_insertionSort (· ≤ ·)
            (component.filter fun member => kind member = kind current)
          exact (hsorted.and hnd').imp fun h => lt_of_le_of_ne h.1 h.2
        · rw [List.mem_insertionSort, List.mem_filter, decide_eq_true_eq, hmem, and_comm]
          refine and_congr_right fun _ => ⟨fun h => ⟨hto.trans h.1, h.2.trans hback⟩, fun h =>
            ⟨hback.trans h.1, h.2.trans hto⟩⟩
      · exact nomatch hgroup

/-- Two products of one kind that wait for each other through a product of another kind. -/
def bridged : PendingMemo Nat :=
  ⟨((∅ : Finmap fun _ => ProductDependencies Nat).insert 1 ⟨[0], by decide⟩).insert 2
    ⟨[1], by decide⟩⟩

theorem pendingStrongComponent_exact_bridged : 2 ∈ [2] ∧ ∃ search,
      bridged.pendingStrongComponent (· % 2) 0 ⟨[2], by decide⟩ 2 = some (some [0, 2], search) ∧
        Reaches bridged 0 ⟨[2], by decide⟩ 2 0 := by
  refine ⟨by decide, ?_⟩
  obtain ⟨members, search, hrun, hclosed, hsome, -⟩ :=
    bridged.pendingStrongComponent_exact (· % 2) 0 ⟨[2], by decide⟩ 2 (by decide)
  have hmembers : (bridged.pendingStrongComponent (· % 2) 0 ⟨[2], by decide⟩ 2).map (·.1) =
      some (some [0, 2]) := by
    decide
  rw [hrun] at hmembers
  cases hmembers
  exact ⟨search, hrun, hclosed.mp hsome⟩

end Fz.Pull
