import Fz.Base.List
import Fz.Terms.Map

/-!
# Maps are finite maps

In every heap that map operations build, the keys of a published map increase strictly in the order
of terms (`Heap.Ok`), so its entries are the graph of a finite map from terms to terms
(`Heap.Denotes`).  Each operation is proved to answer, with enough room for its comparisons, and to
do on the finite maps what it is named for: construction and destinations bind the later value of a
key, `put` updates, `delete` removes and a read looks up.

A word that denotes a term keeps doing so while the heap grows, because only destinations are
written to after they were allocated and no published word reaches one (`TermComparator.Grows`).
-/

namespace Fz.Terms

open Std Fz.Base Fz.Base.Entries

instance : DecidableEq Term := fun s t =>
  decidable_of_iff (Term.cmp s t = .eq) LawfulEqCmp.compare_eq_iff_eq

/-! ## Growing heaps -/

/-- An object that will not change any more. -/
def Object.finished : Object → Bool
  | .map true _ => false
  | _ => true

namespace TermComparator

/-- Every finished object stays where it is. -/
structure Grows (c c' : TermComparator) : Prop where
  node : c'.node = c.node
  schemas : c'.schemas = c.schemas
  memory : ∀ a o, c.memory a = some o → o.finished = true → c'.memory a = some o

variable {c c' c'' : TermComparator}

theorem Grows.refl (c : TermComparator) : Grows c c := ⟨rfl, rfl, fun _ _ h _ => h⟩

theorem Grows.trans (h : Grows c c') (h' : Grows c' c'') : Grows c c'' where
  node := h'.node.trans h.node
  schemas := h'.schemas.trans h.schemas
  memory a o ho hfin := h'.memory a o (h.memory a o ho hfin) hfin

theorem Grows.spine? (h : Grows c c') (n : Nat) : ∀ {a : Addr} {xs : List AnyValue},
    c.spine? n a = some xs → c'.spine? n a = some xs := by
  induction n with
  | zero =>
    intro a xs hxs
    exact hxs
  | succ n ih =>
    intro a xs hxs
    rcases spine?_cases hxs with ⟨rfl, rfl⟩ | ⟨m, head, tail, ys, hm, ha, hmem, hys, rfl⟩
    · rfl
    · obtain rfl := Nat.succ.inj hm
      rw [TermComparator.spine?, if_neg ha, h.memory a _ hmem rfl]
      simp only [ih hys, Option.map_some]

theorem Grows.payload? (h : Grows c c') {kind : ValueKind} {a : Addr} {p : BitPayload}
    (hp : c.payload? kind a = some p) : c'.payload? kind a = some p := by
  unfold TermComparator.payload? at hp ⊢
  split at hp
  · rename_i hmem
    rw [h.memory a _ hmem rfl]
    exact hp
  · rename_i hmem
    rw [h.memory a _ hmem rfl]
    exact hp
  · exact nomatch hp

theorem Grows.term? (h : Grows c c') (n : Nat) : ∀ a t,
    c.term? n a = some t → c'.term? n a = some t := by
  induction n with
  | zero =>
    intro a t ht
    exact nomatch ht
  | succ n ih =>
    intro a t ht
    apply term?_of_reads
    cases reads_of_term? ht with
    | int m => exact .int m
    | float hx => exact .float hx
    | atom hname => exact .atom (by rw [h.node]; exact hname)
    | list hk hxs hts => exact .list hk (h.spine? n hxs) (mapM_mono ih hts)
    | map hmem hks hvs =>
      exact .map (h.memory _ _ hmem rfl) (mapM_mono ih hks) (mapM_mono ih hvs)
    | struct hmem hschema hid hts =>
      exact .struct (h.memory _ _ hmem rfl) (by rw [h.schemas]; exact hschema) hid
        (slotTerms?_mono ih hts)
    | closure hmem hd hts =>
      exact .closure (h.memory _ _ hmem rfl) (by rw [h.node]; exact hd) (mapM_mono ih hts)
    | resource hmem => exact .resource (h.memory _ _ hmem rfl)
    | binary hk hp => exact .binary hk (h.payload? hp)

theorem Grows.published (h : Grows c c') {a : AnyValue} {t : Term} (ht : c.Published a t) :
    c'.Published a t := by
  obtain ⟨n, hn⟩ := ht
  exact ⟨n, h.term? n a t hn⟩

theorem Published.unique {a : AnyValue} {s t : Term} (hs : c.Published a s)
    (ht : c.Published a t) : s = t := by
  obtain ⟨n, hs⟩ := hs
  obtain ⟨m, ht⟩ := ht
  exact Option.some.inj ((term?_mono (Nat.le_max_left n m) hs).symm.trans
    (term?_mono (Nat.le_max_right n m) ht))

theorem Published.kind_ne_null {a : AnyValue} {t : Term} (h : c.Published a t) :
    a.kind ≠ .null := by
  obtain ⟨n, h⟩ := h
  cases n with
  | zero => exact nomatch h
  | succ n =>
    obtain ⟨label, ts⟩ := t
    intro hk
    have hchecked := (reads_of_term? h).checked.2
    rw [hk] at hchecked
    exact nomatch hchecked

end TermComparator

namespace Heap

open TermComparator

/-- The word stands for the term on this heap. -/
abbrev Pub (h : Heap) : AnyValue → Term → Prop := h.terms.Published

/-- The entries stand for the bindings. -/
abbrev EntriesOf (h : Heap) : List (AnyValue × AnyValue) → List (Term × Term) → Prop :=
  List.Forall₂ (EntryOf h.Pub h.Pub)

theorem EntriesOf.mono {h h' : Heap} (hg : h.terms.Grows h'.terms)
    {es : List (AnyValue × AnyValue)} {ds : List (Term × Term)} (hes : h.EntriesOf es ds) :
    h'.EntriesOf es ds :=
  hes.imp fun _ _ he => ⟨hg.published he.1, hg.published he.2⟩

theorem grows_extend (h : Heap) (o : Object) : h.terms.Grows (h.extend o).terms where
  node := rfl
  schemas := rfl
  memory a o' ho' _ := by
    have hne : a ≠ h.next := by
      rintro rfl
      rw [h.free _ le_rfl] at ho'
      exact nomatch ho'
    show Function.update h.terms.memory h.next (some o) a = some o'
    rw [Function.update_of_ne hne, ho']

theorem grows_replace (h : Heap) {a : Addr} (o : Object) (ha : a < h.next) {old : Object}
    (hold : h.terms.memory a = some old) (hunfinished : old.finished = false) :
    h.terms.Grows (h.replace a o ha).terms where
  node := rfl
  schemas := rfl
  memory b o' ho' hfin := by
    have hne : b ≠ a := by
      rintro rfl
      obtain rfl := Option.some.inj (hold.symm.trans ho')
      rw [hunfinished] at hfin
      exact nomatch hfin
    show Function.update h.terms.memory a (some o) b = some o'
    rw [Function.update_of_ne hne, ho']

theorem extend_memory (h : Heap) (o : Object) : (h.extend o).terms.memory h.next = some o :=
  Function.update_self ..

theorem lt_next_of_memory {h : Heap} {a : Addr} {o : Object} (ho : h.terms.memory a = some o) :
    a < h.next := by
  by_contra hge
  rw [h.free a (Nat.le_of_not_lt hge)] at ho
  exact nomatch ho

/-! ## The invariant -/

/-- Published maps have strictly increasing keys, and everything that maps and destinations hold is
published. -/
structure Ok (h : Heap) : Prop where
  maps : ∀ a es, h.terms.memory a = some (.map false es) →
    ∃ ds, h.EntriesOf es ds ∧ Increasing Term.cmp ds
  destinations : ∀ a es, h.terms.memory a = some (.map true es) → ∃ ds, h.EntriesOf es ds
  inline : ∀ a p, h.terms.memory a = some (.bitstring p) → p.bytes.length ≤ 64

/-- What an object has to meet to be put on a heap. -/
def Fits (h : Heap) : Object → Prop
  | .map false es => ∃ ds, h.EntriesOf es ds ∧ Increasing Term.cmp ds
  | .map true es => ∃ ds, h.EntriesOf es ds
  | .bitstring p => p.bytes.length ≤ 64
  | _ => True

theorem ok_iff (h : Heap) : h.Ok ↔ ∀ a o, h.terms.memory a = some o → h.Fits o := by
  constructor
  · intro hok a o ho
    cases o with
    | map destination es =>
      cases destination with
      | false => exact hok.maps a es ho
      | true => exact hok.destinations a es ho
    | bitstring p => exact hok.inline a p ho
    | cons | struct | closure | procbin | resource => trivial
  · intro hfits
    exact ⟨fun a es ho => hfits a _ ho, fun a es ho => hfits a _ ho, fun a p ho => hfits a _ ho⟩

theorem Fits.mono {h h' : Heap} (hg : h.terms.Grows h'.terms) {o : Object} (ho : h.Fits o) :
    h'.Fits o := by
  cases o with
  | map destination es =>
    cases destination with
    | false =>
      obtain ⟨ds, hes, hds⟩ := ho
      exact ⟨ds, hes.mono hg, hds⟩
    | true =>
      obtain ⟨ds, hes⟩ := ho
      exact ⟨ds, hes.mono hg⟩
  | bitstring p => exact ho
  | cons | struct | closure | procbin | resource => trivial

theorem ok_empty (node : Node) (schemas : SchemaRegistry) : (empty node schemas).Ok :=
  (ok_iff _).mpr fun _ _ ho => nomatch ho

theorem Ok.update {h h' : Heap} (hok : h.Ok) (hg : h.terms.Grows h'.terms) {a : Addr} {o : Object}
    (hmem : h'.terms.memory = Function.update h.terms.memory a (some o)) (ho : h'.Fits o) :
    h'.Ok := by
  refine (ok_iff _).mpr fun b o' ho' => ?_
  rw [hmem] at ho'
  rcases eq_or_ne b a with rfl | hne
  · rw [Function.update_self] at ho'
    obtain rfl := Option.some.inj ho'
    exact ho
  · rw [Function.update_of_ne hne] at ho'
    exact ((ok_iff h).mp hok b o' ho').mono hg

theorem Ok.extend {h : Heap} (hok : h.Ok) {o : Object} (ho : h.Fits o) : (h.extend o).Ok :=
  hok.update (h.grows_extend o) rfl (ho.mono (h.grows_extend o))

theorem Ok.replace {h : Heap} (hok : h.Ok) {a : Addr} {o old : Object} (ha : a < h.next)
    (hold : h.terms.memory a = some old) (hunfinished : old.finished = false) (ho : h.Fits o) :
    (h.replace a o ha).Ok :=
  hok.update (h.grows_replace o ha hold hunfinished) rfl
    (ho.mono (h.grows_replace o ha hold hunfinished))

/-! ## Maps and the finite maps they denote -/

/-- The word is a published map with the entries of a finite map. -/
def Denotes (h : Heap) (w : AnyValue) (m : Term → Option Term) : Prop :=
  ∃ a es ds, w = .heapRef .map a ∧ h.terms.memory a = some (.map false es) ∧ h.EntriesOf es ds ∧
    Increasing Term.cmp ds ∧ Represents ds m

/-- The word is a destination that has collected the bindings of a finite map and has room for
more. -/
def Collects (h : Heap) (w : AnyValue) (m : Term → Option Term) (room : Nat) : Prop :=
  ∃ a es ds, w = .heapRef .map a ∧ h.terms.memory a = some (.map true es) ∧ h.EntriesOf es ds ∧
    ofEntries ds = m ∧ h.capacity a = es.length + room

/-- What an operation leaves as it was: published words, and all objects but those it touches. -/
structure Keeps (h h' : Heap) (touched : Set Addr) : Prop where
  grows : h.terms.Grows h'.terms
  next_le : h.next ≤ h'.next
  memory : ∀ a, a < h.next → a ∉ touched → h'.terms.memory a = h.terms.memory a
  capacity : ∀ a, a < h.next → h'.capacity a = h.capacity a

theorem Keeps.refl (h : Heap) (touched : Set Addr) : h.Keeps h touched :=
  ⟨.refl _, le_rfl, fun _ _ _ => rfl, fun _ _ => rfl⟩

theorem Keeps.trans {h h' h'' : Heap} {touched : Set Addr} (hk : h.Keeps h' touched)
    (hk' : h'.Keeps h'' touched) : h.Keeps h'' touched where
  grows := hk.grows.trans hk'.grows
  next_le := hk.next_le.trans hk'.next_le
  memory a ha hout := (hk'.memory a (ha.trans_le hk.next_le) hout).trans (hk.memory a ha hout)
  capacity a ha := (hk'.capacity a (ha.trans_le hk.next_le)).trans (hk.capacity a ha)

theorem keeps_extend (h : Heap) (o : Object) : h.Keeps (h.extend o) ∅ where
  grows := h.grows_extend o
  next_le := Nat.le_succ _
  memory _ ha _ := Function.update_of_ne (Nat.ne_of_lt ha) ..
  capacity _ _ := rfl

theorem keeps_replace (h : Heap) {a : Addr} (o : Object) (ha : a < h.next) {old : Object}
    (hold : h.terms.memory a = some old) (hunfinished : old.finished = false) :
    h.Keeps (h.replace a o ha) {a} where
  grows := h.grows_replace o ha hold hunfinished
  next_le := le_rfl
  memory _ _ hb := Function.update_of_ne hb ..
  capacity _ _ := rfl

/-- The outcome of an operation: it answers, leaves alone what it does not touch, and its result
meets `Q`. -/
def Yields {α : Type} (op : HeapM α) (h : Heap) (touched : Set Addr) (Q : α → Heap → Prop) : Prop :=
  wp op (fun a h' => h.Keeps h' touched ∧ h'.Ok ∧ Q a h') (fun _ => False) h

section Operations

variable {h : Heap} {es : List (AnyValue × AnyValue)} {ds : List (Term × Term)}

theorem EntriesOf.readable (hes : h.EntriesOf es ds) : ∃ n, ∀ m ≥ n,
    List.Forall₂ (EntryOf (fun a t => h.terms.term? m a = some t) h.Pub) es ds := by
  induction hes with
  | nil => exact ⟨0, fun _ _ => .nil⟩
  | @cons e d es ds he _ ih =>
    obtain ⟨n, hn⟩ := ih
    obtain ⟨k, hk⟩ := he.1
    refine ⟨max n k, fun m hm => .cons ⟨?_, he.2⟩ (hn m (by omega))⟩
    exact term?_mono (by omega) hk

theorem agrees (h : Heap) (m : Nat) : Entries.Agrees (fun a b => h.terms.compare m a b .strict)
    (fun a t => h.terms.term? m a = some t) Term.cmp :=
  fun x y s t hx hy => compare_eq_cmp m x y s t hx hy

theorem EntriesOf.of_readable {m : Nat}
    (hes : List.Forall₂ (EntryOf (fun a t => h.terms.term? m a = some t) h.Pub) es ds) :
    h.EntriesOf es ds :=
  hes.imp fun _ _ he => ⟨⟨m, he.1⟩, he.2⟩

theorem wp_normalizeMapEntries (hes : h.EntriesOf es ds) : ∃ n, ∀ m ≥ n,
    wp (normalizeMapEntries m es)
      (fun es' h' => h' = h ∧ h.EntriesOf es' (normalize Term.cmp ds)) (fun _ => False) h := by
  obtain ⟨n, hn⟩ := hes.readable
  refine ⟨n, fun m hm => ?_⟩
  obtain ⟨sorted, es', hsort, hdedup, hes'⟩ := normalize_eq (h.agrees m) (hn m hm)
  unfold normalizeMapEntries
  rw [wp_bind, wp_get, wp_bind, wp_liftM_ok hsort, wp_liftM_ok hdedup]
  exact ⟨rfl, EntriesOf.of_readable hes'⟩

theorem wp_checkKeys (hes : h.EntriesOf es ds) :
    wp (checkKeys es) (fun _ h' => h' = h) (fun _ => False) h := by
  have hkeys : ¬(es.any fun e => e.1.kind == .null) = true := by
    rw [List.any_eq_true]
    rintro ⟨e, he, hnull⟩
    obtain ⟨d, -, hed⟩ := exists_of_forall₂_left hes he
    exact hed.1.kind_ne_null (beq_iff_eq.mp hnull)
  rw [checkKeys, if_neg hkeys]
  exact rfl

variable {m : Term → Option Term}

theorem wp_allocOrderedMapEntries (hok : h.Ok) (hes : h.EntriesOf es ds)
    (hds : Increasing Term.cmp ds) (hm : Represents ds m) :
    Yields (allocOrderedMapEntries es) h ∅ fun w h' => h'.Denotes w m := by
  unfold Yields allocOrderedMapEntries alloc
  rw [wp_bind]
  refine (wp_checkKeys hes).imp ?_
  rintro - h' rfl
  have hkeeps := h'.keeps_extend (.map false es)
  refine ⟨hkeeps, hok.extend ⟨ds, hes, hds⟩, ?_⟩
  exact ⟨h'.next, es, ds, rfl, h'.extend_memory _, hes.mono hkeeps.grows, hds, hm⟩

theorem yields_allocMapSlots (hok : h.Ok) (hes : h.EntriesOf es ds) : ∃ n, ∀ k ≥ n,
    Yields (allocMapSlots k es) h ∅ fun w h' => h'.Denotes w (ofEntries ds) := by
  obtain ⟨n, hn⟩ := wp_normalizeMapEntries hes
  refine ⟨n, fun k hk => ?_⟩
  unfold Yields allocMapSlots
  rw [wp_bind]
  refine (hn k hk).imp ?_
  rintro es' h' ⟨rfl, hes'⟩
  exact wp_allocOrderedMapEntries hok hes' (increasing_normalize ds) (represents_normalize ds)

theorem wp_mapEntries {a : Addr} (hmem : h.terms.memory a = some (.map false es)) {Q}
    (hQ : Q es h) : wp (mapEntries a) Q (fun _ => False) h := by
  unfold mapEntries
  rw [wp_bind, wp_get, hmem]
  exact hQ

/-- Where a key stands among entries, and the bindings they stand for. -/
structure Position (h : Heap) (k : Term) (es : List (AnyValue × AnyValue))
    (ds : List (Term × Term)) (esBefore esOwn esAfter : List (AnyValue × AnyValue))
    (before own after : List (Term × Term)) : Prop where
  around : Around Term.cmp k before own after
  entries : es = esBefore ++ esOwn ++ esAfter
  bindings : ds = before ++ own ++ after
  before : h.EntriesOf esBefore before
  own : h.EntriesOf esOwn own
  after : h.EntriesOf esAfter after

theorem wp_mapKeyPosition {a : Addr} (hmem : h.terms.memory a = some (.map false es))
    (hes : h.EntriesOf es ds) (hds : Increasing Term.cmp ds) {key : AnyValue} {k : Term}
    (hkey : h.Pub key k) : ∃ n, ∀ m ≥ n, ∃ esBefore esOwn esAfter before own after,
      h.Position k es ds esBefore esOwn esAfter before own after ∧
      wp (mapKeyPosition m a key) (fun r h' => h' = h ∧
        r = if esOwn = [] then .error esBefore.length else .ok esBefore.length)
        (fun _ => False) h := by
  obtain ⟨n, hn⟩ := hes.readable
  obtain ⟨l, hl⟩ := hkey
  refine ⟨max n l, fun m hm => ?_⟩
  obtain ⟨before, own, after, hsplit, haround, hsearch⟩ := search_eq (h.agrees m)
    .malformedObject (hn m (by omega)) hds (term?_mono (show l ≤ m by omega) hl)
  -- the entries split as their bindings do
  have hflip := hes
  rw [hsplit] at hflip
  obtain ⟨esRest, esAfter, rfl, hrest, hafter⟩ := append_of_forall₂ hflip.flip
  obtain ⟨esBefore, esOwn, rfl, hbefore, hown⟩ := append_of_forall₂ hrest
  refine ⟨esBefore, esOwn, esAfter, before, own, after,
    ⟨haround, rfl, hsplit, hbefore.flip, hown.flip, hafter.flip⟩, ?_⟩
  have hnil : own = [] ↔ esOwn = [] := by
    rw [← List.length_eq_zero_iff, ← List.length_eq_zero_iff, hown.length_eq]
  unfold mapKeyPosition
  rw [wp_bind]
  refine wp_mapEntries hmem ?_
  rw [wp_bind, wp_get, wp_liftM_ok hsearch]
  refine ⟨rfl, ?_⟩
  rw [hbefore.length_eq]
  simp only [hnil]

theorem mapM_range_eq {β : Type} (xs : List β) (f : Nat → HeapM β)
    (hf : ∀ i x, xs[i]? = some x → f i = pure x) : (List.range xs.length).mapM f = pure xs := by
  induction xs generalizing f with
  | nil => rfl
  | cons x xs ih =>
    have htail := ih (fun i => f (i + 1)) fun i y hy => hf (i + 1) y (by simpa using hy)
    rw [List.length_cons, List.range_succ_eq_map, List.mapM_cons, hf 0 x rfl, List.mapM_map,
      pure_bind]
    show (do let ys ← (List.range xs.length).mapM fun i => f (i + 1); pure (x :: ys)) = _
    rw [htail, pure_bind]

theorem mapEntry_eq {i : Nat} {e : AnyValue × AnyValue} (he : es[i]? = some e) :
    mapEntry es i = pure e := by
  rw [mapEntry, he]

variable {k : Term} {esBefore esOwn esAfter : List (AnyValue × AnyValue)}
  {before own after : List (Term × Term)}

theorem Position.length_own (hp : h.Position k es ds esBefore esOwn esAfter before own after) :
    esOwn.length = if esOwn = [] then 0 else 1 := by
  split
  · rename_i hnil
    rw [hnil, List.length_nil]
  · rename_i hne
    have hlen := hp.own.length_eq
    rcases hp.around.own with hnil | ⟨v, hv⟩
    · rw [hnil, List.length_nil] at hlen
      exact absurd (List.length_eq_zero_iff.mp hlen) hne
    · rw [hlen, hv, List.length_singleton]

theorem Position.put_entries (hp : h.Position k es ds esBefore esOwn esAfter before own after)
    (key value : AnyValue) {inserted : Nat} (hins : inserted + esOwn.length = 1) :
    ((List.range (es.length + inserted)).mapM fun i =>
      if i = esBefore.length then pure (key, value)
      else mapEntry es (if i < esBefore.length then i else i - inserted)) =
      (pure (esBefore ++ (key, value) :: esAfter) : HeapM _) := by
  have hlen : es.length + inserted = (esBefore ++ (key, value) :: esAfter).length := by
    rw [hp.entries, List.length_append, List.length_append, List.length_append, List.length_cons]
    omega
  rw [hlen]
  refine mapM_range_eq _ _ fun i x hx => ?_
  rcases Nat.lt_trichotomy i esBefore.length with hlt | rfl | hgt
  · rw [if_neg (by omega), if_pos hlt]
    refine mapEntry_eq ?_
    rw [List.getElem?_append_left hlt] at hx
    rw [hp.entries, List.append_assoc, List.getElem?_append_left hlt, hx]
  · rw [if_pos rfl]
    rw [List.getElem?_append_right le_rfl, Nat.sub_self, List.getElem?_cons_zero] at hx
    rw [Option.some.inj hx]
  · rw [if_neg (by omega), if_neg (by omega)]
    refine mapEntry_eq ?_
    rw [List.getElem?_append_right (by omega),
      show i - esBefore.length = i - esBefore.length - 1 + 1 by omega,
      List.getElem?_cons_succ] at hx
    rw [hp.entries, List.getElem?_append_right (by rw [List.length_append]; omega),
      List.length_append, ← hx]
    congr 1
    omega

theorem Position.delete_entries (hp : h.Position k es ds esBefore esOwn esAfter before own after)
    (hown : esOwn.length = 1) : ((List.range (es.length - 1)).mapM fun i =>
      mapEntry es (if i < esBefore.length then i else i + 1)) =
      (pure (esBefore ++ esAfter) : HeapM _) := by
  have hlen : es.length - 1 = (esBefore ++ esAfter).length := by
    rw [hp.entries, List.length_append, List.length_append, List.length_append]
    omega
  rw [hlen]
  refine mapM_range_eq _ _ fun i x hx => mapEntry_eq ?_
  split
  · rename_i hlt
    rw [List.getElem?_append_left hlt] at hx
    rw [hp.entries, List.append_assoc, List.getElem?_append_left hlt, hx]
  · rw [List.getElem?_append_right (by omega)] at hx
    rw [hp.entries, List.getElem?_append_right (by rw [List.length_append]; omega),
      List.length_append, ← hx]
    congr 1
    omega

theorem yields_mapPutEntry (hok : h.Ok) {a : Addr}
    (hmap : h.Denotes (.heapRef .map a) m) {key value : AnyValue} {v : Term}
    (hkey : h.Pub key k) (hvalue : h.Pub value v) : ∃ n, ∀ i ≥ n,
    Yields (mapPutEntry i a key value) h ∅ fun w h' =>
      h'.Denotes w (Function.update m k (some v)) := by
  obtain ⟨a', es, ds, haddr, hmem, hes, hds, hm⟩ := hmap
  obtain rfl : a = a' := (AnyValue.heapRef.inj haddr).2
  obtain ⟨n, hn⟩ := wp_mapKeyPosition hmem hes hds hkey
  refine ⟨n, fun i hi => ?_⟩
  obtain ⟨esBefore, esOwn, esAfter, before, own, after, hp, hpos⟩ := hn i hi
  have hlen := hp.length_own
  have hes' : h.EntriesOf (esBefore ++ (key, value) :: esAfter) (before ++ (k, v) :: after) :=
    List.rel_append hp.before (.cons ⟨hkey, hvalue⟩ hp.after)
  rw [hp.bindings] at hds hm
  have hyield := wp_allocOrderedMapEntries hok hes' (hp.around.increasing_put hds v)
    (hp.around.represents_put hm v)
  unfold Yields mapPutEntry
  rw [wp_bind]
  refine wp_mapEntries hmem ?_
  rw [wp_bind]
  refine hpos.imp ?_
  rintro r h' ⟨rfl, rfl⟩
  by_cases hnil : esOwn = []
  · rw [if_pos hnil] at hlen ⊢
    dsimp only
    rw [hp.put_entries key value (by omega), pure_bind]
    exact hyield
  · rw [if_neg hnil] at hlen ⊢
    dsimp only
    rw [hp.put_entries key value (by omega), pure_bind]
    exact hyield

theorem wp_mapAddr {a : Addr} {Q} (hQ : Q a h) :
    wp (mapAddr (.heapRef .map a)) Q (fun _ => False) h := hQ

theorem yields_mapDeleteRef (hok : h.Ok) {w : AnyValue}
    (hmap : h.Denotes w m) {key : AnyValue} (hkey : h.Pub key k) : ∃ n, ∀ i ≥ n,
    Yields (mapDeleteRef i w key) h ∅ fun w' h' => h'.Denotes w' (Function.update m k none) := by
  obtain ⟨a, es, ds, rfl, hmem, hes, hds, hm⟩ := hmap
  obtain ⟨n, hn⟩ := wp_mapKeyPosition hmem hes hds hkey
  refine ⟨n, fun i hi => ?_⟩
  obtain ⟨esBefore, esOwn, esAfter, before, own, after, hp, hpos⟩ := hn i hi
  have hlen := hp.length_own
  have hsplit := hp.bindings
  rw [hsplit] at hds hm
  have hrep := hp.around.represents_delete hm
  have hinc := hp.around.increasing_delete hds
  unfold Yields mapDeleteRef
  rw [wp_bind]
  refine wp_mapAddr ?_
  rw [wp_bind]
  refine hpos.imp ?_
  rintro r h' ⟨rfl, rfl⟩
  by_cases hnil : esOwn = []
  · rw [if_pos hnil]
    -- an absent key leaves the map as it is
    have hown : own = [] := by
      have hlen := hp.own.length_eq
      rw [hnil, List.length_nil] at hlen
      exact List.length_eq_zero_iff.mp hlen.symm
    rw [hown, List.append_nil] at hsplit
    exact ⟨.refl _ _, hok, a, es, ds, rfl, hmem, hes, by rw [hsplit]; exact hinc,
      by rw [hsplit]; exact hrep⟩
  · rw [if_neg hnil] at hlen ⊢
    dsimp only
    rw [wp_bind]
    refine wp_mapEntries hmem ?_
    rw [hp.delete_entries hlen, pure_bind]
    exact wp_allocOrderedMapEntries hok (List.rel_append hp.before hp.after) hinc hrep

theorem yields_readMapValue (hok : h.Ok) {w : AnyValue}
    (hmap : h.Denotes w m) {key : AnyValue} (hkey : h.Pub key k) : ∃ n, ∀ i ≥ n,
    Yields (readMapValue i w key) h ∅ fun r h' => h' = h ∧ Option.Rel h.Pub r (m k) := by
  obtain ⟨a, es, ds, rfl, hmem, hes, hds, hm⟩ := hmap
  obtain ⟨n, hn⟩ := wp_mapKeyPosition hmem hes hds hkey
  refine ⟨n, fun i hi => ?_⟩
  obtain ⟨esBefore, esOwn, esAfter, before, own, after, hp, hpos⟩ := hn i hi
  rw [hp.bindings] at hm
  have hlookup := hp.around.lookup hm
  unfold Yields readMapValue
  rw [wp_bind]
  refine wp_mapAddr ?_
  rw [wp_bind]
  refine hpos.imp ?_
  rintro r h' ⟨rfl, rfl⟩
  have hown := hp.own
  have hentries := hp.entries
  cases hown with
  | nil =>
    rw [hlookup]
    exact ⟨.refl _ _, hok, rfl, .none⟩
  | @cons e d _ _ he _ =>
    rw [if_neg (List.cons_ne_nil _ _)]
    dsimp only
    rw [wp_bind]
    refine wp_mapEntries hmem ?_
    have hentry : es[esBefore.length]? = some e := by
      rw [hentries, List.append_assoc, List.getElem?_append_right le_rfl, Nat.sub_self]
      rfl
    rw [mapEntry_eq hentry, pure_bind, hlookup]
    exact ⟨.refl _ _, hok, rfl, .some he.2⟩

/-! ## Destinations -/

theorem yields_allocMapDestination (hok : h.Ok) {base : Option AnyValue}
    {extra : Nat} (hbase : (∃ w, base = some w ∧ h.Denotes w m) ∨
      (∀ a, base ≠ some (.heapRef .map a)) ∧ m = fun _ => none)
    (hroom : ∀ a es, base = some (.heapRef .map a) → h.terms.memory a = some (.map false es) →
      es.length + extra < 2 ^ 31) (hextra : extra < 2 ^ 31) :
    Yields (allocMapDestination base extra) h ∅ fun w h' => h'.Collects w m extra := by
  -- from the entries of the base on, the rest is one allocation
  have hrest : ∀ es ds, h.EntriesOf es ds → ofEntries ds = m → es.length + extra < 2 ^ 31 →
      wp (do
        let capacity := es.length + extra
        if capacity < 2 ^ 31 then
          let p ← alloc (.map true es)
          modify fun h => { h with capacity := Function.update h.capacity p capacity }
          return .heapRef .map p
        else throw .malformedObject : HeapM AnyValue)
        (fun w h' => h.Keeps h' ∅ ∧ h'.Ok ∧ h'.Collects w m extra) (fun _ => False) h := by
    intro es ds hes hm hcap
    have hkeeps := h.keeps_extend (.map true es)
    have hok' : (h.extend (.map true es)).Ok := hok.extend ⟨ds, hes⟩
    dsimp only
    rw [if_pos hcap]
    refine ⟨⟨hkeeps.grows, hkeeps.next_le, hkeeps.memory, fun a ha => ?_⟩, ?_, ?_⟩
    · exact Function.update_of_ne (Nat.ne_of_lt ha) ..
    · exact ⟨hok'.maps, hok'.destinations, hok'.inline⟩
    · exact ⟨h.next, es, ds, rfl, h.extend_memory _, hes.mono hkeeps.grows, hm,
        Function.update_self ..⟩
  unfold Yields allocMapDestination
  rcases hbase with ⟨w, rfl, a, es, ds, rfl, hmem, hes, hds, hm⟩ | ⟨hnone, rfl⟩
  · rw [wp_bind]
    refine wp_mapEntries hmem ?_
    exact hrest es ds hes (ofEntries_of_represents hds hm) (hroom a es rfl hmem)
  · have hnil := hrest [] [] .nil rfl (by simpa using hextra)
    split
    · exact absurd rfl (hnone _)
    · exact hnil

theorem wp_destinationState {w : AnyValue} {a : Addr} (hw : w = .heapRef .map a)
    (hmem : h.terms.memory a = some (.map true es)) {Q} (hQ : Q (a, es) h) :
    wp (destinationState w) Q (fun _ => False) h := by
  subst hw
  unfold destinationState
  rw [wp_bind, wp_get]
  dsimp only
  rw [hmem]
  exact hQ

theorem wp_write {a : Addr} {o : Object} (ha : a < h.next) {Q}
    (hQ : Q PUnit.unit (h.replace a o ha)) : wp (write a o) Q (fun _ => False) h := by
  unfold write
  rw [wp_bind, wp_get, dif_pos ha]
  exact hQ

theorem yields_mapDestinationPut (hok : h.Ok) {w : AnyValue} {room : Nat}
    (hdest : h.Collects w m (room + 1)) {key value : AnyValue} {v : Term} (hkey : h.Pub key k)
    (hvalue : h.Pub value v) : Yields (mapDestinationPut w key value) h {w.addr} fun _ h' =>
      h'.Collects w (Function.update m k (some v)) room := by
  obtain ⟨a, es, ds, rfl, hmem, hes, hm, hcap⟩ := hdest
  have ha := lt_next_of_memory hmem
  have hentry : h.EntriesOf [(key, value)] [(k, v)] := .cons ⟨hkey, hvalue⟩ .nil
  have hes' : h.EntriesOf (es ++ [(key, value)]) (ds ++ [(k, v)]) := List.rel_append hes hentry
  unfold Yields mapDestinationPut
  rw [wp_bind]
  refine wp_destinationState rfl hmem ?_
  dsimp only
  rw [wp_bind, wp_get, if_pos (by omega), wp_bind]
  refine (wp_checkKeys hentry).imp ?_
  rintro - h' rfl
  refine wp_write ha ?_
  have hkeeps := h'.keeps_replace (.map true (es ++ [(key, value)])) ha hmem rfl
  refine ⟨hkeeps, hok.replace ha hmem rfl ⟨_, hes'⟩, ?_⟩
  refine ⟨a, _, _, rfl, Function.update_self .., hes'.mono hkeeps.grows, ?_, ?_⟩
  · rw [ofEntries_concat, hm]
  · show h'.capacity a = _
    rw [hcap, List.length_append, List.length_singleton]
    omega

theorem yields_mapDestinationFreeze (hok : h.Ok) {w : AnyValue}
    {room : Nat} (hdest : h.Collects w m room) : ∃ n, ∀ i ≥ n,
    Yields (mapDestinationFreeze i w) h {w.addr} fun w' h' => h'.Denotes w' m := by
  obtain ⟨a, es, ds, rfl, hmem, hes, rfl, -⟩ := hdest
  have ha := lt_next_of_memory hmem
  obtain ⟨n, hn⟩ := wp_normalizeMapEntries hes
  refine ⟨n, fun i hi => ?_⟩
  unfold Yields mapDestinationFreeze
  rw [wp_bind]
  refine wp_destinationState rfl hmem ?_
  dsimp only
  rw [wp_bind]
  refine (hn i hi).imp ?_
  rintro es' h' ⟨rfl, hes'⟩
  rw [wp_bind]
  refine (wp_checkKeys hes').imp ?_
  rintro - h'' rfl
  rw [wp_bind]
  refine wp_write ha ?_
  have hkeeps := h''.keeps_replace (.map false es') ha hmem rfl
  have hinc : Increasing Term.cmp (normalize Term.cmp ds) := increasing_normalize ds
  refine ⟨hkeeps, hok.replace ha hmem rfl ⟨_, hes', hinc⟩, ?_⟩
  exact ⟨a, es', _, rfl, Function.update_self .., hes'.mono hkeeps.grows, hinc,
    represents_normalize ds⟩

end Operations

end Heap

end Fz.Terms
