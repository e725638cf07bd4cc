import Fz.Terms.DeepCopySound
import Mathlib.Logic.Relation

/-!
# Maps over whole runs

A heap is built by allocating objects, publishing literals, filling and freezing destinations,
putting and deleting keys and copying messages, in any order.  Every heap that comes out has its
maps in strict key order, and on it every map operation does what it does on finite maps
(`maps_behave`).
-/

namespace Fz.Terms

open Fz.Base Fz.Base.Entries

namespace Heap

/-- The answer of an operation: what it returns with every large enough bound. -/
def Answers {α : Type} (op : Nat → HeapM α) (h : Heap) (a : α) (h' : Heap) : Prop :=
  ∃ n, ∀ i ≥ n, op i h = .ok (a, h')

/-- An object other than a map; longer binaries are not stored inline. -/
def Plain : Object → Prop
  | .map .. => False
  | .bitstring p => p.bytes.length ≤ 64
  | _ => True

/-- One operation, on published words. -/
inductive Step (h : Heap) : Heap → Prop where
  | allocate {o : Object} (ho : Plain o) : Step h (h.extend o)
  | literal {es : List (AnyValue × AnyValue)} {ds : List (Term × Term)} {w : AnyValue} {h' : Heap}
    (hes : h.EntriesOf es ds) (hop : Answers (allocMapSlots · es) h w h') : Step h h'
  | destination {base : Option AnyValue} {extra : Nat} {w : AnyValue} {h' : Heap}
    (hbase : ∀ b, base = some b → ∃ t, h.Pub b t)
    (hop : Answers (fun _ => allocMapDestination base extra) h w h') : Step h h'
  | destinationPut {dest key value : AnyValue} {k v : Term} {u : Unit} {h' : Heap}
    (hkey : h.Pub key k) (hvalue : h.Pub value v)
    (hop : Answers (fun _ => mapDestinationPut dest key value) h u h') : Step h h'
  | freeze {dest w : AnyValue} {h' : Heap} (hop : Answers (mapDestinationFreeze · dest) h w h') :
    Step h h'
  | put {map key value w : AnyValue} {m k v : Term} {h' : Heap} (hmap : h.Pub map m)
    (hkey : h.Pub key k) (hvalue : h.Pub value v)
    (hop : Answers (mapPutSlotBits · map key value) h w h') : Step h h'
  | delete {map key w : AnyValue} {m k : Term} {h' : Heap} (hmap : h.Pub map m)
    (hkey : h.Pub key k) (hop : Answers (mapDeleteRef · map key) h w h') : Step h h'
  | copy {inSource : Addr → Bool} {src w : AnyValue} {t : Term} {h' : Heap} (hsrc : h.Pub src t)
    (hop : Answers (deepCopy inSource · src) h w h') : Step h h'

variable {h h' : Heap}

theorem Yields.ok {α : Type} {op : Nat → HeapM α} {touched : Set Addr} {Q : α → Heap → Prop}
    (hyields : ∃ n, ∀ i ≥ n, Yields (op i) h touched Q) {a : α} (hop : Answers op h a h') :
    h'.Ok := by
  obtain ⟨n, hn⟩ := hyields
  obtain ⟨m, hm⟩ := hop
  exact (wp.ok (hn (max n m) (by omega)) (hm (max n m) (by omega))).2.1

theorem Ok.denotes (hok : h.Ok) {w : AnyValue} {t : Term} (hw : h.Pub w t)
    (hkind : w.kind = .map) : ∃ m, h.Denotes w m := by
  cases w with
  | heapRef kind a =>
    obtain rfl : kind = .map := hkind
    obtain ⟨n, hn⟩ := hw
    cases n with
    | zero => exact nomatch hn
    | succ n =>
      cases TermComparator.reads_of_term? hn with
      | list hk => exact nomatch hk
      | @map _ es ks vs hmem hks hvs =>
        obtain ⟨ds, hes, hds⟩ := hok.maps a es hmem
        have hrep : Represents (normalize Term.cmp ds) (ofEntries ds) := represents_normalize ds
        rw [normalize_of_increasing hds] at hrep
        exact ⟨ofEntries ds, a, es, ds, rfl, hmem, hes, hds, hrep⟩
      | binary hk => exact nomatch hk
  | null | emptyList | int | float | atom => exact nomatch hkind

/-! ## Every step keeps the invariant -/

theorem wp_destinationState_any (dest : AnyValue) : wp (destinationState dest)
      (fun r h' => h' = h ∧ h.terms.memory r.1 = some (.map true r.2)) (fun _ => True) h := by
  unfold destinationState
  rw [wp_bind, wp_get]
  split
  · split
    · rename_i hmem
      exact ⟨rfl, hmem⟩
    · trivial
  · trivial

theorem ok_allocMapDestination (hok : h.Ok) (base : Option AnyValue) (extra : Nat) :
    wp (allocMapDestination base extra) (fun _ h' => h'.Ok) (fun _ => True) h := by
  -- whatever the base holds is published
  have hentries : ∀ op : HeapM (List (AnyValue × AnyValue)),
      wp op (fun es h' => h' = h ∧ ∃ ds, h.EntriesOf es ds) (fun _ => True) h →
      wp (op >>= fun es => do
        let capacity := es.length + extra
        if capacity < 2 ^ 31 then
          let p ← alloc (.map true es)
          modify fun h => { h with capacity := Function.update h.capacity p capacity }
          return .heapRef .map p
        else throw .malformedObject : HeapM AnyValue) (fun _ h' => h'.Ok) (fun _ => True) h := by
    intro op hop
    rw [wp_bind]
    refine hop.imp ?_
    rintro es h' ⟨rfl, ds, hes⟩
    dsimp only
    split
    · have hok' : (h'.extend (.map true es)).Ok := hok.extend ⟨ds, hes⟩
      exact ⟨hok'.maps, hok'.destinations, hok'.inline⟩
    · trivial
  unfold allocMapDestination
  split
  · rename_i a
    refine hentries (mapEntries a) ?_
    unfold mapEntries
    rw [wp_bind, wp_get]
    split
    · rename_i es hmem
      obtain ⟨ds, hes, -⟩ := hok.maps a es hmem
      exact ⟨rfl, ds, hes⟩
    · trivial
    · trivial
  · exact hentries (pure []) ⟨rfl, [], .nil⟩

theorem ok_mapDestinationPut (hok : h.Ok) (dest : AnyValue) {key value : AnyValue} {k v : Term}
    (hkey : h.Pub key k) (hvalue : h.Pub value v) :
    wp (mapDestinationPut dest key value) (fun _ h' => h'.Ok) (fun _ => True) h := by
  unfold mapDestinationPut
  rw [wp_bind]
  refine (wp_destinationState_any dest).imp ?_
  rintro ⟨a, es⟩ h' ⟨rfl, hmem⟩
  dsimp only
  rw [wp_bind, wp_get]
  split
  · have hentry : h'.EntriesOf [(key, value)] [(k, v)] := .cons ⟨hkey, hvalue⟩ .nil
    obtain ⟨ds, hes⟩ := hok.destinations a es hmem
    rw [wp_bind]
    refine (wp_checkKeys hentry).mono ?_ (fun _ hf => hf.elim)
    rintro - h'' rfl
    refine (wp_write (Q := fun _ h => h.Ok) (lt_next_of_memory hmem) ?_).mono (fun _ _ hq => hq)
      (fun _ hf => hf.elim)
    exact hok.replace _ hmem rfl ⟨_, List.rel_append hes hentry⟩
  · trivial

theorem ok_mapDestinationFreeze (hok : h.Ok) (dest : AnyValue) : ∃ n, ∀ i ≥ n,
    wp (mapDestinationFreeze i dest) (fun _ h' => h'.Ok) (fun _ => True) h := by
  by_cases hdest : ∃ a es, dest = .heapRef .map a ∧ h.terms.memory a = some (.map true es)
  · obtain ⟨a, es, rfl, hmem⟩ := hdest
    obtain ⟨ds, hes⟩ := hok.destinations a es hmem
    obtain ⟨n, hn⟩ := wp_normalizeMapEntries hes
    refine ⟨n, fun i hi => ?_⟩
    unfold mapDestinationFreeze
    rw [wp_bind]
    refine (wp_destinationState rfl hmem (Q := fun r h' => r = (a, es) ∧ h' = h)
      ⟨rfl, rfl⟩).mono ?_ (fun _ hf => hf.elim)
    rintro r h' ⟨rfl, rfl⟩
    dsimp only
    rw [wp_bind]
    refine (hn i hi).mono ?_ (fun _ hf => hf.elim)
    rintro es' h'' ⟨rfl, hes'⟩
    rw [wp_bind]
    refine (wp_checkKeys hes').mono ?_ (fun _ hf => hf.elim)
    rintro - h' rfl
    rw [wp_bind]
    refine (wp_write (Q := fun _ h => h.Ok) (lt_next_of_memory hmem) ?_).mono (fun _ _ hq => hq)
      (fun _ hf => hf.elim)
    exact hok.replace _ hmem rfl ⟨_, hes', increasing_normalize ds⟩
  · refine ⟨0, fun i _ => ?_⟩
    unfold mapDestinationFreeze
    rw [wp_bind]
    unfold destinationState
    rw [wp_bind, wp_get]
    dsimp only
    split
    · rename_i a
      split
      · rename_i es hmem
        exact absurd ⟨a, es, rfl, hmem⟩ hdest
      · trivial
    · trivial

theorem yields_mapPutSlotBits (hok : h.Ok) {map key value : AnyValue} {m : Term → Option Term}
    (hmap : h.Denotes map m ∨ map.kind ≠ .map ∧ m = fun _ => none) {k v : Term}
    (hkey : h.Pub key k) (hvalue : h.Pub value v) : ∃ n, ∀ i ≥ n,
    Yields (mapPutSlotBits i map key value) h ∅ fun w h' =>
      h'.Denotes w (Function.update m k (some v)) := by
  rcases hmap with hmap | ⟨hkind, rfl⟩
  · obtain ⟨a, es, ds, rfl, hrest⟩ := id hmap
    exact yields_mapPutEntry hok hmap hkey hvalue
  · refine ⟨0, fun i _ => ?_⟩
    have hnot : ∀ a, map ≠ .heapRef .map a := fun a ha => hkind (by rw [ha]; rfl)
    have hentry : h.EntriesOf [(key, value)] [(k, v)] := .cons ⟨hkey, hvalue⟩ .nil
    rw [mapPutSlotBits]
    · refine wp_allocOrderedMapEntries hok hentry (List.pairwise_singleton ..) fun k' v' => ?_
      rcases eq_or_ne k' k with rfl | hne
      · simp [eq_comm]
      · simp [hne]
    · exact hnot

theorem Step.ok (hok : h.Ok) (hstep : Step h h') : h'.Ok := by
  cases hstep with
  | @allocate o ho =>
    refine hok.extend ?_
    cases o with
    | map => exact ho.elim
    | bitstring p => exact ho
    | cons | struct | closure | procbin | resource => trivial
  | literal hes hop => exact Yields.ok (yields_allocMapSlots hok hes) hop
  | @destination base extra w _ _ hop =>
    obtain ⟨n, hn⟩ := hop
    exact (ok_allocMapDestination hok base extra).ok (hn n le_rfl)
  | @destinationPut dest _ _ _ _ _ _ hkey hvalue hop =>
    obtain ⟨n, hn⟩ := hop
    exact (ok_mapDestinationPut hok dest hkey hvalue).ok (hn n le_rfl)
  | @freeze dest w _ hop =>
    obtain ⟨n, hn⟩ := hop
    obtain ⟨m, hm⟩ := ok_mapDestinationFreeze hok dest
    exact (hm (max n m) (by omega)).ok (hn (max n m) (by omega))
  | @put map key value w m k v _ hmap hkey hvalue hop =>
    by_cases hkind : map.kind = .map
    · obtain ⟨m, hm⟩ := hok.denotes hmap hkind
      exact Yields.ok (yields_mapPutSlotBits hok (.inl hm) hkey hvalue) hop
    · exact Yields.ok (yields_mapPutSlotBits hok (.inr ⟨hkind, rfl⟩) hkey hvalue) hop
  | @delete map key w m k _ hmap hkey hop =>
    by_cases hkind : map.kind = .map
    · obtain ⟨m, hm⟩ := hok.denotes hmap hkind
      exact Yields.ok (yields_mapDeleteRef hok hm hkey) hop
    · obtain ⟨n, hn⟩ := hop
      have hthrow : mapDeleteRef n map key = throw .malformedObject := by
        have haddr : mapAddr map = throw .malformedObject := by
          unfold mapAddr
          split
          · exact absurd rfl hkind
          · rfl
        rw [mapDeleteRef, haddr]
        rfl
      have herr := hn n le_rfl
      simp only [hthrow] at herr
      exact nomatch herr
  | @copy inSource src w t _ hsrc hop => exact Yields.ok (yields_deepCopy hok inSource hsrc) hop

/-! ## What maps do -/

/-- The maps of a heap are finite maps, and the operations on them are those of finite maps. -/
structure MapsBehave (h : Heap) : Prop where
  ordered : ∀ a es, h.terms.memory a = some (.map false es) →
    ∃ ds, h.EntriesOf es ds ∧ Increasing Term.cmp ds
  denotes : ∀ w t, h.Pub w t → w.kind = .map → ∃ m, h.Denotes w m
  literal : ∀ es ds, h.EntriesOf es ds → ∃ n, ∀ i ≥ n,
    Yields (allocMapSlots i es) h ∅ fun w h' => h'.Denotes w (ofEntries ds)
  put : ∀ w m key k value v, h.Denotes w m ∨ w.kind ≠ .map ∧ (m = fun _ => none) →
    h.Pub key k → h.Pub value v → ∃ n, ∀ i ≥ n,
    Yields (mapPutSlotBits i w key value) h ∅ fun w' h' =>
      h'.Denotes w' (Function.update m k (some v))
  delete : ∀ w m key k, h.Denotes w m → h.Pub key k → ∃ n, ∀ i ≥ n,
    Yields (mapDeleteRef i w key) h ∅ fun w' h' => h'.Denotes w' (Function.update m k none)
  get : ∀ w m key k, h.Denotes w m → h.Pub key k → ∃ n, ∀ i ≥ n,
    Yields (readMapValue i w key) h ∅ fun r h' => h' = h ∧ Option.Rel h.Pub r (m k)
  destination : ∀ base m extra, (∃ w, base = some w ∧ h.Denotes w m) ∨
      (∀ a, base ≠ some (.heapRef .map a)) ∧ (m = fun _ => none) →
    (∀ a es, base = some (.heapRef .map a) → h.terms.memory a = some (.map false es) →
      es.length + extra < 2 ^ 31) → extra < 2 ^ 31 →
    Yields (allocMapDestination base extra) h ∅ fun w h' => h'.Collects w m extra
  destinationPut : ∀ w m room key k value v, h.Collects w m (room + 1) → h.Pub key k →
    h.Pub value v →
    Yields (mapDestinationPut w key value) h {w.addr} fun _ h' =>
      h'.Collects w (Function.update m k (some v)) room
  freeze : ∀ w m room, h.Collects w m room → ∃ n, ∀ i ≥ n,
    Yields (mapDestinationFreeze i w) h {w.addr} fun w' h' => h'.Denotes w' m
  copy : ∀ inSource w m t, h.Denotes w m → h.Pub w t → ∃ n, ∀ i ≥ n,
    Yields (deepCopy inSource i w) h ∅ fun w' h' => h'.Denotes w' m

theorem pub_list_unique {xs : List AnyValue} {ts us : List Term}
    (hts : List.Forall₂ h.Pub xs ts) (hus : List.Forall₂ h.Pub xs us) : ts = us := by
  induction hts generalizing us with
  | nil =>
    cases hus
    rfl
  | cons ht _ ih =>
    cases hus with
    | cons hu hus => rw [ht.unique hu, ih hus]

theorem EntriesOf.of_reads {es : List (AnyValue × AnyValue)} {ds : List (Term × Term)}
    (hes : h.EntriesOf es ds) {n : Nat} {ks vs : List Term}
    (hks : (es.map Prod.fst).mapM (h.terms.term? n) = some ks)
    (hvs : (es.map Prod.snd).mapM (h.terms.term? n) = some vs) :
    ks = ds.map Prod.fst ∧ vs = ds.map Prod.snd := by
  have hks' : List.Forall₂ h.Pub (es.map Prod.fst) (ds.map Prod.fst) :=
    List.forall₂_map_left_iff.mpr (List.forall₂_map_right_iff.mpr (hes.imp fun _ _ he => he.1))
  have hvs' : List.Forall₂ h.Pub (es.map Prod.snd) (ds.map Prod.snd) :=
    List.forall₂_map_left_iff.mpr (List.forall₂_map_right_iff.mpr (hes.imp fun _ _ he => he.2))
  exact ⟨pub_list_unique (published_of_mapM hks) hks', pub_list_unique (published_of_mapM hvs) hvs'⟩

theorem term_of_denotes {a : Addr} {es : List (AnyValue × AnyValue)} {ds : List (Term × Term)}
    {t : Term} (hmem : h.terms.memory a = some (.map false es)) (hes : h.EntriesOf es ds)
    (hw : h.Pub (.heapRef .map a) t) :
    t = .node (.map es.length) (ds.map Prod.fst ++ ds.map Prod.snd) := by
  obtain ⟨n, hn⟩ := hw
  cases n with
  | zero => exact nomatch hn
  | succ n =>
    cases TermComparator.reads_of_term? hn with
    | list hk => exact nomatch hk
    | map hmem' hks hvs =>
      obtain rfl := (Object.map.inj (Option.some.inj (hmem'.symm.trans hmem))).2
      obtain ⟨rfl, rfl⟩ := hes.of_reads hks hvs
      rfl
    | binary hk => exact nomatch hk

theorem Denotes.of_term {w w' : AnyValue} {m : Term → Option Term} {t : Term}
    (hden : h.Denotes w m) (hw : h.Pub w t) (hok' : h'.Ok) (hw' : h'.Pub w' t) :
    h'.Denotes w' m := by
  obtain ⟨a, es, ds, rfl, hmem, hes, hds, hm⟩ := hden
  obtain rfl := term_of_denotes hmem hes hw
  obtain ⟨n, hn⟩ := hw'
  cases n with
  | zero => exact nomatch hn
  | succ n =>
    have hreads := TermComparator.reads_of_term? hn
    generalize ht : Rose.node (Label.map es.length) (ds.map Prod.fst ++ ds.map Prod.snd) = t
      at hreads
    cases hreads with
    | @map a' es' ks vs hmem' hks hvs =>
      obtain ⟨hlabel, hparts⟩ := Rose.node.inj ht
      have hlen := Label.map.inj hlabel
      obtain ⟨ds', hes', hds'⟩ := hok'.maps a' es' hmem'
      obtain ⟨rfl, rfl⟩ := hes'.of_reads hks hvs
      have hlength : (ds.map Prod.fst).length = (ds'.map Prod.fst).length := by
        rw [List.length_map, List.length_map, ← hes.length_eq, ← hes'.length_eq, hlen]
      obtain ⟨hfst, hsnd⟩ := List.append_inj hparts hlength
      obtain rfl : ds = ds' := (List.zip_of_prod hfst hsnd).trans (List.zip_of_prod rfl rfl).symm
      exact ⟨a', es', ds, rfl, hmem', hes', hds', hm⟩
    | int | float | atom | list | struct | closure | resource | binary =>
      exact nomatch (Rose.node.inj ht).1

theorem Ok.mapsBehave (hok : h.Ok) : h.MapsBehave where
  ordered := hok.maps
  denotes _ _ hw hkind := hok.denotes hw hkind
  literal _ _ hes := yields_allocMapSlots hok hes
  put _ _ _ _ _ _ hmap hkey hvalue := yields_mapPutSlotBits hok hmap hkey hvalue
  delete _ _ _ _ hmap hkey := yields_mapDeleteRef hok hmap hkey
  get _ _ _ _ hmap hkey := yields_readMapValue hok hmap hkey
  destination _ _ _ hbase hroom hextra := yields_allocMapDestination hok hbase hroom hextra
  destinationPut _ _ _ _ _ _ _ hdest hkey hvalue := yields_mapDestinationPut hok hdest hkey hvalue
  freeze _ _ _ hdest := yields_mapDestinationFreeze hok hdest
  copy inSource _ _ _ hmap hw := by
    obtain ⟨n, hn⟩ := yields_deepCopy hok inSource hw
    refine ⟨n, fun i hi => (hn i hi).imp ?_⟩
    rintro w' h' ⟨hkeeps, hok', hw'⟩
    exact ⟨hkeeps, hok', hmap.of_term hw hok' hw'⟩

/-- On every heap that the operations build, maps are finite maps: keys increase strictly, and
construction, destinations, put, delete, reads and copies do what they do on finite maps. -/
theorem maps_behave (node : Node) (schemas : SchemaRegistry) {h : Heap}
    (hrun : Relation.ReflTransGen Step (empty node schemas) h) : h.MapsBehave := by
  have hok : h.Ok := by
    induction hrun with
    | refl => exact ok_empty node schemas
    | tail _ hstep ih => exact hstep.ok ih
  exact hok.mapsBehave

theorem noDenotation : (fun _ => none : Nat → Option FunctionDenotation) (2 ^ 32 - 1) = none := rfl

def noAtoms : Node := ⟨[], fun _ => none, noDenotation⟩

def noSchemas : SchemaRegistry := ⟨[], by decide⟩

/-- A literal that binds the key `2` twice. -/
def twiceBound : List (AnyValue × AnyValue) :=
  [(.int 2, .int 0), (.int 1, .int 5), (.int 2, .int 7)]

/-- Publishing it keeps the keys in order and the later value. -/
theorem twiceBound_behaves : ∃ h, Relation.ReflTransGen Step (empty noAtoms noSchemas) h ∧
    h.terms.memory 1 = some (.map false [(.int 1, .int 5), (.int 2, .int 7)]) ∧ h.MapsBehave := by
  have hpub : ∀ n : Int64, (empty noAtoms noSchemas).Pub (.int n) (.node (.int n) []) :=
    fun n => ⟨1, rfl⟩
  have hes : (empty noAtoms noSchemas).EntriesOf twiceBound
      [(.node (.int 2) [], .node (.int 0) []), (.node (.int 1) [], .node (.int 5) []),
        (.node (.int 2) [], .node (.int 7) [])] :=
    .cons ⟨hpub 2, hpub 0⟩ (.cons ⟨hpub 1, hpub 5⟩ (.cons ⟨hpub 2, hpub 7⟩ .nil))
  have hop : Answers (allocMapSlots · twiceBound) (empty noAtoms noSchemas) (.heapRef .map 1)
      ((empty noAtoms noSchemas).extend (.map false [(.int 1, .int 5), (.int 2, .int 7)])) := by
    refine ⟨1, fun i hi => ?_⟩
    obtain ⟨n, rfl⟩ := Nat.exists_eq_add_of_le' hi
    rfl
  have hrun := Relation.ReflTransGen.single (Step.literal hes hop)
  exact ⟨_, hrun, rfl, maps_behave noAtoms noSchemas hrun⟩

theorem ok_run {node : Node} {schemas : SchemaRegistry}
    (hrun : Relation.ReflTransGen Step (empty node schemas) h) : h.Ok := by
  induction hrun with
  | refl => exact ok_empty node schemas
  | tail _ hstep ih => exact hstep.ok ih

/-- On every heap that the operations build, a copied message is equal to its source in both modes
and compares as it does with every other word. -/
theorem copy_compares_alike {node : Node} {schemas : SchemaRegistry}
    (hrun : Relation.ReflTransGen Step (empty node schemas) h) (inSource : Addr → Bool)
    {w : AnyValue} {t : Term} (hw : h.Pub w t) : ∃ n, ∀ i ≥ n,
    Yields (deepCopy inSource i w) h ∅ fun w' h' => ∀ mode, h'.terms.Answers w' w mode .eq ∧
      ∀ v u, h.Pub v u → ∀ o, h'.terms.Answers w' v mode o ↔ h.terms.Answers w v mode o := by
  obtain ⟨n, hn⟩ := yields_deepCopy (ok_run hrun) inSource hw
  refine ⟨n, fun i hi => (hn i hi).imp ?_⟩
  rintro w' h' ⟨hkeeps, hok, hw'⟩
  refine ⟨hkeeps, hok, fun mode => ⟨?_, fun v u hv o => ?_⟩⟩
  · have heq := TermComparator.answers_cmpIn hw' (hkeeps.grows.published hw) mode
    rwa [Term.cmpIn_self] at heq
  · have hbefore := TermComparator.answers_cmpIn hw hv mode
    have hafter := TermComparator.answers_cmpIn hw' (hkeeps.grows.published hv) mode
    constructor
    · intro ho
      rwa [ho.unique hafter]
    · intro ho
      rwa [ho.unique hbefore]

/-- A copied list of one element is equal to the list it was copied from. -/
theorem copy_compares_alike_singleton : ∃ h,
    Relation.ReflTransGen Step (empty noAtoms noSchemas) h ∧ ∃ n, ∀ i ≥ n,
      Yields (deepCopy (fun _ => true) i (.heapRef .list 1)) h ∅ fun w' h' =>
        ∀ mode, h'.terms.Answers w' (.heapRef .list 1) mode .eq := by
  have hrun := Relation.ReflTransGen.single
    (Step.allocate (h := empty noAtoms noSchemas) (o := .cons (.int 1) 0) trivial)
  obtain ⟨n, hn⟩ := copy_compares_alike hrun (fun _ => true) (w := .heapRef .list 1) ⟨3, rfl⟩
  exact ⟨_, hrun, n, fun i hi =>
    (hn i hi).imp fun _ _ hw => ⟨hw.1, hw.2.1, fun mode => (hw.2.2 mode).1⟩⟩

end Heap

end Fz.Terms
