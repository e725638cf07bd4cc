import Fz.Terms.DeepCopy
import Fz.Terms.MapSound

/-!
# A deep copy is the same term

A copy denotes the term of its source (`yields_deepCopy`), so a copied map has the keys of its
source in the same order.  While a copy runs, the cells, structs and closures whose parts are still
being copied stand on the heap with placeholders in them.  The invariant is stated of the heap with
these hidden (`Heap.hide`): what is finished does not reach what is not.  A source object whose copy
is in progress cannot be met again, because the terms inside it are smaller than its own.
-/

namespace Fz.Terms

open Std Fz.Base Fz.Base.Entries Fz.Bitstr TermComparator

/-! ## What stands at an address -/

theorem forall₂_of_mapM {f : AnyValue → Option Term} : ∀ {xs : List AnyValue} {ts : List Term},
    xs.mapM f = some ts → List.Forall₂ (fun x t => f x = some t) xs ts
  | [], _, h => by
    obtain rfl := Option.some.inj h
    exact .nil
  | x :: xs, _, h => by
    obtain ⟨t, ts, ht, hts, rfl⟩ := mapM_cons_eq_some h
    exact .cons ht (forall₂_of_mapM hts)

theorem mapM_of_forall₂ {f : AnyValue → Option Term} {xs : List AnyValue} {ts : List Term}
    (h : List.Forall₂ (fun x t => f x = some t) xs ts) : xs.mapM f = some ts := by
  induction h with
  | nil => rfl
  | cons ht _ ih =>
    simp only [List.mapM_cons, ht, ih]
    rfl

theorem mapM_of_published {c : TermComparator} {xs : List AnyValue} {ts : List Term}
    (h : List.Forall₂ c.Published xs ts) : ∃ n, ∀ m ≥ n, xs.mapM (c.term? m) = some ts := by
  induction h with
  | nil => exact ⟨0, fun _ _ => rfl⟩
  | cons ht _ ih =>
    obtain ⟨n, hn⟩ := ih
    obtain ⟨l, hl⟩ := ht
    refine ⟨max n l, fun m hm => ?_⟩
    simp only [List.mapM_cons, term?_mono (show l ≤ m by omega) hl, hn m (by omega)]
    rfl

theorem published_of_mapM {c : TermComparator} {n : Nat} {xs : List AnyValue} {ts : List Term}
    (h : xs.mapM (c.term? n) = some ts) : List.Forall₂ c.Published xs ts :=
  (forall₂_of_mapM h).imp fun _ _ ht => ⟨n, ht⟩

def Object.kind : Object → ValueKind
  | .cons .. => .list
  | .map .. => .map
  | .struct .. => .struct
  | .closure .. => .closure
  | .bitstring _ => .bitstring
  | .procbin _ => .procbin
  | .resource _ => .resource

/-- What a word of a kind denotes, by the object at its address. -/
inductive Heap.Shows (h : Heap) (a : Addr) : ValueKind → Term → Prop where
  | cons {head : AnyValue} {tail : Addr} {t : Term} {ts : List Term}
    (hmem : h.terms.memory a = some (.cons head tail)) (hhead : h.Pub head t)
    (htail : h.Pub (.heapRef .list tail) (.node .list ts)) :
    Shows h a .list (.node .list (t :: ts))
  | map {es : List (AnyValue × AnyValue)} {ds : List (Term × Term)}
    (hmem : h.terms.memory a = some (.map false es)) (hes : h.EntriesOf es ds) :
    Shows h a .map (.node (.map es.length) (ds.map Prod.fst ++ ds.map Prod.snd))
  | struct {id : Nat} {slots : List FieldSlot} {schema : Schema} {ts : List Term} {n : Nat}
    (hmem : h.terms.memory a = some (.struct id slots))
    (hschema : h.terms.schemas.get? id = some schema) (hid : ∀ s, schema.identity ≠ .internal s)
    (hts : slotTerms? (h.terms.term? n) schema.fields slots = some ts) :
    Shows h a .struct (.node (.struct schema.identity) ts)
  | closure {id : Nat} {captures : List AnyValue} {d : FunctionDenotation} {ts : List Term}
    (hmem : h.terms.memory a = some (.closure id captures))
    (hd : h.terms.node.closureDenotations id = some d) (hts : List.Forall₂ h.Pub captures ts) :
    Shows h a .closure (.node (.closure d captures.length) ts)
  | resource {id : Nat} (hmem : h.terms.memory a = some (.resource id)) :
    Shows h a .resource (.node (.resource id) [])
  | bitstring {p : BitPayload} (hmem : h.terms.memory a = some (.bitstring p)) :
    Shows h a .bitstring (.node (.bits p.bits) [])
  | procbin {stub : ProcBin} (hmem : h.terms.memory a = some (.procbin stub)) :
    Shows h a .procbin (.node (.bits stub.view.bits) [])

namespace Heap

variable {h : Heap}

theorem entriesOf_iff {es : List (AnyValue × AnyValue)} {ks vs : List Term}
    (hks : List.Forall₂ h.Pub (es.map Prod.fst) ks)
    (hvs : List.Forall₂ h.Pub (es.map Prod.snd) vs) :
    ∃ ds, h.EntriesOf es ds ∧ ds.map Prod.fst = ks ∧ ds.map Prod.snd = vs := by
  induction es generalizing ks vs with
  | nil =>
    cases hks
    cases hvs
    exact ⟨[], .nil, rfl, rfl⟩
  | cons e es ih =>
    cases hks with
    | @cons _ k _ ks hk hks =>
      cases hvs with
      | @cons _ v _ vs hv hvs =>
        obtain ⟨ds, hes, rfl, rfl⟩ := ih hks hvs
        exact ⟨(k, v) :: ds, .cons ⟨hk, hv⟩ hes, rfl, rfl⟩

theorem shows_of_pub {a : Addr} (ha : a ≠ 0) {kind : ValueKind} {t : Term}
    (ht : h.Pub (.heapRef kind a) t) : h.Shows a kind t := by
  obtain ⟨n, hn⟩ := ht
  cases n with
  | zero => exact nomatch hn
  | succ n =>
    cases reads_of_term? hn with
    | @list _ xs ts hk hxs hts =>
      obtain rfl : kind = .list := hk
      have hxs' : h.terms.spine? n a = some xs := hxs
      rcases spine?_cases hxs' with ⟨rfl, -⟩ | ⟨m, head, tail, ys, rfl, -, hmem, hys, rfl⟩
      · exact absurd rfl ha
      · obtain ⟨t, us, ht, hus, rfl⟩ := mapM_cons_eq_some hts
        refine .cons hmem ⟨_, ht⟩ ⟨m + 2, ?_⟩
        exact term?_of_reads (.list rfl (spine?_mono hys) hus)
    | map hmem hks hvs =>
      obtain ⟨ds, hes, rfl, rfl⟩ := entriesOf_iff (published_of_mapM hks) (published_of_mapM hvs)
      exact .map hmem hes
    | struct hmem hschema hid hts => exact .struct hmem hschema hid hts
    | closure hmem hd hts => exact .closure hmem hd (published_of_mapM hts)
    | resource hmem => exact .resource hmem
    | @binary _ _ p hk hp =>
      unfold TermComparator.payload? at hp
      split at hp
      · rename_i hmem
        obtain rfl := Option.some.inj hp
        exact .bitstring hmem
      · rename_i hmem
        obtain rfl := Option.some.inj hp
        exact .procbin hmem
      · exact nomatch hp

theorem pub_list_addr {w : AnyValue} {ts : List Term} (hw : h.Pub w (.node .list ts)) :
    h.Pub (.heapRef .list w.addr) (.node .list ts) := by
  obtain ⟨n, hn⟩ := hw
  cases n with
  | zero => exact nomatch hn
  | succ n =>
    cases reads_of_term? hn with
    | list _ hxs hts => exact ⟨n + 1, term?_of_reads (.list rfl hxs hts)⟩

theorem Shows.pub {a : Addr} (ha : a ≠ 0) {kind : ValueKind} {t : Term} (hs : h.Shows a kind t) :
    h.Pub (.heapRef kind a) t := by
  cases hs with
  | @cons head tail t ts hmem hhead htail =>
    obtain ⟨n, hn⟩ := hhead
    obtain ⟨m, hm⟩ := htail
    cases m with
    | zero => exact nomatch hm
    | succ m =>
      cases reads_of_term? hm with
      | @list _ xs _ _ hxs hts =>
        have hspine : h.terms.spine? (max n m + 1) a = some (head :: xs) := by
          have hxs' : h.terms.spine? (max n m) tail = some xs := by
            have hmono : ∀ k ≥ m, h.terms.spine? k tail = some xs := by
              intro k hk
              induction hk with
              | refl => exact hxs
              | step _ ih => exact spine?_mono ih
            exact hmono _ (Nat.le_max_right n m)
          rw [TermComparator.spine?, if_neg ha, hmem]
          simp only [hxs', Option.map_some]
        refine ⟨max n m + 2, term?_of_reads (.list rfl hspine ?_)⟩
        refine mapM_of_forall₂ (.cons (term?_mono (by omega) hn) ?_)
        exact (forall₂_of_mapM hts).imp fun _ _ hx => term?_mono (by omega) hx
  | @map es ds hmem hes =>
    have hks : List.Forall₂ h.Pub (es.map Prod.fst) (ds.map Prod.fst) :=
      List.forall₂_map_left_iff.mpr (List.forall₂_map_right_iff.mpr (hes.imp fun _ _ he => he.1))
    have hvs : List.Forall₂ h.Pub (es.map Prod.snd) (ds.map Prod.snd) :=
      List.forall₂_map_left_iff.mpr (List.forall₂_map_right_iff.mpr (hes.imp fun _ _ he => he.2))
    obtain ⟨n, hn⟩ := mapM_of_published hks
    obtain ⟨m, hm⟩ := mapM_of_published hvs
    exact ⟨max n m + 1, term?_of_reads
      (.map hmem (hn _ (Nat.le_max_left n m)) (hm _ (Nat.le_max_right n m)))⟩
  | @struct id slots schema ts n hmem hschema hid hts =>
    exact ⟨n + 1, term?_of_reads (.struct hmem hschema hid hts)⟩
  | closure hmem hd hts =>
    obtain ⟨n, hn⟩ := mapM_of_published hts
    exact ⟨n + 1, term?_of_reads (.closure hmem hd (hn n le_rfl))⟩
  | resource hmem => exact ⟨1, term?_of_reads (.resource hmem)⟩
  | bitstring hmem =>
    refine ⟨1, term?_of_reads (.binary rfl ?_)⟩
    simp only [TermComparator.payload?, hmem]
  | procbin hmem =>
    refine ⟨1, term?_of_reads (.binary rfl ?_)⟩
    simp only [TermComparator.payload?, hmem]

theorem Shows.memory {a : Addr} {kind : ValueKind} {t : Term} (hs : h.Shows a kind t) :
    ∃ o, h.terms.memory a = some o ∧ o.kind = kind := by
  cases hs with
  | cons hmem _ _ => exact ⟨_, hmem, rfl⟩
  | map hmem _ => exact ⟨_, hmem, rfl⟩
  | struct hmem _ _ _ => exact ⟨_, hmem, rfl⟩
  | closure hmem _ _ => exact ⟨_, hmem, rfl⟩
  | resource hmem => exact ⟨_, hmem, rfl⟩
  | bitstring hmem => exact ⟨_, hmem, rfl⟩
  | procbin hmem => exact ⟨_, hmem, rfl⟩

theorem pub_unique {a : Addr} (ha : a ≠ 0) {k l : ValueKind} {s t : Term}
    (hs : h.Pub (.heapRef k a) s) (ht : h.Pub (.heapRef l a) t) : k = l ∧ s = t := by
  obtain ⟨o, ho, rfl⟩ := (shows_of_pub ha hs).memory
  obtain ⟨o', ho', rfl⟩ := (shows_of_pub ha ht).memory
  obtain rfl := Option.some.inj (ho.symm.trans ho')
  exact ⟨rfl, hs.unique ht⟩

end Heap

/-! ## Hiding what is not finished -/

open Classical in
/-- The heap without the objects at some addresses. -/
noncomputable def Heap.hide (h : Heap) (hidden : Set Addr) : Heap where
  terms := { h.terms with memory := fun a => if a ∈ hidden then none else h.terms.memory a }
  next := h.next
  capacity := h.capacity
  next_pos := h.next_pos
  free := by
    intro a ha
    show (if a ∈ hidden then none else h.terms.memory a) = none
    rw [h.free a ha, ite_self]

namespace Heap

variable {h : Heap} {hidden : Set Addr}

theorem hide_memory_of_mem {a : Addr} (ha : a ∈ hidden) : (h.hide hidden).terms.memory a = none :=
  if_pos ha

theorem hide_memory {a : Addr} (ha : a ∉ hidden) :
    (h.hide hidden).terms.memory a = h.terms.memory a :=
  if_neg ha

theorem hide_empty (h : Heap) : h.hide ∅ = h := by
  obtain ⟨⟨node, schemas, memory⟩, next, capacity, next_pos, free⟩ := h
  have hmem : (fun a => if a ∈ (∅ : Set Addr) then none else memory a) = memory :=
    funext fun a => if_neg (Set.notMem_empty a)
  simp only [hide]
  congr

theorem Ok.of_terms {h h' : Heap} (hok : h.Ok) (hterms : h'.terms = h.terms) : h'.Ok := by
  obtain ⟨terms, next, capacity, next_pos, free⟩ := h
  obtain ⟨terms', next', capacity', next_pos', free'⟩ := h'
  subst hterms
  exact ⟨hok.maps, hok.destinations, hok.inline⟩

theorem hide_extend_insert (h : Heap) (o : Object) (hidden : Set Addr) :
    ((h.extend o).hide (insert h.next hidden)).terms = (h.hide hidden).terms := by
  have hmem : ∀ a, ((h.extend o).hide (insert h.next hidden)).terms.memory a =
      (h.hide hidden).terms.memory a := by
    intro a
    rcases eq_or_ne a h.next with rfl | hne
    · rw [hide_memory_of_mem (Set.mem_insert _ _), (h.hide hidden).free h.next le_rfl]
    · by_cases ha : a ∈ hidden
      · rw [hide_memory_of_mem (Set.mem_insert_of_mem _ ha), hide_memory_of_mem ha]
      · rw [hide_memory (by simp [hne, ha]), hide_memory ha]
        exact Function.update_of_ne hne ..
  exact congrArg (fun memory => ({ h.terms with memory } : TermComparator)) (funext hmem)

theorem hide_extend {h : Heap} {o : Object} {hidden : Set Addr} (hfresh : h.next ∉ hidden) :
    (h.extend o).hide hidden = (h.hide hidden).extend o := by
  have hmem :
      ((h.extend o).hide hidden).terms.memory = ((h.hide hidden).extend o).terms.memory := by
    funext a
    show _ = Function.update (h.hide hidden).terms.memory h.next (some o) a
    rcases eq_or_ne a h.next with rfl | hne
    · rw [hide_memory hfresh, Function.update_self, extend_memory]
    · rw [Function.update_of_ne hne]
      by_cases ha : a ∈ hidden
      · rw [hide_memory_of_mem ha, hide_memory_of_mem ha]
      · rw [hide_memory ha, hide_memory ha]
        exact Function.update_of_ne hne ..
  have hterms : ((h.extend o).hide hidden).terms = ((h.hide hidden).extend o).terms :=
    congrArg (fun memory => ({ h.terms with memory } : TermComparator)) hmem
  have hnext : ((h.extend o).hide hidden).next = ((h.hide hidden).extend o).next := rfl
  have hcap : ((h.extend o).hide hidden).capacity = ((h.hide hidden).extend o).capacity := rfl
  generalize (h.extend o).hide hidden = h₁ at hterms hnext hcap
  generalize (h.hide hidden).extend o = h₂ at hterms hnext hcap
  obtain ⟨terms, next, capacity, next_pos, free⟩ := h₁
  obtain ⟨terms', next', capacity', next_pos', free'⟩ := h₂
  subst hterms hnext hcap
  rfl

theorem hide_replace_memory {h : Heap} {a : Addr} {o : Object} {hidden : Set Addr}
    (ha : a < h.next) (hout : a ∉ hidden) : ((h.replace a o ha).hide hidden).terms.memory =
      Function.update (h.hide (insert a hidden)).terms.memory a (some o) := by
  funext b
  rcases eq_or_ne b a with rfl | hne
  · rw [hide_memory hout, Function.update_self]
    exact Function.update_self ..
  · rw [Function.update_of_ne hne]
    by_cases hb : b ∈ hidden
    · rw [hide_memory_of_mem hb, hide_memory_of_mem (Set.mem_insert_of_mem _ hb)]
    · rw [hide_memory hb, hide_memory (by simp [hne, hb])]
      exact Function.update_of_ne hne ..

theorem keeps_hide_replace {h : Heap} {a : Addr} (o : Object) {hidden : Set Addr}
    (ha : a < h.next) (hout : a ∉ hidden) :
    (h.hide (insert a hidden)).Keeps ((h.replace a o ha).hide hidden) {a} where
  grows := by
    refine ⟨rfl, rfl, fun b o' ho' _ => ?_⟩
    have hne : b ≠ a := by
      rintro rfl
      rw [hide_memory_of_mem (Set.mem_insert _ _)] at ho'
      exact nomatch ho'
    rw [hide_replace_memory ha hout, Function.update_of_ne hne, ho']
  next_le := le_rfl
  memory b _ hb := by
    rw [hide_replace_memory ha hout, Function.update_of_ne hb]
  capacity _ _ := rfl

theorem Keeps.trans_fresh {h h' h'' : Heap} {d : Addr} (hk : h.Keeps h' ∅)
    (hk' : h'.Keeps h'' {d}) (hd : h.next ≤ d) : h.Keeps h'' ∅ where
  grows := hk.grows.trans hk'.grows
  next_le := hk.next_le.trans hk'.next_le
  memory a ha _ := by
    have hne : a ∉ ({d} : Set Addr) := Nat.ne_of_lt (ha.trans_le hd)
    exact (hk'.memory a (ha.trans_le hk.next_le) hne).trans
      (hk.memory a ha (Set.notMem_empty a))
  capacity a ha := (hk'.capacity a (ha.trans_le hk.next_le)).trans (hk.capacity a ha)

end Heap

/-! ## The invariant of a copy -/

namespace Copy

variable {h₀ : Heap} {hidden busy : Set Addr} {s s' s'' : CopyState}

/-- A copy from `h₀` in progress.  The copies of `busy` sources are not finished, and those that are
already on the heap are `hidden`; every other entry of the table points to a copy of its source. -/
structure Inv (h₀ : Heap) (hidden busy : Set Addr) (s : CopyState) : Prop where
  keeps : h₀.Keeps (s.heap.hide hidden) ∅
  ok : (s.heap.hide hidden).Ok
  hidden_ge : ∀ a ∈ hidden, h₀.next ≤ a
  hidden_lt : ∀ a ∈ hidden, a < s.heap.next
  copied : ∀ sp dp, s.forwarding sp = some dp → sp ∉ busy → ∀ kind t,
    h₀.Pub (.heapRef kind sp) t → (s.heap.hide hidden).Pub (.heapRef kind dp) t

/-- What a part of the copy leaves alone. -/
structure Moves (hidden busy : Set Addr) (s s' : CopyState) : Prop where
  keeps : (s.heap.hide hidden).Keeps (s'.heap.hide hidden) ∅
  forwarding : ∀ sp ∈ busy, s'.forwarding sp = s.forwarding sp

theorem Moves.refl (s : CopyState) : Moves hidden busy s s := ⟨.refl _ _, fun _ _ => rfl⟩

theorem Moves.trans (hm : Moves hidden busy s s') (hm' : Moves hidden busy s' s'') :
    Moves hidden busy s s'' :=
  ⟨hm.keeps.trans hm'.keeps, fun sp hsp => (hm'.forwarding sp hsp).trans (hm.forwarding sp hsp)⟩

/-- The terms of the sources in progress are larger. -/
def Inside (h₀ : Heap) (busy : Set Addr) (t : Term) : Prop :=
  ∀ sp ∈ busy, ∀ kind u, h₀.Pub (.heapRef kind sp) u → sizeOf t < sizeOf u

/-- A computation that copies a word. -/
def Copies (h₀ : Heap) (hidden busy : Set Addr) (op : CopyM AnyValue) (t : Term) : Prop :=
  ∀ s, Inv h₀ hidden busy s → wp op (fun w s' => Inv h₀ hidden busy s' ∧ Moves hidden busy s s' ∧
    (s'.heap.hide hidden).Pub w t) (fun _ => False) s

theorem Inv.memory (hinv : Inv h₀ hidden busy s) {a : Addr} (ha : a < h₀.next) :
    s.heap.terms.memory a = h₀.terms.memory a := by
  have hout : a ∉ hidden := fun hin => absurd (hinv.hidden_ge a hin) (Nat.not_le_of_lt ha)
  rw [← Heap.hide_memory hout, hinv.keeps.memory a ha (Set.notMem_empty a)]

theorem Inv.next_fresh (hinv : Inv h₀ hidden busy s) : s.heap.next ∉ hidden :=
  fun hin => absurd (hinv.hidden_lt _ hin) (Nat.lt_irrefl _)

theorem Inv.next_le (hinv : Inv h₀ hidden busy s) : h₀.next ≤ s.heap.next := hinv.keeps.next_le

theorem Inv.mark (hinv : Inv h₀ hidden busy s) (sp dp : Addr) : Inv h₀ hidden (insert sp busy)
      { s with forwarding := Function.update s.forwarding sp (some dp) } where
  keeps := hinv.keeps
  ok := hinv.ok
  hidden_ge := hinv.hidden_ge
  hidden_lt := hinv.hidden_lt
  copied sp' dp' hfwd hout kind t ht := by
    have hne : sp' ≠ sp := fun he => hout (he ▸ Set.mem_insert _ _)
    have hfwd' : Function.update s.forwarding sp (some dp) sp' = some dp' := hfwd
    rw [Function.update_of_ne hne] at hfwd'
    exact hinv.copied sp' dp' hfwd' (fun hb => hout (Set.mem_insert_of_mem _ hb)) kind t ht

theorem Inv.reserve (hinv : Inv h₀ hidden busy s) (o : Object) :
    Inv h₀ (insert s.heap.next hidden) busy { s with heap := s.heap.extend o } where
  keeps := by
    have hterms := Heap.hide_extend_insert s.heap o hidden
    refine ⟨?_, hinv.keeps.next_le.trans (Nat.le_succ _), ?_, hinv.keeps.capacity⟩
    · show h₀.terms.Grows ((s.heap.extend o).hide (insert s.heap.next hidden)).terms
      rw [hterms]
      exact hinv.keeps.grows
    · show ∀ a, a < h₀.next → a ∉ (∅ : Set Addr) →
        ((s.heap.extend o).hide (insert s.heap.next hidden)).terms.memory a = h₀.terms.memory a
      rw [hterms]
      exact hinv.keeps.memory
  ok := hinv.ok.of_terms (Heap.hide_extend_insert ..)
  hidden_ge a ha := by
    rcases Set.mem_insert_iff.mp ha with rfl | ha
    · exact hinv.next_le
    · exact hinv.hidden_ge a ha
  hidden_lt a ha := by
    rcases Set.mem_insert_iff.mp ha with rfl | ha
    · exact Nat.lt_succ_self _
    · exact Nat.lt_succ_of_lt (hinv.hidden_lt a ha)
  copied sp dp hfwd hout kind t ht := by
    have hpub := hinv.copied sp dp hfwd hout kind t ht
    show ((s.heap.extend o).hide (insert s.heap.next hidden)).terms.Published _ t
    rw [Heap.hide_extend_insert]
    exact hpub

variable {sp : Addr}

variable {kind : ValueKind}

theorem Inv.finish {hidden' : Set Addr} (dp : Addr) {t : Term} (hsp : sp ≠ 0)
    (hinv : Inv h₀ hidden' (insert sp busy) s)
    (hgrows : (s.heap.hide hidden').terms.Grows (s'.heap.hide hidden).terms)
    (hkeeps : h₀.Keeps (s'.heap.hide hidden) ∅) (hok : (s'.heap.hide hidden).Ok)
    (hhidden : ∀ a ∈ hidden, h₀.next ≤ a ∧ a < s'.heap.next)
    (hothers : ∀ sp' ≠ sp, s'.forwarding sp' = s.forwarding sp')
    (hfwd : s'.forwarding sp = some dp) (hsrc : h₀.Pub (.heapRef kind sp) t)
    (hdst : (s'.heap.hide hidden).Pub (.heapRef kind dp) t) : Inv h₀ hidden busy s' where
  keeps := hkeeps
  ok := hok
  hidden_ge a ha := (hhidden a ha).1
  hidden_lt a ha := (hhidden a ha).2
  copied sp' dp' hfwd' hout kind' t' ht' := by
    rcases eq_or_ne sp' sp with rfl | hne
    · obtain ⟨rfl, rfl⟩ := Heap.pub_unique hsp hsrc ht'
      obtain rfl := Option.some.inj (hfwd.symm.trans hfwd')
      exact hdst
    · rw [hothers sp' hne] at hfwd'
      have hout' : sp' ∉ insert sp busy := by simp [hne, hout]
      exact hgrows.published (hinv.copied sp' dp' hfwd' hout' kind' t' ht')

/-! ## Copying one object -/

theorem wp_onHeap {α : Type} (op : HeapM α) {Q : α → CopyState → Prop} {E : Panic → Prop} :
    wp (onHeap op) Q E s ↔ wp op (fun a h => Q a { s with heap := h }) E s.heap := by
  unfold wp onHeap
  cases op s.heap with
  | ok r => exact Iff.rfl
  | error e => exact Iff.rfl

variable {self : AnyValue → CopyM AnyValue}

theorem copies_copyChild {v : AnyValue} {t : Term} (ht : h₀.Pub v t)
    (hself : Copies h₀ hidden busy (self v) t) : Copies h₀ hidden busy (copyChild self v) t := by
  intro s hinv
  rw [copyChild]
  split
  · exact hself s hinv
  · exact ⟨hinv, .refl s, hinv.keeps.grows.published ht⟩

/-- One state follows from another by copying parts. -/
def Follows (h₀ : Heap) (hidden busy : Set Addr) (s s' : CopyState) : Prop :=
  Inv h₀ hidden busy s → Inv h₀ hidden busy s' ∧ Moves hidden busy s s'

theorem Follows.trans (h : Follows h₀ hidden busy s s') (h' : Follows h₀ hidden busy s' s'') :
    Follows h₀ hidden busy s s'' := by
  intro hinv
  obtain ⟨hinv', hm⟩ := h hinv
  obtain ⟨hinv'', hm'⟩ := h' hinv'
  exact ⟨hinv'', hm.trans hm'⟩

theorem wp_copyParts {α β : Type} {f : α → CopyM β} {P : α → β → Heap → Prop}
    (hmono : ∀ {x y h h'}, h.terms.Grows h'.terms → P x y h → P x y h') (xs : List α)
    (hstep : ∀ x ∈ xs, ∀ s, Inv h₀ hidden busy s → wp (f x) (fun y s' => Inv h₀ hidden busy s' ∧
      Moves hidden busy s s' ∧ P x y (s'.heap.hide hidden)) (fun _ => False) s)
    (hinv : Inv h₀ hidden busy s) :
    wp (xs.mapM f) (fun ys s' => Inv h₀ hidden busy s' ∧ Moves hidden busy s s' ∧
      List.Forall₂ (fun x y => P x y (s'.heap.hide hidden)) xs ys) (fun _ => False) s := by
  have hall := wp_mapM (f := f) (E := fun _ => False) (R := Follows h₀ hidden busy)
    (Q := fun x y s => Inv h₀ hidden busy s ∧ P x y (s.heap.hide hidden))
    (fun s hinv => ⟨hinv, .refl s⟩) Follows.trans
    (fun {x y a b} hab ⟨hinv, hp⟩ => ⟨(hab hinv).1, hmono (hab hinv).2.keeps.grows hp⟩) xs s
    fun x hx s' hs' => (hstep x hx s' (hs' hinv).1).imp
      fun y s'' ⟨hinv', hm, hp⟩ => ⟨fun _ => ⟨hinv', hm⟩, hinv', hp⟩
  refine hall.imp fun ys s' ⟨hfollows, hparts⟩ => ?_
  obtain ⟨hinv', hm⟩ := hfollows hinv
  exact ⟨hinv', hm, hparts.imp fun _ _ hp => hp.2⟩

theorem pub_of_copied {h : Heap} {xs ys : List AnyValue} {ts : List Term}
    (hts : List.Forall₂ h₀.Pub xs ts)
    (hys : List.Forall₂ (fun x y => ∀ t, h₀.Pub x t → h.Pub y t) xs ys) :
    List.Forall₂ h.Pub ys ts := by
  induction hys generalizing ts with
  | nil =>
    cases hts
    exact .nil
  | cons hy _ ih =>
    cases hts with
    | cons ht hts => exact .cons (hy _ ht) (ih hts)

theorem wp_copyWords {xs : List AnyValue} {ts : List Term} (hts : List.Forall₂ h₀.Pub xs ts)
    (hself : ∀ x t, x ∈ xs → t ∈ ts → h₀.Pub x t → Copies h₀ hidden busy (self x) t)
    (hinv : Inv h₀ hidden busy s) :
    wp (xs.mapM (copyChild self)) (fun ys s' => Inv h₀ hidden busy s' ∧ Moves hidden busy s s' ∧
      List.Forall₂ (s'.heap.hide hidden).Pub ys ts) (fun _ => False) s := by
  have hparts := wp_copyParts (f := copyChild self)
    (P := fun x y h => ∀ t, h₀.Pub x t → h.Pub y t)
    (fun hg hp t ht => hg.published (hp t ht)) xs (fun x hx s hinv => by
      obtain ⟨t, htmem, ht⟩ := exists_of_forall₂_left hts hx
      refine (copies_copyChild ht (hself x t hx htmem ht) s hinv).imp ?_
      rintro y s' ⟨hinv', hm, hy⟩
      refine ⟨hinv', hm, fun t' ht' => ?_⟩
      rw [ht'.unique ht]
      exact hy) hinv
  exact hparts.imp fun ys s' ⟨hinv', hm, hys⟩ => ⟨hinv', hm, pub_of_copied hts hys⟩

/-- A source whose copy is made of one fresh object, written when its parts are there. -/
theorem copies_reserved {t : Term} (hsp : sp ≠ 0)
    (hbusy : sp ∉ busy) (hsrc : h₀.Pub (.heapRef kind sp) t) {α : Type} (placeholder : Object)
    {parts : CopyM α} (object : α → Object)
    (hfits : ∀ h x, Heap.Fits h (object x))
    (hparts : ∀ dp s, h₀.next ≤ dp → Inv h₀ (insert dp hidden) (insert sp busy) s →
      wp parts (fun x s' => Inv h₀ (insert dp hidden) (insert sp busy) s' ∧
        Moves (insert dp hidden) (insert sp busy) s s' ∧
        ∀ h : Heap, (s'.heap.hide (insert dp hidden)).terms.Grows h.terms →
          h.terms.memory dp = some (object x) → h.Shows dp kind t) (fun _ => False) s) :
    Copies h₀ hidden busy (do
      let dp ← onHeap (Heap.alloc placeholder)
      forward sp dp
      let x ← parts
      onHeap (Heap.write dp (object x))
      return .heapRef kind dp) t := by
  intro s hinv
  rw [wp_bind, wp_onHeap]
  show wp _ _ _ (CopyState.mk (s.heap.extend placeholder) s.forwarding)
  rw [wp_bind]
  show wp _ _ _ (CopyState.mk (s.heap.extend placeholder)
    (Function.update s.forwarding sp (some s.heap.next)))
  rw [wp_bind]
  have hdp := hinv.next_le
  have hfresh := hinv.next_fresh
  have hterms := Heap.hide_extend_insert s.heap placeholder hidden
  refine (hparts s.heap.next _ hdp ((hinv.reserve placeholder).mark sp s.heap.next)).imp ?_
  rintro x s₂ ⟨hinv₂, hm, hshows⟩
  have hlt : s.heap.next < s₂.heap.next := Nat.lt_of_lt_of_le (Nat.lt_succ_self _) hm.keeps.next_le
  rw [wp_bind, wp_onHeap]
  refine Heap.wp_write hlt ?_
  -- the finished copy comes into view
  have hkeeps₂ := Heap.keeps_hide_replace (object x) hlt hfresh
  have hmem : ((s₂.heap.replace s.heap.next (object x) hlt).hide hidden).terms.memory s.heap.next
      = some (object x) := by
    rw [Heap.hide_replace_memory hlt hfresh, Function.update_self]
  have hpub := (hshows _ hkeeps₂.grows hmem).pub (Nat.ne_of_gt (h₀.next_pos.trans_le hdp))
  have hkeeps₁ : (s.heap.hide hidden).Keeps (s₂.heap.hide (insert s.heap.next hidden)) ∅ := by
    have hk := hm.keeps
    refine ⟨?_, (Nat.le_succ _).trans hk.next_le, fun a ha hout => ?_, fun a ha => ?_⟩
    · rw [← hterms]
      exact hk.grows
    · rw [← hterms]
      exact hk.memory a (Nat.lt_succ_of_lt ha) hout
    · exact hk.capacity a (Nat.lt_succ_of_lt ha)
  have hfwd : s₂.forwarding sp = some s.heap.next :=
    (hm.forwarding sp (Set.mem_insert _ _)).trans (Function.update_self ..)
  refine ⟨?_, ⟨hkeeps₁.trans_fresh hkeeps₂ le_rfl, fun sp' hsp' => ?_⟩, hpub⟩
  · refine Inv.finish s.heap.next hsp hinv₂ hkeeps₂.grows (hinv₂.keeps.trans_fresh hkeeps₂ hdp) ?_
      (fun a ha => ⟨hinv.hidden_ge a ha, ?_⟩) (fun _ _ => rfl) hfwd hsrc hpub
    · exact hinv₂.ok.update hkeeps₂.grows (Heap.hide_replace_memory hlt hfresh) (hfits _ x)
    · exact (hinv.hidden_lt a ha).trans hlt
  · have hne : sp' ≠ sp := fun he => hbusy (he ▸ hsp')
    rw [hm.forwarding sp' (Set.mem_insert_of_mem _ hsp')]
    exact Function.update_of_ne hne ..

theorem copies_copyList {head : AnyValue} {tail : Addr} {t : Term} {ts : List Term}
    (hsp : sp ≠ 0) (hbusy : sp ∉ busy) (hmem : h₀.terms.memory sp = some (.cons head tail))
    (hhead : h₀.Pub head t) (htail : h₀.Pub (.heapRef .list tail) (.node .list ts))
    (hself : ∀ dp, Copies h₀ (insert dp hidden) (insert sp busy) (self head) t)
    (hrest : ∀ dp, Copies h₀ (insert dp hidden) (insert sp busy) (self (.heapRef .list tail))
      (.node .list ts)) :
    Copies h₀ hidden busy (copyList self sp head tail) (.node .list (t :: ts)) := by
  have hsrc : h₀.Pub (.heapRef .list sp) (.node .list (t :: ts)) :=
    (Heap.Shows.cons hmem hhead htail).pub hsp
  have heq : copyList self sp head tail = (do
      let dp ← onHeap (Heap.alloc (.cons (.atom 0) 0))
      forward sp dp
      let x ← copyChild self head >>= fun newHead =>
        copyTail self tail >>= fun newTail => pure (newHead, newTail)
      onHeap (Heap.write dp (.cons x.1 x.2.addr))
      return .heapRef .list dp) := by
    simp only [copyList, bind_assoc, pure_bind]
  rw [heq]
  refine copies_reserved hsp hbusy hsrc _ (fun x : AnyValue × AnyValue => .cons x.1 x.2.addr)
    (fun _ _ => trivial) fun dp s _ hinv => ?_
  rw [wp_bind]
  refine (copies_copyChild hhead (hself dp) s hinv).imp ?_
  rintro newHead s₁ ⟨hinv₁, hm₁, hnewHead⟩
  -- the last cell of a list has no tail to copy
  have hcopyTail : wp (copyTail self tail)
      (fun w s' => Inv h₀ (insert dp hidden) (insert sp busy) s' ∧
        Moves (insert dp hidden) (insert sp busy) s₁ s' ∧
        (s'.heap.hide (insert dp hidden)).Pub w (.node .list ts)) (fun _ => False) s₁ := by
    rw [copyTail]
    split
    · rename_i hzero
      subst hzero
      have hnil : h₀.Pub .emptyList (.node .list []) := ⟨1, rfl⟩
      have hts : Rose.node Label.list ts = .node .list [] := htail.unique ⟨1, rfl⟩
      rw [hts]
      exact ⟨hinv₁, .refl s₁, hinv₁.keeps.grows.published hnil⟩
    · exact hrest dp s₁ hinv₁
  rw [wp_bind]
  refine hcopyTail.imp ?_
  rintro newTail s₂ ⟨hinv₂, hm₂, hnewTail⟩
  refine ⟨hinv₂, hm₁.trans hm₂, fun h hg hdp => ?_⟩
  exact .cons hdp (hg.published (hm₂.keeps.grows.published hnewHead))
    (hg.published (Heap.pub_list_addr hnewTail))

theorem copies_copyClosure {id : Nat} {captures : List AnyValue}
    {d : FunctionDenotation} {ts : List Term} (hsp : sp ≠ 0) (hbusy : sp ∉ busy)
    (hmem : h₀.terms.memory sp = some (.closure id captures))
    (hd : h₀.terms.node.closureDenotations id = some d) (hts : List.Forall₂ h₀.Pub captures ts)
    (hself : ∀ dp x t, x ∈ captures → t ∈ ts → h₀.Pub x t →
      Copies h₀ (insert dp hidden) (insert sp busy) (self x) t) :
    Copies h₀ hidden busy (copyClosure self sp id captures)
      (.node (.closure d captures.length) ts) := by
  have hsrc := (Heap.Shows.closure hmem hd hts).pub hsp
  refine copies_reserved hsp hbusy hsrc _ (.closure id ·) (fun _ _ => trivial)
    fun dp s _ hinv => ?_
  refine (wp_copyWords hts (hself dp) hinv).imp ?_
  rintro ys s' ⟨hinv', hm, hys⟩
  refine ⟨hinv', hm, fun h hg hdp => ?_⟩
  have hlen : captures.length = ys.length := hts.length_eq.trans hys.length_eq.symm
  rw [hlen]
  refine .closure hdp ?_ (hys.imp fun _ _ hy => hg.published hy)
  rw [hg.node, hinv'.keeps.grows.node]
  exact hd

/-- What a slot and its copy have in common. -/
def SlotCopied (h₀ : Heap) (x y : FieldSlot) (h : Heap) : Prop :=
  match x, y with
  | .value v, .value v' => ∀ t, h₀.Pub v t → h.Pub v' t
  | .value _, _ => False
  | x, y => x = y

theorem SlotCopied.mono {x y : FieldSlot} {h h' : Heap} (hg : h.terms.Grows h'.terms)
    (hxy : SlotCopied h₀ x y h) : SlotCopied h₀ x y h' := by
  cases x with
  | value v =>
    cases y with
    | value v' => exact fun t ht => hg.published (hxy t ht)
    | rawI64 | rawF64 | rawBytes => exact hxy
  | rawI64 | rawF64 | rawBytes => exact hxy

theorem value_of_slotTerms {read : AnyValue → Option Term} : ∀ {ks : List FieldKind}
    {ss : List FieldSlot} {ts : List Term}, slotTerms? read ks ss = some ts →
    ∀ {v}, FieldSlot.value v ∈ ss → ∃ t ∈ ts, read v = some t
  | [], [], _, _, _, hv => by cases hv
  | [], _ :: _, _, h, _, _ => by cases h
  | _ :: _, [], _, h, _, _ => by cases h
  | k :: ks, s :: ss, _, h, v, hv => by
    simp only [slotTerms?, Option.bind_eq_bind, Option.bind_eq_some_iff] at h
    obtain ⟨t, ht, ts', hts', heq⟩ := h
    obtain rfl := Option.some.inj heq
    rcases List.mem_cons.mp hv with rfl | hv
    · cases k with
      | anyValue => exact ⟨t, List.mem_cons_self, ht⟩
      | rawI64 | rawF64 | rawBytes => cases ht
    · obtain ⟨u, hu, hread⟩ := value_of_slotTerms hts' hv
      exact ⟨u, List.mem_cons_of_mem _ hu, hread⟩

theorem slotTerms_of_copied {h : Heap} {n : Nat} : ∀ {ks : List FieldKind}
    {ss ss' : List FieldSlot} {ts : List Term}, slotTerms? (h₀.terms.term? n) ks ss = some ts →
    List.Forall₂ (fun x y => SlotCopied h₀ x y h) ss ss' →
    ∃ m, ∀ l ≥ m, slotTerms? (h.terms.term? l) ks ss' = some ts
  | [], [], _, _, h, hc => by
    cases hc
    exact ⟨0, fun _ _ => h⟩
  | [], _ :: _, _, _, h, _ => by cases h
  | _ :: _, [], _, _, h, _ => by cases h
  | k :: ks, x :: ss, _, _, h, hc => by
    simp only [slotTerms?, Option.bind_eq_bind, Option.bind_eq_some_iff] at h
    obtain ⟨t, ht, ts', hts', heq⟩ := h
    obtain rfl := Option.some.inj heq
    cases hc with
    | @cons _ y _ ss' hxy hc =>
      obtain ⟨m, hm⟩ := slotTerms_of_copied hts' hc
      -- a raw slot is the same, a value slot denotes the same term
      obtain ⟨m', hm'⟩ : ∃ m', ∀ l ≥ m', slotTerm? (h.terms.term? l) k y = some t := by
        cases x with
        | value v =>
          cases y with
          | value v' =>
            cases k with
            | anyValue =>
              obtain ⟨m', hm'⟩ := hxy t ⟨n, ht⟩
              exact ⟨m', fun l hl => term?_mono hl hm'⟩
            | rawI64 | rawF64 | rawBytes => cases ht
          | rawI64 | rawF64 | rawBytes => exact hxy.elim
        | rawI64 | rawF64 | rawBytes =>
          obtain rfl := hxy
          exact ⟨0, fun _ _ => by cases k <;> exact ht⟩
      refine ⟨max m m', fun l hl => ?_⟩
      simp only [slotTerms?, Option.bind_eq_bind, Option.bind_eq_some_iff]
      exact ⟨t, hm' l (by omega), ts', hm l (by omega), rfl⟩

theorem copies_copyStruct {id : Nat} {slots : List FieldSlot} {schema : Schema}
    {ts : List Term} {n : Nat} (hsp : sp ≠ 0) (hbusy : sp ∉ busy)
    (hmem : h₀.terms.memory sp = some (.struct id slots))
    (hschema : h₀.terms.schemas.get? id = some schema) (hid : ∀ s, schema.identity ≠ .internal s)
    (hts : slotTerms? (h₀.terms.term? n) schema.fields slots = some ts)
    (hself : ∀ dp x t, t ∈ ts → h₀.Pub x t →
      Copies h₀ (insert dp hidden) (insert sp busy) (self x) t) :
    Copies h₀ hidden busy (copyStruct self sp id slots) (.node (.struct schema.identity) ts) := by
  have hsrc := (Heap.Shows.struct hmem hschema hid hts).pub hsp
  refine copies_reserved hsp hbusy hsrc _ (.struct id ·) (fun _ _ => trivial)
    fun dp s _ hinv => ?_
  have hparts := wp_copyParts (f := copySlot self) (P := SlotCopied h₀) SlotCopied.mono slots
    (fun x hx s hinv => by
      cases x with
      | value v =>
        obtain ⟨t, htmem, ht⟩ := value_of_slotTerms hts hx
        have hv : h₀.Pub v t := ⟨n, ht⟩
        rw [copySlot, wp_bind]
        refine (copies_copyChild hv (hself dp v t htmem hv) s hinv).imp ?_
        rintro y s' ⟨hinv', hm, hy⟩
        refine ⟨hinv', hm, fun t' ht' => ?_⟩
        rw [ht'.unique hv]
        exact hy
      | rawI64 | rawF64 | rawBytes => exact ⟨hinv, .refl s, rfl⟩) hinv
  refine hparts.imp ?_
  rintro ys s' ⟨hinv', hm, hys⟩
  refine ⟨hinv', hm, fun h hg hdp => ?_⟩
  obtain ⟨m, hm'⟩ := slotTerms_of_copied hts (hys.imp fun _ _ hy => SlotCopied.mono hg hy)
  refine .struct hdp ?_ hid (hm' m le_rfl)
  rw [hg.schemas, hinv'.keeps.grows.schemas]
  exact hschema

theorem Inv.place {t : Term} {o : Object} (hsp : sp ≠ 0)
    (hinv : Inv h₀ hidden (insert sp busy) s) (hsrc : h₀.Pub (.heapRef kind sp) t)
    (hfits : (s.heap.hide hidden).Fits o)
    (hshows : ((s.heap.hide hidden).extend o).Shows s.heap.next kind t) :
    Inv h₀ hidden busy ⟨s.heap.extend o, Function.update s.forwarding sp (some s.heap.next)⟩ ∧
      (s.heap.hide hidden).Keeps ((s.heap.extend o).hide hidden) ∅ ∧
      ((s.heap.extend o).hide hidden).Pub (.heapRef kind s.heap.next) t := by
  have hhide := Heap.hide_extend (o := o) hinv.next_fresh
  have hkeeps := (s.heap.hide hidden).keeps_extend o
  have hpub := hshows.pub (Nat.ne_of_gt s.heap.next_pos)
  rw [hhide]
  refine ⟨Inv.finish s.heap.next hsp hinv ?_ ?_ ?_ (fun a ha => ?_) (fun sp' hne => ?_) ?_
    hsrc ?_, hkeeps, hpub⟩
  · rw [hhide]
    exact hkeeps.grows
  · rw [hhide]
    exact hinv.keeps.trans hkeeps
  · rw [hhide]
    exact hinv.ok.extend hfits
  · exact ⟨hinv.hidden_ge a ha, Nat.lt_succ_of_lt (hinv.hidden_lt a ha)⟩
  · exact Function.update_of_ne hne ..
  · exact Function.update_self ..
  · rw [hhide]
    exact hpub

theorem Inv.widen (hinv : Inv h₀ hidden busy s) (sp : Addr) : Inv h₀ hidden (insert sp busy) s where
  keeps := hinv.keeps
  ok := hinv.ok
  hidden_ge := hinv.hidden_ge
  hidden_lt := hinv.hidden_lt
  copied sp' dp hfwd hout kind t ht :=
    hinv.copied sp' dp hfwd (fun hb => hout (Set.mem_insert_of_mem _ hb)) kind t ht

theorem copies_copyLeaf {t : Term} {o : Object} (hsp : sp ≠ 0)
    (hbusy : sp ∉ busy) (hsrc : h₀.Pub (.heapRef kind sp) t) (hfits : ∀ h : Heap, h.Fits o)
    (hshows : ∀ h : Heap, ∀ a, h.terms.memory a = some o → h.Shows a kind t) :
    Copies h₀ hidden busy (copyLeaf kind sp o) t := by
  intro s hinv
  obtain ⟨hinv', hkeeps, hpub⟩ := (hinv.widen sp).place hsp hsrc (hfits _)
    (hshows _ _ (Heap.extend_memory ..))
  refine ⟨hinv', ⟨hkeeps, fun sp' hsp' => ?_⟩, hpub⟩
  have hne : sp' ≠ sp := fun he => hbusy (he ▸ hsp')
  exact Function.update_of_ne hne ..

theorem copyBitstring_eq (sp : Addr) {p : BitPayload} (hp : p.bytes.length ≤ 64) :
    copyBitstring sp p = copyLeaf .bitstring sp (.bitstring p) := by
  have hpayload : payloadOf p.bytes p.bitLen = p := by
    obtain ⟨bitLen, bytes, hlen⟩ := p
    simp only [payloadOf, BitPayload.mk.injEq, true_and]
    rw [← hlen, List.takeD_eq_take 0 le_rfl, List.take_length]
  have halloc : allocBitstring p.bytes p.bitLen = .inline p := by
    rw [allocBitstring, if_neg (show ¬p.bytes.length > sharedBinThresholdBytes from
      Nat.not_lt.mpr hp), hpayload]
  rw [copyBitstring, halloc]
  rfl

theorem hide_grows (h : Heap) (hidden : Set Addr) : (h.hide hidden).terms.Grows h.terms where
  node := rfl
  schemas := rfl
  memory a o ho _ := by
    by_cases ha : a ∈ hidden
    · rw [Heap.hide_memory_of_mem ha] at ho
      exact nomatch ho
    · rwa [Heap.hide_memory ha] at ho

theorem copies_copyMap {es : List (AnyValue × AnyValue)} {ds : List (Term × Term)}
    (hsp : sp ≠ 0) (hbusy : sp ∉ busy) (hmem : h₀.terms.memory sp = some (.map false es))
    (hes : h₀.EntriesOf es ds) (hds : Increasing Term.cmp ds)
    (hself : ∀ d ∈ ds, ∀ x, (h₀.Pub x d.1 → Copies h₀ hidden (insert sp busy) (self x) d.1) ∧
      (h₀.Pub x d.2 → Copies h₀ hidden (insert sp busy) (self x) d.2)) :
    Copies h₀ hidden busy (copyMap self sp es)
      (.node (.map es.length) (ds.map Prod.fst ++ ds.map Prod.snd)) := by
  have hsrc := (Heap.Shows.map hmem hes).pub hsp
  intro s hinv
  rw [copyMap, wp_bind]
  show wp _ _ _ (CopyState.mk s.heap (Function.update s.forwarding sp (some 0)))
  rw [wp_bind]
  have hparts := wp_copyParts (f := fun e : AnyValue × AnyValue => do
      let key ← copyChild self e.1
      let value ← copyChild self e.2
      return (key, value))
    (P := fun e e' h => ∀ d, EntryOf h₀.Pub h₀.Pub e d → EntryOf h.Pub h.Pub e' d)
    (fun hg hp d hd => ⟨hg.published (hp d hd).1, hg.published (hp d hd).2⟩) es
    (fun e he s hinv => by
      obtain ⟨d, hdmem, hd⟩ := exists_of_forall₂_left hes he
      rw [wp_bind]
      refine (copies_copyChild hd.1 ((hself d hdmem e.1).1 hd.1) s hinv).imp ?_
      rintro key s₁ ⟨hinv₁, hm₁, hkey⟩
      rw [wp_bind]
      refine (copies_copyChild hd.2 ((hself d hdmem e.2).2 hd.2) s₁ hinv₁).imp ?_
      rintro value s₂ ⟨hinv₂, hm₂, hvalue⟩
      refine ⟨hinv₂, hm₁.trans hm₂, fun d' hd' => ?_⟩
      obtain ⟨k', v'⟩ := d'
      obtain rfl : k' = d.1 := hd'.1.unique hd.1
      obtain rfl : v' = d.2 := hd'.2.unique hd.2
      exact ⟨hm₂.keeps.grows.published hkey, hvalue⟩) (hinv.mark sp 0)
  refine hparts.imp ?_
  rintro copied s₂ ⟨hinv₂, hm, hcopied⟩
  have hcopies : (s₂.heap.hide hidden).EntriesOf copied ds := by
    clear hself hmem hds hsrc hparts
    induction hcopied generalizing ds with
    | nil =>
      cases hes
      exact .nil
    | cons he _ ih =>
      cases hes with
      | cons hd hes => exact .cons (he _ hd) (ih hes)
  have hlen : es.length = copied.length := hcopied.length_eq
  rw [wp_bind, wp_onHeap, Heap.allocOrderedMapEntries, wp_bind]
  refine (Heap.wp_checkKeys (hcopies.mono (hide_grows s₂.heap hidden))).imp ?_
  rintro - h rfl
  obtain ⟨hinv', hkeeps, hpub⟩ := hinv₂.place (o := .map false copied) hsp hsrc
    ⟨ds, hcopies, hds⟩ (by
      rw [hlen]
      exact .map (Heap.extend_memory ..) (hcopies.mono ((s₂.heap.hide hidden).grows_extend _)))
  refine ⟨hinv', ⟨hm.keeps.trans hkeeps, fun sp' hsp' => ?_⟩, hpub⟩
  have hne : sp' ≠ sp := fun he => hbusy (he ▸ hsp')
  have hbefore : s₂.forwarding sp' = s.forwarding sp' :=
    (hm.forwarding sp' (Set.mem_insert_of_mem _ hsp')).trans (Function.update_of_ne hne ..)
  exact (Function.update_of_ne hne ..).trans hbefore

/-! ## The whole copy -/

theorem sizeOf_child {k : Label} {ts : List Term} {t : Term} (ht : t ∈ ts) :
    sizeOf t < sizeOf (Rose.node k ts) := by
  have hlt := List.sizeOf_lt_of_mem ht
  rw [Rose.node.sizeOf_spec]
  omega

theorem Inside.child {t u : Term} (hsp : sp ≠ 0)
    (hsrc : h₀.Pub (.heapRef kind sp) t) (hin : Inside h₀ busy t) (hlt : sizeOf u < sizeOf t) :
    Inside h₀ (insert sp busy) u := by
  intro sp' hsp' kind' u' hu'
  rcases Set.mem_insert_iff.mp hsp' with rfl | hsp'
  · obtain ⟨-, rfl⟩ := Heap.pub_unique hsp hsrc hu'
    exact hlt
  · exact hlt.trans (hin sp' hsp' kind' u' hu')

/-- A copy denotes the term of its source. -/
theorem copies_deepCopyAnyValue (hok : h₀.Ok) (inSource : Addr → Bool) (n : Nat) :
    ∀ {hidden busy : Set Addr} {src : AnyValue} {t : Term}, h₀.Pub src t → sizeOf t ≤ n →
      Inside h₀ busy t → Copies h₀ hidden busy (deepCopyAnyValue inSource n src) t := by
  induction n with
  | zero =>
    intro hidden busy src t _ hn
    obtain ⟨k, ts⟩ := t
    rw [Rose.node.sizeOf_spec] at hn
    omega
  | succ n ih =>
    intro hidden busy src t hsrc hn hin s hinv
    -- a word that is kept is published where its source was
    have hkeep : Inv h₀ hidden busy s ∧ Moves hidden busy s s ∧
        (s.heap.hide hidden).Pub src t := ⟨hinv, .refl s, hinv.keeps.grows.published hsrc⟩
    cases src with
    | null | emptyList | int | float | atom => exact hkeep
    | heapRef kind sp =>
      rw [deepCopyAnyValue]
      split
      · exact hkeep
      rename_i hcopy
      have hsp : sp ≠ 0 := fun h => hcopy (.inl h)
      have hbusy : sp ∉ busy := fun hb => Nat.lt_irrefl _ (hin sp hb kind t hsrc)
      have hshows := Heap.shows_of_pub hsp hsrc
      rw [wp_bind, wp_get]
      cases hfwd : s.forwarding sp with
      | some dp => exact ⟨hinv, .refl s, hinv.copied sp dp hfwd hbusy kind t hsrc⟩
      | none =>
        have hmem : s.heap.terms.memory sp = h₀.terms.memory sp := by
          obtain ⟨o, ho, -⟩ := hshows.memory
          exact hinv.memory (Heap.lt_next_of_memory ho)
        -- the parts are smaller, so that copying them does not come back here
        have hparts : ∀ {hidden' : Set Addr} {x : AnyValue} {u : Term}, h₀.Pub x u →
            sizeOf u < sizeOf t →
            Copies h₀ hidden' (insert sp busy) (deepCopyAnyValue inSource n x) u :=
          fun hu hlt => ih hu (by omega) (hin.child hsp hsrc hlt)
        cases hshows with
        | @cons head tail t ts hsrcMem hhead htail =>
          simp only [hmem, hsrcMem]
          have hlt :
              sizeOf (Rose.node Label.list ts) < sizeOf (Rose.node Label.list (t :: ts)) := by
            rw [Rose.node.sizeOf_spec, Rose.node.sizeOf_spec, List.cons.sizeOf_spec]
            omega
          exact copies_copyList hsp hbusy hsrcMem hhead htail
            (fun _ => hparts hhead (sizeOf_child List.mem_cons_self))
            (fun _ => hparts htail hlt) s hinv
        | @map es ds hsrcMem hes =>
          simp only [hmem, hsrcMem]
          obtain ⟨ds', hes', hds⟩ := hok.maps sp es hsrcMem
          have hsame : ds' = ds := by
            clear hparts hmem hsrcMem hds hsrc hn hin hkeep
            induction hes generalizing ds' with
            | nil =>
              cases hes'
              rfl
            | cons he _ ih =>
              cases hes' with
              | cons he' hes' =>
                rw [Prod.ext (he'.1.unique he.1) (he'.2.unique he.2), ih _ hes']
          rw [hsame] at hds
          refine copies_copyMap hsp hbusy hsrcMem hes hds
            (fun d hd x => ⟨fun hx => ?_, fun hx => ?_⟩)
            s hinv
          · exact hparts hx (sizeOf_child (List.mem_append_left _ (List.mem_map_of_mem hd)))
          · exact hparts hx (sizeOf_child (List.mem_append_right _ (List.mem_map_of_mem hd)))
        | struct hsrcMem hschema hid hts =>
          simp only [hmem, hsrcMem]
          exact copies_copyStruct hsp hbusy hsrcMem hschema hid hts
            (fun _ _ _ hu hx => hparts hx (sizeOf_child hu)) s hinv
        | closure hsrcMem hd hts =>
          simp only [hmem, hsrcMem]
          exact copies_copyClosure hsp hbusy hsrcMem hd hts
            (fun _ _ _ _ hu hx => hparts hx (sizeOf_child hu)) s hinv
        | @resource id hsrcMem =>
          simp only [hmem, hsrcMem]
          exact copies_copyLeaf (o := .resource id) hsp hbusy hsrc (fun _ => trivial)
            (fun _ _ ho => .resource ho) s hinv
        | @bitstring p hsrcMem =>
          simp only [hmem, hsrcMem]
          have hinline := hok.inline sp _ hsrcMem
          rw [copyBitstring_eq sp hinline]
          exact copies_copyLeaf (o := .bitstring p) hsp hbusy hsrc (fun _ => hinline)
            (fun _ _ ho => .bitstring ho) s hinv
        | @procbin stub hsrcMem =>
          simp only [hmem, hsrcMem]
          exact copies_copyLeaf (o := .procbin stub) hsp hbusy hsrc (fun _ => trivial)
            (fun _ _ ho => .procbin ho) s hinv

end Copy

theorem Heap.yields_deepCopy {h : Heap} (hok : h.Ok) (inSource : Addr → Bool) {src : AnyValue}
    {t : Term} (hsrc : h.Pub src t) : ∃ n, ∀ i ≥ n,
    Yields (deepCopy inSource i src) h ∅ fun w h' => h'.Pub w t := by
  refine ⟨sizeOf t, fun i hi => ?_⟩
  have hinv : Copy.Inv h ∅ ∅ ⟨h, fun _ => none⟩ := by
    refine ⟨?_, ?_, fun a ha => ha.elim, fun a ha => ha.elim, fun _ _ hf => nomatch hf⟩
    · show h.Keeps (h.hide ∅) ∅
      rw [hide_empty]
      exact .refl _ _
    · show (h.hide ∅).Ok
      rw [hide_empty]
      exact hok
  have hinside : Copy.Inside h ∅ t := fun sp hsp => hsp.elim
  have hrun := Copy.copies_deepCopyAnyValue hok inSource i hsrc hi hinside _ hinv
  obtain ⟨w, s, heq, hinv', -, hw⟩ := hrun.exists_ok
  unfold Yields wp
  rw [deepCopy, heq]
  have hkeeps := hinv'.keeps
  have hok' := hinv'.ok
  rw [hide_empty] at hkeeps hok' hw
  exact ⟨hkeeps, hok', hw⟩

end Fz.Terms
