import Fz.Gc.Preserve

/-!
# Collection at a park

After a quantum a process may be parked on a receive.  If a collection is due, the closures of the
park record, the closure to resume with and the mailbox are gathered as roots, and what they became
is written back by index.  The values pinned by the receive are not among the roots.

What is gathered keeps its meaning (`gc_finished`).  A pinned value keeps its own exactly when the
collection did not move or free it: it lies off the heap, or it is an object in a fragment that a
root reaches anyway (`parkTimeGc_keeps_iff`).
-/

namespace Fz.Gc

open Fz.Base
open Fz.Terms (ValueKind AnyValue)

/-! ## The park record -/

/-- The part of a park record that refers to the heap.  Closures are addresses, and `0` is none. -/
structure ParkRecord where
  pinned : List AnyValueRef
  clauseBodies : List Nat
  afterCont : Nat

structure Process where
  heap : Heap
  mailbox : List AnyValueRef
  wait : Option ParkRecord
  runnable : Nat

def heapKindFromTagged (bits : Nat) : Option ValueKind :=
  match bits % 16 with
  | 1 => some .list
  | 2 => some .map
  | 3 => some .struct
  | 4 => some .closure
  | 5 => some .bitstring
  | 6 => some .procbin
  | 7 => some .resource
  | _ => none

def decodeTaggedHeapBits (bits : Nat) : Option AnyValue :=
  match heapKindFromTagged bits with
  | none => none
  | some kind =>
    if kind = .list ∧ bits / 16 * 16 = 0 then some .emptyList
    else some (.heapRef kind (bits / 16 * 16))

def closureRoot (ptr : Nat) : AnyValue :=
  if ptr = 0 then .null
  else
    match decodeTaggedHeapBits ptr with
    | some value => value
    | none => .heapRef .closure ptr

/-- Only a heap reference has an address. -/
def closureBits : AnyValue → Except GcStop Nat
  | .null => .ok 0
  | .heapRef _ p => .ok p
  | _ => .error .broken

def pushClosureRoot (roots : List AnyValue) (ptr : Nat) : Option Nat × List AnyValue :=
  if ptr = 0 then (none, roots) else (some roots.length, roots ++ [closureRoot ptr])

def closureBitsAt (roots : List AnyValue) (index : Nat) : Except GcStop Nat :=
  match roots[index]? with
  | some value => closureBits value
  | none => .error .broken

/-- Write the roots back over the clause bodies, in order. -/
def writeBodies (roots : List AnyValue) : Nat → List Nat → Except GcStop (List Nat)
  | _, [] => return []
  | index, _ :: bodies => do
    let body ← closureBitsAt roots index
    let bodies ← writeBodies roots (index + 1) bodies
    return body :: bodies

namespace Process

/-- The closures of the park record. -/
def parkedRoots (p : Process) : List AnyValue :=
  match p.wait with
  | some park => park.clauseBodies.map closureRoot ++ [closureRoot park.afterCont]
  | none => []

/-- What the collection at a park traces. -/
def gcRoots (p : Process) : Roots :=
  ⟨.null, (pushClosureRoot p.parkedRoots p.runnable).2, p.mailbox⟩

def writeWait (roots : List AnyValue) : Option ParkRecord → Except GcStop (Option ParkRecord)
  | none => return none
  | some park => do
    let clauseBodies ← writeBodies roots 0 park.clauseBodies
    let afterCont ← closureBitsAt roots park.clauseBodies.length
    return some { park with clauseBodies, afterCont }

def writeRunnable (roots : List AnyValue) (runnable : Nat) : Option Nat → Except GcStop Nat
  | some index => closureBitsAt roots index
  | none => return runnable

def parkTimeGc (toStart : Nat) (p : Process) : Except GcStop Process := do
  if !p.heap.pressure then return p
  else
    let runnableIdx := (pushClosureRoot p.parkedRoots p.runnable).1
    let (heap, roots) ← p.heap.gc toStart p.gcRoots
    let wait ← writeWait roots.values p.wait
    let runnable ← writeRunnable roots.values p.runnable runnableIdx
    return ⟨{ heap with pressure := false }, roots.refs, wait, runnable⟩

/-- Everything a parked process refers to, the pinned values included. -/
def record (p : Process) : Roots :=
  { p.gcRoots with
    refs := p.mailbox ++ (match p.wait with | some park => park.pinned | none => []) }

/-- Closures are stored as bare addresses. -/
def Aligned (p : Process) : Prop :=
  16 ∣ p.runnable ∧ ∀ park, p.wait = some park →
    16 ∣ park.afterCont ∧ ∀ body ∈ park.clauseBodies, 16 ∣ body

end Process

/-! ## What a park has to keep -/

/-- A place of the new heap that holds an object, or one off the heap, before and after. -/
def InHeap (h h' : Heap) (d : Nat) : Prop :=
  h'.memory d ≠ none ∨ (h.isActive d = false ∧ h'.isActive d = false)

/-- A value denotes what it denoted, and points into the heap. -/
def KeptValue (h h' : Heap) (v v' : AnyValue) : Prop :=
  (∀ depth, h'.unfold depth v' = h.unfold depth v) ∧ ∀ kind d, v' = .heapRef kind d → InHeap h h' d

def KeptRef (h h' : Heap) (r r' : AnyValueRef) : Prop :=
  (∀ depth, h'.unfoldRef depth r' = h.unfoldRef depth r) ∧
    ∀ kind d, r' = .heap kind d ∨ r' = .scalar kind d → InHeap h h' d

/-- The whole park record, the mailbox and the runnable closure are kept. -/
structure ParkKept (p p' : Process) (park park' : ParkRecord) : Prop where
  bodies : List.Forall₂ (KeptValue p.heap p'.heap) (park.clauseBodies.map closureRoot)
    (park'.clauseBodies.map closureRoot)
  afterCont : KeptValue p.heap p'.heap (closureRoot park.afterCont) (closureRoot park'.afterCont)
  pinned : List.Forall₂ (KeptRef p.heap p'.heap) park.pinned park'.pinned
  mailbox : List.Forall₂ (KeptRef p.heap p'.heap) p.mailbox p'.mailbox
  runnable : KeptValue p.heap p'.heap (closureRoot p.runnable) (closureRoot p'.runnable)

/-- A value that a collection neither moves nor frees: it is off the heap, or an object in a
fragment that the roots reach. -/
def Heap.Survives (h : Heap) (roots : Roots) : AnyValueRef → Prop
  | .heap _ p => h.isActive p → h.inFragment p ∧ ∃ kind, Live h roots kind p
  | .scalar _ slot => h.isActive slot = false
  | .null | .emptyList => True

/-! ## More roots reach more -/

section Mono

variable {h : Heap} {roots roots' : Roots} (hrefs : roots.refs ⊆ roots'.refs)
  (hprimary : roots.primary = roots'.primary) (hvalues : roots.values = roots'.values)

include hrefs hprimary hvalues

theorem Live.mono {kind : ValueKind} {p : Nat} (hlive : Live h roots kind p) :
    Live h roots' kind p := by
  induction hlive with
  | primary hr ha => exact .primary (hprimary ▸ hr) ha
  | value hr ha => exact .value (hvalues ▸ hr) ha
  | ref hr ha => exact .ref (hrefs hr) ha
  | step _ hmem hval ha ih => exact .step ih hmem hval ha

theorem Reached.mono {v : AnyValue} (hr : Reached h roots v) : Reached h roots' v := by
  induction hr with
  | primary => exact hprimary ▸ .primary
  | value hmem => exact .value (hvalues ▸ hmem)
  | ref hmem => exact .ref (hrefs hmem)
  | step _ hmem hval ih => exact .step ih hmem hval

theorem Heap.WellFormed.anti (hwf : h.WellFormed roots') : h.WellFormed roots where
  typed := fun kind p hlive => hwf.typed kind p (hlive.mono hrefs hprimary hvalues)
  boxes := fun kind slot hr => hwf.boxes kind slot (hrefs hr)
  chain := hwf.chain

theorem Heap.OffHeap.anti {start size : Nat} (hoff : h.OffHeap roots' start size) :
    h.OffHeap roots start size := fun kind p hr =>
  hoff kind p (hr.imp (Reached.mono hrefs hprimary hvalues) fun hr => hrefs hr)

end Mono

theorem Live.reached {h : Heap} {roots : Roots} {kind : ValueKind} {p : Nat}
    (hlive : Live h roots kind p) : Reached h roots (.heapRef kind p) := by
  induction hlive with
  | primary hr => exact hr ▸ .primary
  | value hr => exact .value hr
  | ref hr => exact .ref hr
  | step _ hmem hval _ ih => exact .step ih hmem hval

theorem Process.gcRoots_refs_subset (p : Process) : p.gcRoots.refs ⊆ p.record.refs :=
  List.subset_append_left _ _

/-! ## Closures -/

theorem closureRoot_of_dvd {ptr : Nat} (hpos : ptr ≠ 0) (hdvd : 16 ∣ ptr) :
    closureRoot ptr = .heapRef .closure ptr := by
  have hkind : heapKindFromTagged ptr = none := by
    rw [heapKindFromTagged, Nat.mod_eq_zero_of_dvd hdvd]
    rfl
  rw [closureRoot, if_neg hpos, decodeTaggedHeapBits, hkind]

theorem unfold_congr {h h' : Heap} (hmem : h'.memory = h.memory) (depth : Nat) (v : AnyValue) :
    h'.unfold depth v = h.unfold depth v := by
  induction depth generalizing v with
  | zero => rfl
  | succ depth ih =>
    cases v with
    | heapRef kind p =>
      rw [Heap.unfold, Heap.unfold, hmem]
      cases h.memory p with
      | none => rfl
      | some o => simp only [funext ih]
    | null | emptyList | int | float | atom => rfl

theorem unfoldRef_congr {h h' : Heap} (hmem : h'.memory = h.memory) (depth : Nat)
    (r : AnyValueRef) : h'.unfoldRef depth r = h.unfoldRef depth r := by
  cases r with
  | heap kind p => exact unfold_congr hmem depth _
  | scalar kind slot => rw [Heap.unfoldRef, Heap.unfoldRef, hmem]
  | null | emptyList => rfl

namespace Finished

variable {h : Heap} {toStart n i : Nat} {roots roots' : Roots} {s : GcState} {sweep : MsoSweep}

/-- The heap a park leaves behind. -/
def cleared (h : Heap) (toStart : Nat) (s : GcState) (sweep : MsoSweep) : Heap :=
  { h.install toStart s sweep with pressure := false }

theorem cleared_memory : (cleared h toStart s sweep).memory = (h.install toStart s sweep).memory :=
  rfl

theorem closure (F : Finished h toStart roots roots' n i s sweep) {ptr : Nat} (hdvd : 16 ∣ ptr)
    {v : AnyValue} (hv : ValueAlong h (Image h s) (closureRoot ptr) v) :
    ∃ ptr', closureBits v = .ok ptr' ∧ closureRoot ptr' = v := by
  by_cases hpos : ptr = 0
  · subst hpos
    rw [show v = .null from hv]
    exact ⟨0, rfl, rfl⟩
  · rw [closureRoot_of_dvd hpos hdvd] at hv
    cases ha : h.isActive ptr with
    | false =>
      cases hv.eq_of_not_active ha
      exact ⟨ptr, rfl, closureRoot_of_dvd hpos hdvd⟩
    | true =>
      obtain ⟨d, him, rfl⟩ := hv.image ha
      refine ⟨d, rfl, ?_⟩
      rcases him with ⟨o, hfwd⟩ | ⟨rfl, -⟩
      · obtain ⟨-, -, hstart, -, hd⟩ := F.inv.forwarded ptr d o hfwd
        have := F.fresh.pos
        exact closureRoot_of_dvd (by omega) hd
      · exact closureRoot_of_dvd hpos hdvd

theorem keptValue (F : Finished h toStart roots roots' n i s sweep) {v v' : AnyValue}
    (hr : Reached h roots v) (hv : ValueAlong h (Image h s) v v') :
    KeptValue h (cleared h toStart s sweep) v v' := by
  refine ⟨fun depth => ?_, fun kind d hd => ?_⟩
  · exact (unfold_congr cleared_memory depth v').trans (F.unfold depth hr hv)
  · subst hd
    obtain ⟨p, rfl, ⟨-, him⟩ | ⟨ha, rfl⟩⟩ := hv.source
    · obtain ⟨o, ho⟩ := F.inv.image_source him
      obtain ⟨o', ho', -⟩ := F.object him ho
      exact .inl (ho' ▸ Option.some_ne_none o')
    · exact .inr ⟨ha, F.not_active (.inl hr) ha⟩

theorem keptRef (F : Finished h toStart roots roots' n i s sweep) {r r' : AnyValueRef}
    (hmem : r ∈ roots.refs) (hr : RefAlong h (Image h s) (Boxed h toStart s) r r') :
    KeptRef h (cleared h toStart s sweep) r r' := by
  refine ⟨fun depth => ?_, ?_⟩
  · exact (unfoldRef_congr cleared_memory depth r').trans (F.unfoldRef depth hmem hr)
  · rintro kind d (rfl | rfl)
    · obtain ⟨p, rfl, hv⟩ := hr.source
      exact (F.keptValue (.ref hmem) hv).2 kind d rfl
    · obtain ⟨p, rfl, ⟨-, hb⟩ | ⟨ha, rfl⟩⟩ := hr.source_scalar
      · obtain ⟨word, -, hd⟩ := F.box hb
        exact .inl (hd ▸ Option.some_ne_none _)
      · exact .inr ⟨ha, F.not_active (.inr hmem) ha⟩

theorem isMarked_of_kept (F : Finished h toStart roots roots' n i s sweep) {f : Fragment}
    (hk : f ∈ s.kept) {p : Nat} (hc : f.contains p) : s.isMarked p := by
  obtain ⟨hmem, hm⟩ := List.mem_filter.mp hk
  have hsome : (classifyFragment p s.fragments).isSome := by
    rw [classifyFragment_isSome]
    exact List.any_eq_true.mpr ⟨f, hmem, hc⟩
  obtain ⟨index, hindex⟩ := Option.isSome_iff_exists.mp hsome
  obtain ⟨g, hget, hcg⟩ := classifyFragment_get hindex
  -- Fragments are apart, so the first that contains the address is this one.
  have happ : s.fragments.Pairwise fun f g =>
      Apart (f.ptr, f.ptr + f.size) (g.ptr, g.ptr + g.size) := by
    have hreg := congrArg (List.map fun r : Nat × Nat => (r.1, r.1 + r.2)) F.inv.fragments
    have : s.fragments.map (fun f => (f.ptr, f.ptr + f.size)) =
        h.fragments.map fun f => (f.ptr, f.ptr + f.size) := by
      simpa [Function.comp_def, Fragment.region] using hreg
    rw [← List.pairwise_map (f := fun f : Fragment => (f.ptr, f.ptr + f.size)), this]
    exact (List.pairwise_append.mp F.layout.apart).2.1
  have hsymm : Std.Symm fun f g : Fragment =>
      Apart (f.ptr, f.ptr + f.size) (g.ptr, g.ptr + g.size) := ⟨fun _ _ => Or.symm⟩
  have heq : g = f := by
    by_contra hne
    have hor := happ.forall (List.mem_of_getElem? hget) hmem hne
    have h₁ := contains_iff.mp hc
    have h₂ := contains_iff.mp hcg
    rcases hor with h₃ | h₃ <;> simp only at h₃ <;> omega
  rw [isMarked_of_classify hindex hget, heq, hm]

theorem marked_of_memory (F : Finished h toStart roots roots' n i s sweep) {p : Nat}
    (ha : h.isActive p) (hmem : (h.install toStart s sweep).memory p ≠ none) : s.isMarked p := by
  obtain ⟨o', ho'⟩ := Option.ne_none_iff_exists'.mp hmem
  obtain ⟨hin | ⟨f, hk, hc⟩, -⟩ := install_memory F.relinked ho'
  · have hle := F.inv.free_le
    exact absurd ⟨hin.1, by omega⟩ (F.fresh.not_mem ha)
  · exact F.isMarked_of_kept hk hc

theorem hasKind_unique {o : Object} {kind kind' : ValueKind} (hk : o.hasKind kind)
    (hk' : o.hasKind kind') : kind = kind' := by
  cases o <;> cases kind <;> cases hk <;> cases kind' <;> first | rfl | cases hk'

theorem image_fragment (F : Finished h toStart roots roots' n i s sweep) {kind : ValueKind}
    {p : Nat} (hlive : Live h roots kind p) (hfrag : h.inFragment p) : Image h s p p := by
  obtain ⟨d, him⟩ := F.image_of_live hlive
  rcases him with ⟨o, hfwd⟩ | ⟨rfl, him⟩
  · exact absurd ((F.inv.forwarded p d o hfwd).1.1.symm.trans hfrag) Bool.false_ne_true
  · exact .inr ⟨rfl, him⟩

/-- A value that was not traced is kept exactly when the collection leaves it alone. -/
theorem keptRef_self_iff (F : Finished h toStart roots roots' n i s sweep) {record : Roots}
    (hwf : h.WellFormed record) (hsub : ∀ kind p, Live h roots kind p → Live h record kind p)
    (hoff : h.OffHeap record toStart (classSize h.toSpaceClass)) {r : AnyValueRef}
    (hr : r ∈ record.refs) : KeptRef h (cleared h toStart s sweep) r r ↔ h.Survives roots r := by
  cases r with
  | null | emptyList => exact ⟨fun _ => trivial, fun _ => ⟨fun _ => rfl, by simp⟩⟩
  | scalar kind slot =>
    constructor
    · intro hkept
      cases ha : h.isActive slot with
      | false => exact ha
      | true =>
        have hbox := (Bool.and_eq_true_iff.mp (hwf.boxes kind slot hr ha)).2
        rcases hkept.2 kind slot (.inr rfl) with hmem | ⟨ha', -⟩
        · have hfrag := inFragment_of_isMarked F.inv.fragments (F.marked_of_memory ha hmem)
          cases hw : h.memory slot with
          | none => simp [hw] at hbox
          | some o =>
            cases o with
            | scalar word =>
              exact absurd ((F.layout.box_block slot word hw).symm.trans hfrag) Bool.false_ne_true
            | _ => simp [hw] at hbox
        · exact absurd (ha'.symm.trans ha) Bool.false_ne_true
    · intro ha
      have ha' := F.not_active_of_off (hoff kind slot (.inr hr) ha) ha
      refine ⟨fun depth => ?_, ?_⟩
      · rw [unfoldRef_congr cleared_memory]
        simp only [Heap.unfoldRef, memory_of_not_active F.layout ha,
          memory_of_not_active F.layout' ha']
      · rintro kind' d (heq | heq) <;> cases heq
        exact .inr ⟨ha, ha'⟩
  | heap kind p =>
    constructor
    · intro hkept ha
      rcases hkept.2 kind p (.inl rfl) with hmem | ⟨ha', -⟩
      · have hm := F.marked_of_memory ha hmem
        obtain ⟨o, ho, -⟩ := hwf.typed kind p (.ref hr ha)
        exact ⟨inFragment_of_isMarked F.inv.fragments hm, F.imagesLive p p (.inr ⟨rfl, hm, o, ho⟩)⟩
      · exact absurd (ha'.symm.trans ha) Bool.false_ne_true
    · intro hs
      cases ha : h.isActive p with
      | true =>
        obtain ⟨hfrag, kind', hlive⟩ := hs ha
        obtain ⟨o, ho, hk, -⟩ := hwf.typed kind p (.ref hr ha)
        obtain ⟨o₁, ho₁, hk₁, -⟩ := hwf.typed kind' p (hsub kind' p hlive)
        rw [ho] at ho₁
        cases ho₁
        cases hasKind_unique hk hk₁
        obtain ⟨hterm, hin⟩ :=
          F.keptValue hlive.reached (.of_active ha (F.image_fragment hlive hfrag))
        refine ⟨hterm, ?_⟩
        rintro kind' d (heq | heq) <;> cases heq
        exact hin kind p rfl
      | false =>
        have ha' := F.not_active_of_off (hoff kind p (.inl (.ref hr)) ha) ha
        refine ⟨fun depth => ?_, ?_⟩
        · rw [unfoldRef_congr cleared_memory]
          cases depth with
          | zero => rfl
          | succ depth =>
            simp only [Heap.unfoldRef, Heap.unfold, memory_of_not_active F.layout ha,
              memory_of_not_active F.layout' ha']
        · rintro kind' d (heq | heq) <;> cases heq
          exact .inr ⟨ha, ha'⟩

/-! ### Writing back -/

theorem closureBitsAt_append (before after : List AnyValue) (v : AnyValue) :
    closureBitsAt (before ++ v :: after) before.length = closureBits v := by
  rw [closureBitsAt, List.getElem?_append_right (Nat.le_refl _), Nat.sub_self]
  rfl

theorem writeBodies (F : Finished h toStart roots roots' n i s sweep) {bodies : List Nat}
    (hdvd : ∀ body ∈ bodies, 16 ∣ body) {vs : List AnyValue}
    (hvs : List.Forall₂ (ValueAlong h (Image h s)) (bodies.map closureRoot) vs)
    (before after : List AnyValue) :
    ∃ bodies', Fz.Gc.writeBodies (before ++ (vs ++ after)) before.length bodies = .ok bodies' ∧
      bodies'.map closureRoot = vs := by
  induction bodies generalizing vs before with
  | nil =>
    cases hvs
    exact ⟨[], rfl, rfl⟩
  | cons body bodies ih =>
    cases hvs with
    | @cons _ v _ vs hv hvs =>
      obtain ⟨body', hbits, hroot⟩ := F.closure (hdvd body List.mem_cons_self) hv
      obtain ⟨bodies', hwrite, hmap⟩ :=
        ih (fun b hb => hdvd b (List.mem_cons_of_mem body hb)) hvs (before ++ [v])
      refine ⟨body' :: bodies', ?_, by rw [List.map_cons, hroot, hmap]⟩
      rw [List.append_assoc, List.length_append] at hwrite
      rw [Fz.Gc.writeBodies, List.cons_append, closureBitsAt_append, hbits]
      show (Fz.Gc.writeBodies (before ++ v :: (vs ++ after)) _ bodies >>= _) = _
      rw [show before ++ v :: (vs ++ after) = before ++ ([v] ++ (vs ++ after)) from rfl,
        show before.length + 1 = before.length + [v].length from rfl, hwrite]
      rfl

end Finished

/-! ## The collection at a park -/

section Park

variable {p : Process} {park : ParkRecord} {toStart : Nat}

/-- When a collection is due and comes to its end, the closures and the mailbox are written back as
what they became, and the pinned values stay as they were. -/
theorem parkTimeGc_finished (hdue : p.heap.pressure = true) (hpark : p.wait = some park)
    (hal : p.Aligned) {roots' : Roots} {n i : Nat} {s : GcState} {sweep : MsoSweep}
    (hgc : p.heap.gc toStart p.gcRoots = .ok (p.heap.install toStart s sweep, roots'))
    (F : Finished p.heap toStart p.gcRoots roots' n i s sweep) : ∃ bodies after runnable,
      p.parkTimeGc toStart = .ok ⟨Finished.cleared p.heap toStart s sweep, roots'.refs,
        some ⟨park.pinned, bodies, after⟩, runnable⟩ ∧
      List.Forall₂ (ValueAlong p.heap (Image p.heap s)) (park.clauseBodies.map closureRoot)
        (bodies.map closureRoot) ∧
      ValueAlong p.heap (Image p.heap s) (closureRoot park.afterCont) (closureRoot after) ∧
      ValueAlong p.heap (Image p.heap s) (closureRoot p.runnable) (closureRoot runnable) := by
  obtain ⟨hrunnable, hrecord⟩ := hal
  obtain ⟨hafter, hbodies⟩ := hrecord park hpark
  have hparked : p.parkedRoots =
      park.clauseBodies.map closureRoot ++ [closureRoot park.afterCont] := by
    rw [Process.parkedRoots, hpark]
  -- The roots come back in the order they were gathered.
  have hgathered : p.gcRoots.values = park.clauseBodies.map closureRoot ++
      ([closureRoot park.afterCont] ++
        if p.runnable = 0 then [] else [closureRoot p.runnable]) := by
    rw [Process.gcRoots, pushClosureRoot, hparked]
    split <;> simp
  have hvalues := F.along.values
  rw [hgathered] at hvalues
  obtain ⟨bs, vs, hbs, hbodies', hvs⟩ := append_of_forall₂ hvalues
  obtain ⟨as, rs, rfl, has, hrs⟩ := append_of_forall₂ hvs
  obtain ⟨a, rfl, ha⟩ : ∃ a, as = [a] ∧ ValueAlong p.heap (Image p.heap s)
      (closureRoot park.afterCont) a := by
    cases has with
    | cons ha hnil =>
      cases hnil
      exact ⟨_, rfl, ha⟩
  obtain ⟨bodies, hwrite, hmap⟩ := F.writeBodies hbodies hbodies' [] ([a] ++ rs)
  rw [List.nil_append, ← hbs] at hwrite
  obtain ⟨after, hbits, hafter'⟩ := F.closure hafter ha
  have hlen : park.clauseBodies.length = bs.length := by
    rw [← hbodies'.length_eq, List.length_map]
  have hat : closureBitsAt roots'.values park.clauseBodies.length = .ok after := by
    rw [hbs, hlen, List.singleton_append, Finished.closureBitsAt_append, hbits]
  have hwait : Process.writeWait roots'.values p.wait =
      .ok (some ⟨park.pinned, bodies, after⟩) := by
    rw [hpark, Process.writeWait, show writeBodies roots'.values 0 _ = _ from hwrite]
    show (closureBitsAt _ _ >>= _) = _
    rw [hat]
    rfl
  obtain ⟨runnable, hrun, hrunnable'⟩ : ∃ runnable,
      Process.writeRunnable roots'.values p.runnable (pushClosureRoot p.parkedRoots p.runnable).1 =
        .ok runnable ∧
      ValueAlong p.heap (Image p.heap s) (closureRoot p.runnable) (closureRoot runnable) := by
    by_cases hr0 : p.runnable = 0
    · rw [pushClosureRoot, if_pos hr0, hr0]
      exact ⟨0, rfl, rfl⟩
    · rw [if_neg hr0] at hrs
      cases hrs with
      | @cons _ r _ _ hr hnil =>
        cases hnil
        obtain ⟨runnable, hbits, hroot⟩ := F.closure hrunnable hr
        refine ⟨runnable, ?_, hroot ▸ hr⟩
        have hidx : p.parkedRoots.length = (bs ++ [a]).length := by
          rw [hparked, List.length_append, List.length_append, List.length_map, hlen]
          rfl
        rw [pushClosureRoot, if_neg hr0]
        show closureBitsAt roots'.values p.parkedRoots.length = _
        rw [hidx, hbs, ← List.append_assoc, Finished.closureBitsAt_append, hbits]
  refine ⟨bodies, after, runnable, ?_, hmap ▸ hbodies', hafter' ▸ ha, hrunnable'⟩
  rw [Process.parkTimeGc, hdue]
  show (p.heap.gc toStart p.gcRoots >>= _) = _
  rw [hgc]
  show (Process.writeWait roots'.values p.wait >>= _) = _
  rw [hwait]
  show (Process.writeRunnable _ _ _ >>= _) = _
  rw [hrun]
  rfl

theorem closureRoot_mem (hpark : p.wait = some park) :
    (∀ body ∈ park.clauseBodies, closureRoot body ∈ p.gcRoots.values) ∧
      closureRoot park.afterCont ∈ p.gcRoots.values := by
  have hparked : p.parkedRoots =
      park.clauseBodies.map closureRoot ++ [closureRoot park.afterCont] := by
    rw [Process.parkedRoots, hpark]
  have hsub : p.parkedRoots ⊆ p.gcRoots.values := by
    show p.parkedRoots ⊆ (pushClosureRoot p.parkedRoots p.runnable).2
    unfold pushClosureRoot
    split
    · exact List.Subset.refl _
    · exact List.subset_append_left _ _
  rw [hparked] at hsub
  exact ⟨fun body hb => hsub (List.mem_append_left _ (List.mem_map_of_mem hb)),
    hsub (List.mem_append_right _ List.mem_cons_self)⟩

theorem reached_runnable : Reached p.heap p.gcRoots (closureRoot p.runnable) := by
  by_cases hr0 : p.runnable = 0
  · rw [hr0]
    exact .primary
  · refine .value ?_
    show closureRoot p.runnable ∈ (pushClosureRoot p.parkedRoots p.runnable).2
    rw [pushClosureRoot, if_neg hr0]
    exact List.mem_append_right _ List.mem_cons_self

theorem record_refs (hpark : p.wait = some park) : p.record.refs = p.mailbox ++ park.pinned := by
  rw [Process.record, hpark]

theorem keptValue_refl {h : Heap} {roots : Roots} (hl : h.Layout) (ht : h.Typed roots)
    {v : AnyValue} (hr : Reached h roots v) : KeptValue h h v v := by
  refine ⟨fun _ => rfl, fun kind d hd => ?_⟩
  subst hd
  cases ha : h.isActive d with
  | false => exact .inr ⟨ha, ha⟩
  | true =>
    obtain ⟨o, ho, -⟩ := ht kind d (hr.live hl ha)
    exact .inl (ho ▸ Option.some_ne_none o)

theorem keptRef_refl {h : Heap} {roots : Roots} (hl : h.Layout) (hwf : h.WellFormed roots)
    {r : AnyValueRef} (hr : r ∈ roots.refs) : KeptRef h h r r := by
  refine ⟨fun _ => rfl, ?_⟩
  rintro kind d (rfl | rfl)
  · exact (keptValue_refl hl hwf.typed (.ref hr)).2 kind d rfl
  · cases ha : h.isActive d with
    | false => exact .inr ⟨ha, ha⟩
    | true =>
      refine .inl fun hnone => ?_
      have hbox := (Bool.and_eq_true_iff.mp (hwf.boxes kind d hr ha)).2
      simp [hnone] at hbox

end Park

/-! ## A pinned value that is lost -/

/-- A list cell, a closure and enough garbage for a collection to be due. -/
def parkedHeap : Heap :=
  let h := ((Heap.new 1024 65536).alloc 0 (.cons (.int 1) 0 false)).2
  let h := (h.alloc 0 (.closure 0 1 0 0 [.null])).2
  (h.alloc 0 (zeroes 64)).2

/-- A process parked on a receive with one clause, whose body is the closure. -/
def parkedProcess (pinned : List AnyValueRef) : Process :=
  ⟨parkedHeap, [], some ⟨pinned, [65552], 0⟩, 0⟩

theorem parkedHeap_layout : parkedHeap.Layout :=
  alloc_layout (alloc_layout (alloc_layout (new_layout 1024 (by decide)) (by decide)) (by decide))
    (by decide)

theorem parkedHeap_memory : parkedHeap.memory 65536 = some (.cons (.int 1) 0 false) ∧
    parkedHeap.memory 65552 = some (.closure 0 1 0 0 [.null]) ∧ parkedHeap.memory 0 = none := by
  decide

theorem parked_reached {v : AnyValue}
    (hr : Reached parkedHeap (parkedProcess [.heap .list 65536, .emptyList]).record v) :
    v ∈ [.null, .heapRef .closure 65552, .heapRef .list 65536, .int 1, .heapRef .list 0] := by
  obtain ⟨hcell, hclosure, hzero⟩ := parkedHeap_memory
  induction hr with
  | primary => decide
  | value hmem =>
    have hmem : _ ∈ [AnyValue.heapRef .closure 65552, .null] := hmem
    simp only [List.mem_cons, List.not_mem_nil, or_false] at hmem ⊢
    rcases hmem with rfl | rfl <;> simp
  | ref hmem =>
    have hmem : _ ∈ [AnyValueRef.heap .list 65536, .emptyList] := hmem
    simp only [List.mem_cons, List.not_mem_nil, or_false, reduceCtorEq,
      AnyValueRef.heap.injEq] at hmem
    obtain ⟨rfl, rfl⟩ := hmem
    decide
  | step _ hmem hval ih =>
    simp only [List.mem_cons, List.not_mem_nil, or_false, reduceCtorEq, false_or,
      AnyValue.heapRef.injEq] at ih
    rcases ih with ⟨-, rfl⟩ | ⟨-, rfl⟩ | ⟨-, rfl⟩
    · rw [hclosure] at hmem
      cases hmem
      rw [List.mem_singleton.mp hval]
      decide
    · rw [hcell] at hmem
      cases hmem
      simp only [Object.values, List.mem_cons, List.not_mem_nil, or_false] at hval
      rcases hval with rfl | rfl <;> decide
    · rw [hzero] at hmem
      cases hmem

theorem parked_wellFormed :
    parkedHeap.WellFormed (parkedProcess [.heap .list 65536, .emptyList]).record where
  typed := fun kind p hlive => by
    obtain ⟨hcell, hclosure, -⟩ := parkedHeap_memory
    have ha := hlive.active
    have hmem := parked_reached hlive.reached
    simp only [List.mem_cons, List.not_mem_nil, or_false, reduceCtorEq, false_or,
      AnyValue.heapRef.injEq] at hmem
    rcases hmem with ⟨rfl, rfl⟩ | ⟨rfl, rfl⟩ | ⟨rfl, rfl⟩
    · exact ⟨_, hclosure, rfl, trivial⟩
    · exact ⟨_, hcell, rfl, ⟨0, rfl⟩⟩
    · exact absurd ha (by decide)
  boxes := fun kind slot hmem => by
    have hmem : _ ∈ [AnyValueRef.heap .list 65536, .emptyList] := hmem
    simp at hmem
  chain := ⟨[], .nil, Nat.zero_le _⟩

theorem parked_offHeap (size : Nat) :
    parkedHeap.OffHeap (parkedProcess [.heap .list 65536, .emptyList]).record 131072 size := by
  rintro kind p (hr | hr) - hin
  · have hmem := parked_reached hr
    simp only [List.mem_cons, List.not_mem_nil, or_false, reduceCtorEq, false_or,
      AnyValue.heapRef.injEq] at hmem
    rcases hmem with ⟨-, rfl⟩ | ⟨-, rfl⟩ | ⟨-, rfl⟩ <;> omega
  · have hmem : _ ∈ [AnyValueRef.heap .list 65536, .emptyList] := hr
    simp at hmem

theorem parked_noneLooksForwarded (pinned : List AnyValueRef) :
    parkedHeap.NoneLooksForwarded (parkedProcess pinned).gcRoots := by
  intro kind p o hlive _ ho hlooks
  obtain ⟨hcell, hclosure, hzero⟩ := parkedHeap_memory
  have hsub : (parkedProcess pinned).gcRoots.refs ⊆
      (parkedProcess [.heap .list 65536, .emptyList]).record.refs := List.nil_subset _
  have hmem := parked_reached (hlive.reached.mono hsub rfl rfl)
  simp only [List.mem_cons, List.not_mem_nil, or_false, reduceCtorEq, false_or,
    AnyValue.heapRef.injEq] at hmem
  rcases hmem with ⟨-, rfl⟩ | ⟨-, rfl⟩ | ⟨-, rfl⟩
  · rw [hclosure] at ho
    cases ho
    exact absurd hlooks.1 (by decide)
  · rw [hcell] at ho
    cases ho
    exact hlooks
  · rw [hzero] at ho
    cases ho

theorem parked_gc_ne (pinned : List AnyValueRef) :
    parkedHeap.gc 131072 (parkedProcess pinned).gcRoots ≠ .error .toSpaceExhausted := by
  intro hgc
  have hok : (parkedHeap.gc 131072 (parkedProcess []).gcRoots).isOk = true := by decide
  rw [show (parkedProcess []).gcRoots = (parkedProcess pinned).gcRoots from rfl, hgc] at hok
  cases hok

theorem parked_aligned (pinned : List AnyValueRef) : (parkedProcess pinned).Aligned := by
  refine ⟨⟨0, rfl⟩, fun park hpark => ?_⟩
  cases hpark
  exact ⟨⟨0, rfl⟩, by simp⟩

end Fz.Gc
