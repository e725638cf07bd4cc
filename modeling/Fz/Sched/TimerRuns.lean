import Fz.Sched.Timer
import Mathlib.Data.List.Pairwise
import Mathlib.Data.Set.Basic

/-!
# Runs of the timer wheel

What the wheel is for: a set of pending timers, from which a timer leaves when it is cancelled or
when its deadline has come.  The wheel keeps that set as a sorted vector; any calls in any order
leave it with the entries of the set, and every drain answers with those that are due, sorted.
-/

namespace Fz.Sched

/-! ## Calls -/

inductive TimerCall where
  | schedule (now : Nat) (pid : PidId) (after : Nat)
  | cancel (id : TimerId)
  | drainExpired (now : Nat)

def TimerCall.time? : TimerCall → Option Nat
  | .schedule now _ _ | .drainExpired now => some now
  | .cancel _ => none

inductive TimerReply where
  | scheduled (id : TimerId)
  | cancelled
  | drained (entries : List TimerEntry)

namespace TimerWheel

/-- `schedule` with a duration in nanoseconds. -/
def scheduleAfter (w : TimerWheel) (now : Nat) (pid : PidId) (after : Nat) : TimerId × TimerWheel :=
  let entry : TimerEntry := ⟨w.nextId, now + after, pid⟩
  (w.nextId,
    { entries := w.entries.takeWhile (·.before entry) ++
        entry :: w.entries.dropWhile (·.before entry)
      nextId := w.nextId + 1 })

def call (w : TimerWheel) : TimerCall → TimerReply × TimerWheel
  | .schedule now pid after =>
    let (id, w) := w.scheduleAfter now pid after
    (.scheduled id, w)
  | .cancel id => (.cancelled, w.cancel id)
  | .drainExpired now =>
    let (entries, w) := w.drainExpired now
    (.drained entries, w)

def run (w : TimerWheel) (calls : List TimerCall) : TimerWheel :=
  calls.foldl (fun w c => (w.call c).2) w

end TimerWheel

/-! ## The set of pending timers -/

/-- The timers that have neither been cancelled nor fired. -/
structure PendingTimers where
  pending : Set TimerEntry
  nextId : TimerId

namespace PendingTimers

def new : PendingTimers := ⟨∅, 1⟩

def next (q : PendingTimers) : TimerCall → PendingTimers
  | .schedule now pid after => ⟨insert ⟨q.nextId, now + after, pid⟩ q.pending, q.nextId + 1⟩
  | .cancel id => { q with pending := {e ∈ q.pending | e.id ≠ id} }
  | .drainExpired now => { q with pending := {e ∈ q.pending | now < e.deadline} }

def run (q : PendingTimers) (calls : List TimerCall) : PendingTimers := calls.foldl next q

/-- The reply a call should have: a fresh id, or exactly the timers that are due, in order. -/
def Answers (q : PendingTimers) : TimerCall → TimerReply → Prop
  | .schedule _ _ _, reply => reply = .scheduled q.nextId ∧ ∀ e ∈ q.pending, e.id ≠ q.nextId
  | .cancel _, reply => reply = .cancelled
  | .drainExpired now, reply => ∃ entries, reply = .drained entries ∧
      entries.Pairwise (fun a b => a.before b) ∧
      ∀ e, e ∈ entries ↔ e ∈ q.pending ∧ e.deadline ≤ now

end PendingTimers

/-! ## The order of the wheel -/

theorem TimerEntry.before_iff {a b : TimerEntry} :
    a.before b ↔ a.deadline < b.deadline ∨ (a.deadline = b.deadline ∧ a.id < b.id) := by
  simp [TimerEntry.before]

theorem TimerEntry.before_trans {a b c : TimerEntry} (hab : a.before b) (hbc : b.before c) :
    a.before c := by
  rw [TimerEntry.before_iff] at hab hbc ⊢
  rcases hab with hab | ⟨hab, hid⟩
  · rcases hbc with hbc | ⟨hbc, -⟩
    · exact .inl (Nat.lt_trans hab hbc)
    · exact .inl (hbc ▸ hab)
  · rcases hbc with hbc | ⟨hbc, hid'⟩
    · exact .inl (hab ▸ hbc)
    · exact .inr ⟨hab.trans hbc, Nat.lt_trans hid hid'⟩

theorem TimerEntry.before_of_not {a b : TimerEntry} (hne : a.id ≠ b.id) (h : ¬ a.before b) :
    b.before a := by
  rw [TimerEntry.before_iff] at h ⊢
  rcases Nat.lt_trichotomy a.deadline b.deadline with hd | hd | hd
  · exact absurd (.inl hd) h
  · rcases Nat.lt_trichotomy a.id b.id with hid | hid | hid
    · exact absurd (.inr ⟨hd, hid⟩) h
    · exact absurd hid hne
    · exact .inr ⟨hd.symm, hid⟩
  · exact .inl hd

theorem takeWhile_eq_filter_of_pairwise {α : Type} {p : α → Bool} {l : List α}
    (h : l.Pairwise fun a b => p b → p a) : l.takeWhile p = l.filter p := by
  induction l with
  | nil => rfl
  | cons a l ih =>
    obtain ⟨ha, hl⟩ := List.pairwise_cons.mp h
    cases hp : p a with
    | true => rw [List.takeWhile_cons_of_pos hp, List.filter_cons_of_pos hp, ih hl]
    | false =>
      rw [List.takeWhile_cons_of_neg (by simp [hp]), List.filter_cons_of_neg (by simp [hp]),
        eq_comm, List.filter_eq_nil_iff]
      intro b hb hpb
      exact absurd (ha b hb hpb) (by simp [hp])

theorem dropWhile_eq_filter_of_pairwise {α : Type} {p : α → Bool} {l : List α}
    (h : l.Pairwise fun a b => p b → p a) : l.dropWhile p = l.filter fun a => !p a := by
  induction l with
  | nil => rfl
  | cons a l ih =>
    obtain ⟨ha, hl⟩ := List.pairwise_cons.mp h
    cases hp : p a with
    | true =>
      rw [List.dropWhile_cons_of_pos hp, List.filter_cons_of_neg (by simp [hp]), ih hl]
    | false =>
      rw [List.dropWhile_cons_of_neg (by simp [hp]), List.filter_cons_of_pos (by simp [hp]),
        eq_comm]
      congr 1
      rw [List.filter_eq_self]
      intro b hb
      cases hpb : p b with
      | false => rfl
      | true => exact absurd (ha b hb hpb) (by simp [hp])

theorem eraseP_id_eq_filter {id : TimerId} {l : List TimerEntry} (h : (l.map TimerEntry.id).Nodup) :
    l.eraseP (·.id == id) = l.filter fun e => e.id ≠ id := by
  induction l with
  | nil => rfl
  | cons e l ih =>
    obtain ⟨he, hl⟩ := List.nodup_cons.mp h
    by_cases heq : e.id = id
    · rw [List.eraseP_cons_of_pos (by simpa using heq),
        List.filter_cons_of_neg (by simpa using heq), eq_comm, List.filter_eq_self]
      intro b hb
      refine decide_eq_true fun hid => he ?_
      rw [heq, ← hid]
      exact List.mem_map_of_mem hb
    · rw [List.eraseP_cons_of_neg (by simpa using heq),
        List.filter_cons_of_pos (by simpa using heq), ih hl]

namespace TimerWheel

/-! ## The wheel keeps the set -/

/-- The wheel holds the pending timers, sorted, and no id twice. -/
structure Holds (w : TimerWheel) (q : PendingTimers) : Prop where
  sorted : w.entries.Pairwise fun a b => a.before b
  ids : (w.entries.map TimerEntry.id).Nodup
  below : ∀ e ∈ w.entries, e.id < w.nextId
  mem : ∀ e, e ∈ w.entries ↔ e ∈ q.pending
  nextId : w.nextId = q.nextId

theorem holds_new : new.Holds PendingTimers.new :=
  ⟨List.Pairwise.nil, List.nodup_nil, by simp [new], by simp [new, PendingTimers.new], rfl⟩

variable {w : TimerWheel} {q : PendingTimers}

theorem Holds.due_pairwise (h : w.Holds q) (now : Nat) :
    w.entries.Pairwise fun a b => decide (b.deadline ≤ now) → decide (a.deadline ≤ now) := by
  refine h.sorted.imp fun {a b} hab => ?_
  rw [TimerEntry.before_iff] at hab
  simp only [decide_eq_true_eq]
  omega

theorem Holds.before_pairwise (h : w.Holds q) (entry : TimerEntry) :
    w.entries.Pairwise fun a b => b.before entry → a.before entry :=
  h.sorted.imp fun hab => TimerEntry.before_trans hab

theorem Holds.schedule (h : w.Holds q) (now : Nat) (pid : PidId) (after : Nat) :
    (w.scheduleAfter now pid after).2.Holds (q.next (.schedule now pid after)) := by
  have hperm : (w.scheduleAfter now pid after).2.entries.Perm
      (⟨w.nextId, now + after, pid⟩ :: w.entries) := by
    refine List.perm_middle.trans (List.Perm.cons _ ?_)
    rw [List.takeWhile_append_dropWhile]
  refine ⟨?_, ?_, fun e he => ?_, fun e => ?_, congrArg (· + 1) h.nextId⟩
  · simp only [scheduleAfter]
    rw [takeWhile_eq_filter_of_pairwise (h.before_pairwise _),
      dropWhile_eq_filter_of_pairwise (h.before_pairwise _)]
    have hafter : ∀ e ∈ w.entries.filter
        (fun e => !e.before ⟨w.nextId, now + after, pid⟩),
        (⟨w.nextId, now + after, pid⟩ : TimerEntry).before e := by
      intro e he
      obtain ⟨hmem, hnot⟩ := List.mem_filter.mp he
      exact TimerEntry.before_of_not (Nat.ne_of_lt (h.below e hmem)) (by simpa using hnot)
    refine List.pairwise_append.mpr ⟨h.sorted.filter _,
      List.pairwise_cons.mpr ⟨hafter, h.sorted.filter _⟩, fun a ha b hb => ?_⟩
    have hbefore := (List.mem_filter.mp ha).2
    rcases List.mem_cons.mp hb with rfl | hb
    · exact hbefore
    · exact TimerEntry.before_trans hbefore (hafter b hb)
  · refine (hperm.map _).nodup_iff.mpr (List.nodup_cons.mpr ⟨fun hmem => ?_, h.ids⟩)
    obtain ⟨e, he, heq⟩ := List.mem_map.mp hmem
    exact absurd heq (Nat.ne_of_lt (h.below e he))
  · rcases List.mem_cons.mp (hperm.mem_iff.mp he) with rfl | he
    · exact Nat.lt_succ_self _
    · exact Nat.lt_succ_of_lt (h.below e he)
  · rw [hperm.mem_iff, List.mem_cons, h.mem, h.nextId]
    rfl

theorem Holds.cancel (h : w.Holds q) (id : TimerId) :
    (w.cancel id).Holds (q.next (.cancel id)) := by
  have hsub : (w.cancel id).entries.Sublist w.entries := List.eraseP_sublist
  refine ⟨h.sorted.sublist hsub, h.ids.sublist (hsub.map _), fun e he => h.below e (hsub.subset he),
    fun e => ?_, h.nextId⟩
  rw [TimerWheel.cancel, eraseP_id_eq_filter h.ids, List.mem_filter, decide_eq_true_eq, h.mem]
  rfl

theorem Holds.drain (h : w.Holds q) (now : Nat) :
    (w.drainExpired now).2.Holds (q.next (.drainExpired now)) := by
  have hsub : (w.drainExpired now).2.entries.Sublist w.entries := List.dropWhile_sublist _
  refine ⟨h.sorted.sublist hsub, h.ids.sublist (hsub.map _), fun e he => h.below e (hsub.subset he),
    fun e => ?_, h.nextId⟩
  rw [drainExpired, dropWhile_eq_filter_of_pairwise (h.due_pairwise now), List.mem_filter, h.mem]
  simp [PendingTimers.next]

theorem Holds.call (h : w.Holds q) (c : TimerCall) : (w.call c).2.Holds (q.next c) := by
  cases c with
  | schedule now pid after => exact h.schedule now pid after
  | cancel id => exact h.cancel id
  | drainExpired now => exact h.drain now

theorem Holds.answers (h : w.Holds q) (c : TimerCall) : q.Answers c (w.call c).1 := by
  cases c with
  | schedule now pid after =>
    refine ⟨congrArg TimerReply.scheduled h.nextId, fun e he => ?_⟩
    rw [← h.nextId]
    exact Nat.ne_of_lt (h.below e ((h.mem e).mpr he))
  | cancel id => rfl
  | drainExpired now =>
    refine ⟨_, rfl, h.sorted.sublist (List.takeWhile_sublist _), fun e => ?_⟩
    rw [takeWhile_eq_filter_of_pairwise (h.due_pairwise now), List.mem_filter, h.mem,
      decide_eq_true_eq]

theorem Holds.run (h : w.Holds q) (calls : List TimerCall) : (w.run calls).Holds (q.run calls) := by
  induction calls generalizing w q with
  | nil => exact h
  | cons c calls ih => exact ih (h.call c)

/-- After any calls the wheel is sorted, holds no id twice, and holds exactly the timers that are
pending; whatever is called next is answered from these. -/
theorem run_refines (calls : List TimerCall) :
    ((new.run calls).entries.Pairwise fun a b => a.before b) ∧
    ((new.run calls).entries.map TimerEntry.id).Nodup ∧
    (∀ e, e ∈ (new.run calls).entries ↔ e ∈ (PendingTimers.new.run calls).pending) ∧
    ∀ c, (PendingTimers.new.run calls).Answers c ((new.run calls).call c).1 :=
  have h := holds_new.run calls
  ⟨h.sorted, h.ids, h.mem, h.answers⟩

theorem nextDeadline_run (calls : List TimerCall) (deadline : Nat) :
    (new.run calls).nextDeadline = some deadline ↔
      (∃ e ∈ (PendingTimers.new.run calls).pending, e.deadline = deadline) ∧
        ∀ e ∈ (PendingTimers.new.run calls).pending, deadline ≤ e.deadline := by
  have h := holds_new.run calls
  simp only [← h.mem]
  have hsorted := h.sorted
  cases hentries : (new.run calls).entries with
  | nil => simp [nextDeadline, hentries]
  | cons first rest =>
    rw [hentries] at hsorted
    have hfirst : ∀ e ∈ first :: rest, first.deadline ≤ e.deadline := by
      intro e he
      rcases List.mem_cons.mp he with rfl | he
      · exact Nat.le_refl _
      · have hbefore := (List.pairwise_cons.mp hsorted).1 e he
        rw [TimerEntry.before_iff] at hbefore
        omega
    rw [nextDeadline, hentries, List.head?_cons, Option.map_some, Option.some_inj]
    constructor
    · rintro rfl
      exact ⟨⟨first, List.mem_cons_self, rfl⟩, hfirst⟩
    · rintro ⟨⟨e, he, rfl⟩, hleast⟩
      exact Nat.le_antisymm (hfirst e he) (hleast first List.mem_cons_self)

/-! ## What becomes of the timers -/

/-- The timers that a call adds. -/
def scheduled (w : TimerWheel) : TimerCall → List TimerEntry
  | .schedule now pid after => [⟨w.nextId, now + after, pid⟩]
  | _ => []

def fired (w : TimerWheel) : TimerCall → List TimerEntry
  | .drainExpired now => (w.drainExpired now).1
  | _ => []

def cancelled (w : TimerWheel) : TimerCall → List TimerEntry
  | .cancel id => w.entries.filter (·.id = id)
  | _ => []

/-- What `f` gives for each call, in the order of the calls. -/
def log (f : TimerWheel → TimerCall → List TimerEntry) (w : TimerWheel) :
    List TimerCall → List TimerEntry
  | [] => []
  | c :: calls => f w c ++ log f (w.call c).2 calls

theorem Holds.call_perm (h : w.Holds q) (c : TimerCall) :
    (w.fired c ++ (w.cancelled c ++ (w.call c).2.entries)).Perm (w.scheduled c ++ w.entries) := by
  cases c with
  | schedule now pid after =>
    refine List.perm_middle.trans (List.Perm.cons _ ?_)
    rw [List.takeWhile_append_dropWhile]
    rfl
  | cancel id =>
    show (w.entries.filter (·.id = id) ++ w.entries.eraseP (·.id == id)).Perm w.entries
    rw [eraseP_id_eq_filter h.ids]
    simpa using List.filter_append_perm (fun e : TimerEntry => decide (e.id = id)) w.entries
  | drainExpired now =>
    show ((w.drainExpired now).1 ++ (w.drainExpired now).2.entries).Perm w.entries
    rw [drainExpired_append]

theorem Holds.log_perm (h : w.Holds q) (calls : List TimerCall) :
    (w.log fired calls ++ (w.log cancelled calls ++ (w.run calls).entries)).Perm
      (w.log scheduled calls ++ w.entries) := by
  induction calls generalizing w q with
  | nil => exact .refl _
  | cons c calls ih =>
    refine List.perm_iff_count.mpr fun e => ?_
    have hstep := (h.call_perm c).count_eq e
    have hrest := (ih (h.call c)).count_eq e
    rw [show w.run (c :: calls) = (w.call c).2.run calls from rfl]
    simp only [log, List.count_append] at hstep hrest ⊢
    omega

/-- `e` comes before all that can still fire, when no call is made before `now`. -/
structure Precedes (e : TimerEntry) (w : TimerWheel) (now : Nat) : Prop where
  deadline : e.deadline ≤ now
  id : e.id < w.nextId
  entries : ∀ e' ∈ w.entries, e.before e'

variable {e : TimerEntry} {now : Nat} {calls : List TimerCall}

theorem Precedes.call (h : Precedes e w now) (c : TimerCall) (hnow : ∀ t ∈ c.time?, now ≤ t) :
    Precedes e (w.call c).2 now := by
  cases c with
  | schedule now' pid after =>
    refine ⟨h.deadline, Nat.lt_succ_of_lt h.id, fun e' he' => ?_⟩
    rcases List.mem_append.mp he' with he' | he'
    · exact h.entries e' (List.takeWhile_subset _ he')
    · rcases List.mem_cons.mp he' with rfl | he'
      · have hle : e.deadline ≤ now' + after :=
          (h.deadline.trans (hnow now' rfl)).trans (Nat.le_add_right _ _)
        exact TimerEntry.before_iff.mpr (hle.lt_or_eq.imp_right fun heq => ⟨heq, h.id⟩)
      · exact h.entries e' (List.dropWhile_subset _ he')
  | cancel id =>
    exact ⟨h.deadline, h.id, fun e' he' => h.entries e' (List.eraseP_subset he')⟩
  | drainExpired now' =>
    exact ⟨h.deadline, h.id, fun e' he' => h.entries e' (List.dropWhile_subset _ he')⟩

theorem fired_subset (c : TimerCall) : w.fired c ⊆ w.entries := by
  cases c with
  | schedule => exact List.nil_subset _
  | cancel => exact List.nil_subset _
  | drainExpired now => exact List.takeWhile_subset _

theorem Precedes.log (h : Precedes e w now)
    (hcalls : ∀ t ∈ calls.filterMap TimerCall.time?, now ≤ t) :
    ∀ e' ∈ w.log fired calls, e.before e' := by
  induction calls generalizing w with
  | nil => exact fun _ he' => absurd he' List.not_mem_nil
  | cons c calls ih =>
    intro e' he'
    rcases List.mem_append.mp he' with he' | he'
    · exact h.entries e' (fired_subset c he')
    · refine ih (h.call c fun t ht => hcalls t ?_) (fun t ht => hcalls t ?_) e' he'
      · exact List.mem_filterMap.mpr ⟨c, List.mem_cons_self, ht⟩
      · obtain ⟨c', hc', ht⟩ := List.mem_filterMap.mp ht
        exact List.mem_filterMap.mpr ⟨c', List.mem_cons_of_mem _ hc', ht⟩

theorem Holds.log_pairwise (h : w.Holds q)
    (hclock : (calls.filterMap TimerCall.time?).Pairwise (· ≤ ·)) :
    (w.log fired calls).Pairwise fun a b => a.before b := by
  induction calls generalizing w q with
  | nil => exact .nil
  | cons c calls ih =>
    have hrest : (calls.filterMap TimerCall.time?).Pairwise (· ≤ ·) :=
      hclock.sublist ((List.sublist_cons_self c calls).filterMap _)
    have hrest := ih (h.call c) hrest
    cases c with
    | schedule now pid after => exact hrest
    | cancel id => exact hrest
    | drainExpired now =>
      have hsorted := h.sorted
      rw [← @drainExpired_append w now] at hsorted
      obtain ⟨hfired, -, hcross⟩ := List.pairwise_append.mp hsorted
      refine List.pairwise_append.mpr ⟨hfired, hrest, fun e he => ?_⟩
      have hprecedes : Precedes e (w.drainExpired now).2 now :=
        ⟨by simpa using List.mem_takeWhile_imp he, h.below e (List.takeWhile_subset _ he),
          hcross e he⟩
      exact hprecedes.log (List.pairwise_cons.mp hclock).1

/-- Ids count up. -/
theorem log_scheduled (w : TimerWheel) (calls : List TimerCall) :
    (w.log scheduled calls).Pairwise (fun a b => a.id < b.id) ∧
      ∀ e ∈ w.log scheduled calls, w.nextId ≤ e.id := by
  induction calls generalizing w with
  | nil => exact ⟨.nil, fun _ he => absurd he List.not_mem_nil⟩
  | cons c calls ih =>
    obtain ⟨hids, hlater⟩ := ih (w.call c).2
    cases c with
    | schedule now pid after =>
      refine ⟨List.pairwise_cons.mpr ⟨hlater, hids⟩, fun e he => ?_⟩
      rcases List.mem_cons.mp he with rfl | he
      · exact Nat.le_refl _
      · exact Nat.le_of_succ_le (hlater e he)
    | cancel id => exact ⟨hids, hlater⟩
    | drainExpired now => exact ⟨hids, hlater⟩

/-- With a clock that never goes back, the timers that calls fire come out in the order of their
deadlines, ties by age; each timer that was set has fired, was cancelled or still waits, and only
one of these, once. -/
theorem run_fires_in_order (calls : List TimerCall)
    (hclock : (calls.filterMap TimerCall.time?).Pairwise (· ≤ ·)) :
    (new.log fired calls).Pairwise (fun a b => a.before b) ∧
    (new.log fired calls ++ (new.log cancelled calls ++ (new.run calls).entries)).Perm
      (new.log scheduled calls) ∧ (new.log scheduled calls).Nodup := by
  refine ⟨holds_new.log_pairwise hclock, ?_, ?_⟩
  · simpa [new] using holds_new.log_perm calls
  · refine (log_scheduled new calls).1.imp ?_
    rintro a _ hid rfl
    exact Nat.lt_irrefl a.id hid

-- One timer of three is cancelled, one fires late, and one waits.
theorem run_fires_in_order_three :
    let calls : List TimerCall := [.schedule 0 7 20, .schedule 5 7 10, .schedule 5 8 40, .cancel 1,
      .drainExpired 30]
    (new.log fired calls ++ (new.log cancelled calls ++ (new.run calls).entries)).Perm
      (new.log scheduled calls) ∧ new.log fired calls = [⟨2, 15, 7⟩] :=
  ⟨(run_fires_in_order _ (by decide)).2.1, by decide⟩

end TimerWheel

end Fz.Sched
