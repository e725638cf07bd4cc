import Mathlib.Data.List.TakeWhile
import Mathlib.Data.List.Perm.Basic

/-!
# The timer wheel

A vector of entries sorted by deadline, ties by id.  Ids count up and are never used
again.  The source reads the clock itself; here the time is an argument, in the
nanoseconds of an `Instant`.
-/

namespace Fz.Sched

abbrev PidId := Nat
abbrev TimerId := Nat

structure TimerEntry where
  id : TimerId
  deadline : Nat
  pid : PidId
deriving DecidableEq, Repr

structure TimerWheel where
  /-- Ascending by deadline, ties broken by id. -/
  entries : List TimerEntry
  nextId : TimerId
deriving DecidableEq, Repr

/-- The order of the wheel. -/
def TimerEntry.before (a b : TimerEntry) : Bool :=
  a.deadline < b.deadline || (a.deadline == b.deadline && a.id < b.id)

namespace TimerWheel

def new : TimerWheel := ⟨[], 1⟩

/-- Nanoseconds of a duration given in milliseconds. -/
def fromMillis (ms : Nat) : Nat := ms * 1000000

/-- The binary search of the source lands between the entries before the new one and
those after it. -/
def schedule (w : TimerWheel) (now : Nat) (pid : PidId) (afterMs : Nat) : TimerId × TimerWheel :=
  let entry : TimerEntry := ⟨w.nextId, now + fromMillis afterMs, pid⟩
  (w.nextId,
    { entries := w.entries.takeWhile (·.before entry) ++
        entry :: w.entries.dropWhile (·.before entry)
      nextId := w.nextId + 1 })

/-- No effect when the id is unknown. -/
def cancel (w : TimerWheel) (id : TimerId) : TimerWheel :=
  { w with entries := w.entries.eraseP (·.id == id) }

/-- The entries at or before `now`, in order, and the wheel without them. -/
def drainExpired (w : TimerWheel) (now : Nat) : List TimerEntry × TimerWheel :=
  (w.entries.takeWhile fun e => e.deadline ≤ now,
    { w with entries := w.entries.dropWhile fun e => e.deadline ≤ now })

def nextDeadline (w : TimerWheel) : Option Nat := w.entries.head?.map (·.deadline)

/-! ## What the operations do to the entries -/

variable {w : TimerWheel} {now : Nat} {pid : PidId} {afterMs : Nat} {id : TimerId}

@[simp] theorem schedule_nextId : (w.schedule now pid afterMs).2.nextId = w.nextId + 1 := rfl

theorem schedule_perm : (w.schedule now pid afterMs).2.entries.Perm
      (⟨w.nextId, now + fromMillis afterMs, pid⟩ :: w.entries) := by
  refine List.perm_middle.trans (List.Perm.cons _ ?_)
  rw [List.takeWhile_append_dropWhile]

theorem mem_cancel_of_ne {e : TimerEntry} (hne : e.id ≠ id) (h : e ∈ w.entries) :
    e ∈ (w.cancel id).entries :=
  (List.mem_eraseP_of_neg (by simpa using hne)).mpr h

theorem drainExpired_append :
    (w.drainExpired now).1 ++ (w.drainExpired now).2.entries = w.entries :=
  List.takeWhile_append_dropWhile

theorem nextDeadline_eq_none : w.nextDeadline = none ↔ w.entries = [] := by
  simp [nextDeadline]

end TimerWheel

end Fz.Sched
