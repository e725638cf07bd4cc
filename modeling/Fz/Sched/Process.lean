import Fz.Sched.Timer

/-!
# Processes and the selective-receive primitives

What the scheduler sees of a process: its state, its mailbox, the park record of a
pending receive, and the closure to resume.  Over it the operations both run loops
share: the sender-side probe, the initial scan, the after-timer fire, and the park.

Messages are values of an arbitrary type `V`.  A message is copied from heap to heap on
its way, which changes where it lives and not what it is, so the copy is the value
itself here.  Collections, budgets and counters do not touch what is modelled.
-/

namespace Fz.Sched

variable {V : Type}

inductive ProcessState where
  | new | ready | running | blocked | exited
deriving DecidableEq, Repr

/-- A closure the scheduler resumes: its code and its environment. -/
structure Closure (V : Type) where
  code : Nat
  captures : List V
deriving DecidableEq, Repr

/-- A clause body before a message is bound.  Its environment starts with the outer
continuation. -/
structure OutcomeTemplate (V : Type) where
  code : Nat
  outerCont : V
  captures : List V
deriving DecidableEq, Repr

/-- Bound values go between the outer continuation and the captures. -/
def materializeOutcomeClosure (template : OutcomeTemplate V) (boundVals : List V) : Closure V :=
  { code := template.code, captures := template.outerCont :: (boundVals ++ template.captures) }

/-! ## The park record -/

structure ParkRecord (V : Type) where
  /-- `0` is a miss, `k + 1` is clause `k`.  The second answer is the filled buffer. -/
  matcherFn : V → List V → Nat × List V
  pinned : List V
  clauseBodies : List (OutcomeTemplate V)
  clauseBoundCounts : List Nat
  boundArity : Nat
  /-- `none` without an `after`, and for a negative timeout. -/
  afterDeadlineMs : Option Nat
  afterCont : Option (Closure V)
  afterTimerId : Option TimerId
  /-- The matcher names clauses of this receive only. -/
  matcher_le : ∀ msg, (matcherFn msg pinned).1 ≤ clauseBodies.length
  /-- A receive with a timer has a body to run when it fires. -/
  after_isSome : afterTimerId.isSome → afterCont.isSome

namespace ParkRecord

/-- The winning clause and its bound values. -/
def tryMatch (park : ParkRecord V) (msg : V) : Option (Fin park.clauseBodies.length × List V) :=
  match h : park.matcherFn msg park.pinned with
  | (0, _) => none
  | (k + 1, out) =>
    let boundCount := (park.clauseBoundCounts[k]?).getD park.boundArity
    some (⟨k, by have := park.matcher_le msg; rw [h] at this; exact this⟩, out.take boundCount)

def accepts (park : ParkRecord V) (msg : V) : Bool := (park.tryMatch msg).isSome

/-- The closure a hit resumes. -/
def outcomeClosure (park : ParkRecord V) (hit : Fin park.clauseBodies.length × List V) :
    Closure V :=
  materializeOutcomeClosure (park.clauseBodies.get hit.1) hit.2

/-- The wheel after a hit: the timer of the receive, if it has one, is cancelled. -/
def cancelTimer (park : ParkRecord V) (timers : TimerWheel) : TimerWheel :=
  match park.afterTimerId with
  | some id => timers.cancel id
  | none => timers

theorem accepts_iff {park : ParkRecord V} {msg : V} :
    park.accepts msg = true ↔ ∃ hit, park.tryMatch msg = some hit :=
  Option.isSome_iff_exists

theorem accepts_eq_false_iff {park : ParkRecord V} {msg : V} :
    park.accepts msg = false ↔ park.tryMatch msg = none := by
  simp [accepts]

end ParkRecord

structure Process (V : Type) where
  state : ProcessState
  mailbox : List V
  wait : Option (ParkRecord V)
  runnable : Option (Closure V)

/-! ## Sender-side probe -/

inductive ProbeOutcome where
  | hit | miss
deriving DecidableEq, Repr

/-- The message joins the mailbox. -/
def Process.push (task : Process V) (msg : V) : Process V :=
  { task with mailbox := task.mailbox ++ [msg] }

/-- What a matcher hit does to the task: the receive is over and its clause is next. -/
def Process.resolve (task : Process V) (park : ParkRecord V)
    (hit : Fin park.clauseBodies.length × List V) : Process V :=
  { task with wait := none, runnable := some (park.outcomeClosure hit) }

def probeSender (task : Process V) (timers : TimerWheel) (msg : V) :
    ProbeOutcome × Process V × TimerWheel :=
  match task.wait with
  | some park =>
    match park.tryMatch msg with
    | some hit =>
      (.hit, { task.resolve park hit with state := .ready }, park.cancelTimer timers)
    | none => (.miss, task.push msg, timers)
  | none => (.miss, task.push msg, timers)

theorem probeSender_hit {task : Process V} {park : ParkRecord V} {msg : V}
    {hit : Fin park.clauseBodies.length × List V} (timers : TimerWheel)
    (hwait : task.wait = some park) (hhit : park.tryMatch msg = some hit) :
    probeSender task timers msg =
      (.hit, { task.resolve park hit with state := .ready }, park.cancelTimer timers) := by
  unfold probeSender
  split
  next park' hwait' =>
    cases Option.some.inj (hwait.symm.trans hwait')
    rw [hhit]
  next hnone => exact absurd (hwait.symm.trans hnone) (by simp)

theorem probeSender_miss {task : Process V} {msg : V} (timers : TimerWheel)
    (hmiss : ∀ park, task.wait = some park → park.tryMatch msg = none) :
    probeSender task timers msg = (.miss, task.push msg, timers) := by
  unfold probeSender
  split
  next park hwait => rw [hmiss park hwait]
  next => rfl

/-! ## Initial scan -/

inductive ScanOutcome (V : Type) where
  /-- The message that hit. -/
  | hit (msg : V)
  | miss
  | notApplicable

/-- Walk the mailbox, moving rejected messages to `scanned`, then push these back in
front from the last to the first.  Answers the hit and the mailbox left. -/
def scanMailbox (park : ParkRecord V) (scanned : List V) :
    List V → Option (V × Fin park.clauseBodies.length × List V) × List V
  | [] => (none, scanned.foldr List.cons [])
  | msg :: rest =>
    match park.tryMatch msg with
    | some hit => (some (msg, hit), scanned.foldr List.cons rest)
    | none => scanMailbox park (scanned ++ [msg]) rest

def initialScan (task : Process V) (timers : TimerWheel) : ScanOutcome V × Process V × TimerWheel :=
  match task.wait with
  | none => (.notApplicable, task, timers)
  | some park =>
    if task.mailbox.isEmpty then (.notApplicable, task, timers)
    else
      match scanMailbox park [] task.mailbox with
      | (some (msg, hit), mailbox) =>
        (.hit msg, { task.resolve park hit with mailbox }, park.cancelTimer timers)
      | (none, mailbox) => (.miss, { task with mailbox, state := .blocked }, timers)

/-! ## After-timer fire -/

/-- The task after the fire, or `none` when it is not parked on this timer any more. -/
def fireAfterTimer (task : Process V) (id : TimerId) : Option (Process V) :=
  match task.wait with
  | none => none
  | some park =>
    if park.afterTimerId = some id then
      some { task with wait := none, runnable := park.afterCont, state := .ready }
    else none

/-! ## The park -/

/-- A receive as compiled code lays it out.  A receive with an `after` gives its timeout
in milliseconds, which may be negative at run time, and its body. -/
structure ReceiveSite (V : Type) where
  matcherFn : V → List V → Nat × List V
  pinned : List V
  clauseBodies : List (OutcomeTemplate V)
  clauseBoundCounts : List Nat
  boundArity : Nat
  after : Option (Int × Closure V)
  matcher_le : ∀ msg, (matcherFn msg pinned).1 ≤ clauseBodies.length

namespace ReceiveSite

/-- The timeout, when there is one to wait for. -/
def deadlineMs (site : ReceiveSite V) : Option Nat :=
  match site.after with
  | some (timeout, _) => if timeout < 0 then none else some timeout.toNat
  | none => none

theorem after_isSome_of_deadlineMs (site : ReceiveSite V) (h : site.deadlineMs.isSome) :
    (site.after.map Prod.snd).isSome := by
  unfold deadlineMs at h
  split at h
  next heq => simp [heq]
  · cases h

def toPark (site : ReceiveSite V) (timer : Option TimerId)
    (h : timer.isSome → site.deadlineMs.isSome) : ParkRecord V :=
  { matcherFn := site.matcherFn
    pinned := site.pinned
    clauseBodies := site.clauseBodies
    clauseBoundCounts := site.clauseBoundCounts
    boundArity := site.boundArity
    afterDeadlineMs := site.deadlineMs
    afterCont := site.after.map Prod.snd
    afterTimerId := timer
    matcher_le := site.matcher_le
    after_isSome := fun ht => site.after_isSome_of_deadlineMs (h ht) }

end ReceiveSite

/-- Arm the timer of a receive, if it has one to wait for. -/
def armTimer (site : ReceiveSite V) (timers : TimerWheel) (now : Nat) (pid : PidId) :
    Option TimerId × TimerWheel :=
  match site.deadlineMs with
  | some ms => let (id, timers) := timers.schedule now pid ms; (some id, timers)
  | none => (none, timers)

theorem armTimer_isSome (site : ReceiveSite V) (timers : TimerWheel) (now : Nat) (pid : PidId)
    (h : (armTimer site timers now pid).1.isSome) : site.deadlineMs.isSome := by
  unfold armTimer at h
  split at h
  next heq => simp [heq]
  · cases h

/-- `fz_receive_park_matched`.  With mail already there the task stays Ready, so that the
scheduler scans it. -/
def receiveParkMatched (task : Process V) (timers : TimerWheel) (now : Nat) (pid : PidId)
    (site : ReceiveSite V) : Process V × TimerWheel :=
  let park := site.toPark (armTimer site timers now pid).1 (armTimer_isSome site timers now pid)
  ({ task with
      wait := some park
      state := if task.mailbox.isEmpty then .blocked else .ready },
    (armTimer site timers now pid).2)

end Fz.Sched
