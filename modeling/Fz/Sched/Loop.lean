import Fz.Sched.Process
import Mathlib.Logic.Function.Basic

/-!
# The two run loops

The scheduler state and one step of it, for the loop of the JIT (`run_until_idle`) and
for the loop of compiled executables (`aot_run_queue_loop`).  Both are single-worker:
drain the expired timers, pop a pid, run it for one quantum, sort it by the state it
comes back in.

What a process does in its quantum is not the scheduler's choice, so a step takes an
action: the process sends, spawns, yields in mid-flight, parks on a receive or halts.  A
process that halts runs its pending destructors before its quantum is over, and these
are code like any other.  Time passes between any two steps.

The JIT takes the running process out of the registry for its quantum.  Only the process
itself could be looked up there in the meantime, and it is asked for by comparing pids
first, so here it stays in.
-/

namespace Fz.Sched

variable {V : Type}

inductive LoopKind where
  | jit | aot
deriving DecidableEq, Repr

/-- Where the loop stands. -/
inductive Phase where
  /-- Not in the loop: before it was called, or after it returned. -/
  | idle
  /-- At the head of the loop. -/
  | top
  /-- Routing the entries the wheel handed over. -/
  | routing (expired : List TimerEntry)
  /-- About to pick the next process. -/
  | pop
  | running (pid : PidId)
  /-- The process halted and its destructors run. -/
  | exiting (pid : PidId)
deriving DecidableEq, Repr

structure Runtime (V : Type) where
  tasks : PidId → Option (Process V)
  runQueue : List PidId
  nextPid : PidId
  timers : TimerWheel
  now : Nat
  phase : Phase

inductive Act (V : Type) where
  | tick (elapsed : Nat)
  /-- The host enters the main function as a task. -/
  | boot (main : Closure V)
  /-- The host calls the loop. -/
  | start
  | drain
  | route
  | pop
  | send (receiver : PidId) (msg : V)
  | spawn (entry : Closure V)
  | yield (cont : Closure V)
  | receive (site : ReceiveSite V)
  | halt
  /-- The last destructor returned. -/
  | finish

inductive Event (V : Type) where
  /-- The message was taken for the process. -/
  | accepted (pid : PidId) (msg : V)
  | dropped (pid : PidId) (msg : V)
  /-- The message was handed to the process's receive. -/
  | delivered (pid : PidId) (msg : V)
  /-- The after body of the process's receive is next. -/
  | fired (pid : PidId)
  | resumed (pid : PidId) (closure : Closure V)
  | exited (pid : PidId)
  | returned
deriving DecidableEq

namespace Runtime

def init : Runtime V :=
  { tasks := fun _ => none, runQueue := [], nextPid := 1, timers := .new, now := 0, phase := .idle }

def setTask (s : Runtime V) (pid : PidId) (task : Process V) : Runtime V :=
  { s with tasks := Function.update s.tasks pid (some task) }

def enqueue (s : Runtime V) (pid : PidId) : Runtime V :=
  { s with runQueue := s.runQueue ++ [pid] }

/-- A fresh task that enters at the given closure, queued. -/
def spawnClosure (s : Runtime V) (state : ProcessState) (entry : Closure V) : Runtime V :=
  { s with
    tasks := Function.update s.tasks s.nextPid
      (some { state, mailbox := [], wait := none, runnable := some entry })
    runQueue := s.runQueue ++ [s.nextPid]
    nextPid := s.nextPid + 1 }

end Runtime

theorem forall_task_update {P : PidId → Process V → Prop} {tasks : PidId → Option (Process V)}
    {pid : PidId} {task : Process V} (hpid : P pid task)
    (h : ∀ q u, q ≠ pid → tasks q = some u → P q u) :
    ∀ q u, Function.update tasks pid (some task) q = some u → P q u := by
  intro q u hq
  by_cases heq : q = pid
  · subst heq
    rw [Function.update_self] at hq
    cases hq
    exact hpid
  · rw [Function.update_of_ne heq] at hq
    exact h q u heq hq

/-! ## Sending -/

/-- The send of the JIT.  It probes the matcher itself.  A message of a process to itself
joins the mailbox without a look at the process. -/
def sendVia (s : Runtime V) (sender receiver : PidId) (msg : V) : Runtime V × List (Event V) :=
  match s.tasks receiver with
  | none => (s, [.dropped receiver msg])
  | some task =>
    if sender = receiver then
      (s.setTask receiver (task.push msg), [.accepted receiver msg])
    else if task.state = .exited then (s, [.dropped receiver msg])
    else
      match task.wait with
      | some park =>
        match park.tryMatch msg with
        | some hit =>
          (({ s with timers := park.cancelTimer s.timers }.setTask receiver
              { task.resolve park hit with state := .ready }).enqueue receiver,
            [.accepted receiver msg, .delivered receiver msg])
        | none => (s.setTask receiver (task.push msg), [.accepted receiver msg])
      | none =>
        if task.state = .blocked then
          ((s.setTask receiver { task.push msg with state := .ready }).enqueue receiver,
            [.accepted receiver msg])
        else (s.setTask receiver (task.push msg), [.accepted receiver msg])

/-- The send of compiled executables.  It goes through the shared probe. -/
def aotSendHook (s : Runtime V) (receiver : PidId) (msg : V) : Runtime V × List (Event V) :=
  match s.tasks receiver with
  | none => (s, [.dropped receiver msg])
  | some task =>
    if task.state = .exited then (s, [.dropped receiver msg])
    else if task.wait.isSome then
      match probeSender task s.timers msg with
      | (.hit, task, timers) =>
        (({ s with timers }.setTask receiver task).enqueue receiver,
          [.accepted receiver msg, .delivered receiver msg])
      | (.miss, task, timers) =>
        ({ s with timers }.setTask receiver task, [.accepted receiver msg])
    else if task.state = .blocked then
      ((s.setTask receiver { task.push msg with state := .ready }).enqueue receiver,
        [.accepted receiver msg])
    else (s.setTask receiver (task.push msg), [.accepted receiver msg])

def send (loop : LoopKind) (s : Runtime V) (sender receiver : PidId) (msg : V) :
    Runtime V × List (Event V) :=
  match loop with
  | .jit => sendVia s sender receiver msg
  | .aot => aotSendHook s receiver msg

/-! ## After a quantum -/

/-- What the JIT does with a task that came back.  `next_frame` is null after every
quantum, so a task without a pending receive is done. -/
def Jit.postQuantum (s : Runtime V) (pid : PidId) (task : Process V) : Runtime V × List (Event V) :=
  if task.state = .running ∧ task.runnable.isSome then
    ({ (s.setTask pid { task with state := .ready }).enqueue pid with phase := .top }, [])
  else if task.wait.isNone then
    ({ s.setTask pid { task with state := .exited } with phase := .exiting pid }, [.exited pid])
  else if task.state = .blocked then ({ s.setTask pid task with phase := .top }, [])
  else if task.state = .ready then
    ({ (s.setTask pid task).enqueue pid with phase := .top }, [])
  else if task.state = .running then
    ({ (s.setTask pid { task with state := .ready }).enqueue pid with phase := .top }, [])
  else ({ s.setTask pid task with phase := .top }, [])

/-- The same for compiled executables. -/
def Aot.postQuantum (s : Runtime V) (pid : PidId) (task : Process V) : Runtime V × List (Event V) :=
  if task.state = .running ∧ task.runnable.isSome then
    ({ (s.setTask pid { task with state := .ready }).enqueue pid with phase := .top }, [])
  else if task.state = .ready then
    ({ (s.setTask pid task).enqueue pid with phase := .top }, [])
  else if task.state = .running ∧ task.wait.isNone then
    ({ s.setTask pid { task with state := .exited } with phase := .exiting pid }, [.exited pid])
  else ({ s.setTask pid task with phase := .top }, [])

def postQuantum (loop : LoopKind) (s : Runtime V) (pid : PidId) (task : Process V) :
    Runtime V × List (Event V) :=
  match loop with
  | .jit => Jit.postQuantum s pid task
  | .aot => Aot.postQuantum s pid task

/-! ## Dispatch -/

/-- The closure of a dispatched task is taken and resumed.  Without one the quantum is
over at once. -/
def resumeRunnable (loop : LoopKind) (s : Runtime V) (pid : PidId) (task : Process V)
    (events : List (Event V)) : Runtime V × List (Event V) :=
  match task.runnable with
  | some closure =>
    ({ s.setTask pid { task with runnable := none } with phase := .running pid },
      events ++ [.resumed pid closure])
  | none =>
    let (s, more) := postQuantum loop s pid task
    (s, events ++ more)

/-- A popped task becomes Running, its mail is scanned if it waits for some, and it is
resumed.  After a miss the JIT still sorts the task by its state, and the other loop
does not. -/
def dispatch (loop : LoopKind) (s : Runtime V) (pid : PidId) (task : Process V) :
    Runtime V × List (Event V) :=
  match initialScan { task with state := .running } s.timers with
  | (.hit msg, task, timers) =>
    resumeRunnable loop { s with timers } pid task [.delivered pid msg]
  | (.notApplicable, task, timers) => resumeRunnable loop { s with timers } pid task []
  | (.miss, task, timers) =>
    match loop with
    | .jit => Jit.postQuantum { s with timers } pid task
    | .aot => ({ { s with timers }.setTask pid task with phase := .top }, [])

/-- One expired entry: the task is woken if it is still parked on that timer. -/
def routeEntry (s : Runtime V) (entry : TimerEntry) : Runtime V × List (Event V) :=
  match s.tasks entry.pid with
  | none => (s, [])
  | some task =>
    match fireAfterTimer task entry.id with
    | some task => ((s.setTask entry.pid task).enqueue entry.pid, [.fired entry.pid])
    | none => (s, [])

/-- The run queue is empty.  The JIT returns.  The other loop sleeps to the next deadline
and returns when there is none. -/
def emptyQueue (loop : LoopKind) (s : Runtime V) : Runtime V × List (Event V) :=
  match loop with
  | .jit => ({ s with phase := .idle }, [.returned])
  | .aot =>
    match s.timers.nextDeadline with
    | some deadline => ({ s with now := max s.now deadline, phase := .top }, [])
    | none => ({ s with phase := .idle }, [.returned])

/-- The main task.  A compiled executable sets one up, once, and leaves it New. -/
def boot (loop : LoopKind) (s : Runtime V) (main : Closure V) : Option (Runtime V) :=
  match loop with
  | .jit => some (s.spawnClosure .ready main)
  | .aot => if s.nextPid = 1 then some (s.spawnClosure .new main) else none

/-! ## One step -/

/-- The process whose code runs. -/
def Phase.current : Phase → Option PidId
  | .running pid => some pid
  | .exiting pid => some pid
  | _ => none

/-- Code of the current process changed its task and ended its part.  In a quantum the
task is sorted now; among destructors the next one goes on. -/
def endPart (loop : LoopKind) (s : Runtime V) (pid : PidId) (task : Process V) :
    Runtime V × List (Event V) :=
  match s.phase with
  | .running _ => postQuantum loop s pid task
  | _ => (s.setTask pid task, [])

/-- One step of the loop, or `none` when the action is not possible now. -/
def step (loop : LoopKind) (s : Runtime V) : Act V → Option (Runtime V × List (Event V))
  | .tick elapsed => some ({ s with now := s.now + elapsed }, [])
  | .boot main =>
    match s.phase with
    | .idle => (boot loop s main).map (·, [])
    | _ => none
  | .start =>
    match s.phase with
    | .idle => some ({ s with phase := .top }, [])
    | _ => none
  | .drain =>
    match s.phase with
    | .top =>
      let (expired, timers) := s.timers.drainExpired s.now
      some ({ s with timers, phase := .routing expired }, [])
    | _ => none
  | .route =>
    match s.phase with
    | .routing [] => some ({ s with phase := .pop }, [])
    | .routing (entry :: rest) => some (routeEntry { s with phase := .routing rest } entry)
    | _ => none
  | .pop =>
    match s.phase with
    | .pop =>
      match s.runQueue with
      | [] => some (emptyQueue loop s)
      | pid :: rest =>
        (s.tasks pid).map (dispatch loop { s with runQueue := rest } pid)
    | _ => none
  | .send receiver msg => s.phase.current.map (send loop s · receiver msg)
  | .spawn entry => s.phase.current.map fun _ => (s.spawnClosure .ready entry, [])
  | .yield cont => do
      let pid ← s.phase.current
      let task ← s.tasks pid
      some (endPart loop s pid { task with runnable := some cont })
  | .receive site => do
      let pid ← s.phase.current
      let task ← s.tasks pid
      let (task, timers) := receiveParkMatched task s.timers s.now pid site
      some (endPart loop { s with timers } pid task)
  | .halt =>
    match s.phase with
    | .running pid => (s.tasks pid).map (postQuantum loop s pid)
    | _ => none
  | .finish =>
    match s.phase with
    | .exiting _ => some ({ s with phase := .top }, [])
    | _ => none

end Fz.Sched
