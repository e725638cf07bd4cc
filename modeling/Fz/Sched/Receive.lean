import Fz.Base.Run
import Fz.Sched.Step

/-!
# What a receive gets

A parked process that is not Ready has no message its receive accepts: it was parked on
an empty mailbox, or its mail was scanned, and everything that came later was probed.
`Quiet` is that invariant.  It is kept by every step except one: a process that sends to
itself while it has a pending receive, which the JIT does not probe.  Only a destructor
can do that, after an earlier destructor of the same process parked.

A process that parks on a non-empty mailbox is Ready and unscanned until its turn.  In
between the two loops probe messages and fire timers as if it had been scanned, so a
message can overtake an earlier one and an after body can run over accepted mail.
-/

namespace Fz.Sched

open Fz.Base

variable {V : Type} {loop : LoopKind} {s s' : Runtime V} {a : Act V} {es es' : List (Event V)}
  {as : List (Act V)}

/-- The receive accepts none of the mail. -/
def ParkRecord.rejects (park : ParkRecord V) (mailbox : List V) : Prop :=
  ∀ m ∈ mailbox, park.accepts m = false

/-- A pending receive of a task that is not Ready has nothing to take. -/
def Process.Quiet (task : Process V) : Prop :=
  ∀ park, task.wait = some park → task.state = .ready ∨ park.rejects task.mailbox

def Quiet (s : Runtime V) : Prop := ∀ pid task, s.tasks pid = some task → task.Quiet

/-- No process sends to itself while it has a pending receive.  Only the JIT's send
skips the probe. -/
def ProbesSelf (loop : LoopKind) (s : Runtime V) (a : Act V) : Prop :=
  loop = .jit → ∀ pid msg task, a = .send pid msg → s.phase.current = some pid →
    s.tasks pid = some task → task.wait = none

namespace Process

variable {task : Process V}

theorem Quiet.of_wait_none (h : task.wait = none) : task.Quiet := by
  intro park hpark
  rw [h] at hpark
  cases hpark

theorem Quiet.of_ready (h : task.state = .ready) : task.Quiet :=
  fun _ _ => .inl h

theorem Quiet.of_rejects {park : ParkRecord V} (hwait : task.wait = some park)
    (h : park.rejects task.mailbox) : task.Quiet := by
  intro park' hwait'
  cases Option.some.inj (hwait.symm.trans hwait')
  exact .inr h

theorem Quiet.of_mailbox_nil (h : task.mailbox = []) : task.Quiet := by
  intro park _
  refine .inr ?_
  intro m hm
  rw [h] at hm
  cases hm

theorem Quiet.setRunnable (h : task.Quiet) (runnable : Option (Closure V)) :
    { task with runnable }.Quiet := h

theorem Quiet.push {msg : V} (hq : task.Quiet)
    (hmsg : ∀ park, task.wait = some park → park.accepts msg = false) : (task.push msg).Quiet := by
  intro park hwait
  rcases hq park hwait with hready | hrej
  · exact .inl hready
  · refine .inr ?_
    intro m hm
    rcases List.mem_append.mp hm with hm | hm
    · exact hrej m hm
    · rw [List.mem_singleton.mp hm]
      exact hmsg park hwait

theorem receiveParkMatched_quiet (task : Process V) (timers : TimerWheel) (now : Nat)
    (pid : PidId) (site : ReceiveSite V) :
    (receiveParkMatched task timers now pid site).1.Quiet := by
  by_cases hmail : task.mailbox = []
  · exact .of_mailbox_nil hmail
  · refine .of_ready ?_
    simp only [receiveParkMatched, List.isEmpty_iff, hmail, if_false]

theorem Quiet.of_noScan {state : ProcessState} {runnable : Option (Closure V)}
    (h : task.wait = none ∨ task.mailbox = []) : { task with state, runnable }.Quiet := by
  rcases h with h | h
  · exact .of_wait_none h
  · exact .of_mailbox_nil h

end Process

theorem Quiet.update {tasks : PidId → Option (Process V)} {pid : PidId} {task : Process V}
    (hs : ∀ pid task, tasks pid = some task → task.Quiet) (ht : task.Quiet) :
    ∀ q u, Function.update tasks pid (some task) q = some u → u.Quiet :=
  forall_task_update ht fun q u _ hu => hs q u hu

theorem Ending.quiet {pid : PidId} {queue : List PidId} {task : Process V} {timers : TimerWheel}
    (h : Ending s a pid queue task timers) (hs : Quiet s) : task.Quiet := by
  cases h with
  | nothing _ _ _ hscan _ => exact .of_noScan hscan
  | yield _ htask => exact (hs _ _ htask).setRunnable _
  | receive _ _ => exact Process.receiveParkMatched_quiet _ _ _ _ _
  | halt _ htask => exact hs _ _ htask

theorem Step.quiet (h : Step loop s a s' es) (hok : ProbesSelf loop s a) (hs : Quiet s) :
    Quiet s' := by
  cases h with
  | tick => exact hs
  | boot _ _ => exact Quiet.update hs (.of_wait_none rfl)
  | start _ => exact hs
  | drain _ => exact hs
  | routed _ => exact hs
  | stale _ _ => exact hs
  | fire _ _ _ _ => exact Quiet.update hs (.of_wait_none rfl)
  | returned _ _ _ => exact hs
  | sleep _ _ _ _ => exact hs
  | scanMiss _ _ _ hwait _ hrej => exact Quiet.update hs (.of_rejects hwait hrej)
  | scanHit _ _ _ _ _ _ _ => exact Quiet.update hs (.of_wait_none rfl)
  | resume _ _ _ hscan _ => exact Quiet.update hs (.of_noScan hscan)
  | dropped _ _ => exact hs
  | pushSelf hloop hcur htask =>
    have hwait := hok hloop _ _ _ rfl hcur htask
    exact Quiet.update hs (.of_wait_none hwait)
  | push _ htask _ hmsg _ => exact Quiet.update hs ((hs _ _ htask).push hmsg)
  | hit _ _ _ _ _ => exact Quiet.update hs (.of_wait_none rfl)
  | wake _ _ _ _ => exact Quiet.update hs (.of_ready rfl)
  | spawn _ => exact Quiet.update hs (.of_wait_none rfl)
  | requeue _ _ => exact Quiet.update hs (.of_ready rfl)
  | exit _ hwait _ => exact Quiet.update hs (.of_wait_none hwait)
  | leave hend _ _ => exact Quiet.update hs (hend.quiet hs)
  | dtorYield _ htask => exact Quiet.update hs ((hs _ _ htask).setRunnable _)
  | dtorReceive _ _ => exact Quiet.update hs (Process.receiveParkMatched_quiet _ _ _ _ _)
  | finish _ => exact hs

theorem init_quiet : Quiet (.init : Runtime V) := by
  intro pid task h
  cases h

theorem Run.quiet {ok : Runtime V → Act V → Prop} (hok : ∀ s a, ok s a → ProbesSelf loop s a)
    (h : Run (step loop) ok .init as es s) : Quiet s :=
  Run.inv init_quiet (fun _ _ _ _ hs ha hstep => (step_cases hstep).quiet (hok _ _ ha) hs) h

/-! ## First in, first match -/

/-- The mail of a process in order of arrival, the message being sent to it last. -/
def arrivals (task : Process V) (pid : PidId) : Act V → List V
  | .send receiver msg => if receiver = pid then task.mailbox ++ [msg] else task.mailbox
  | _ => task.mailbox

/-- Every message a step delivers is the earliest arrived one the receive accepts, and
the others stay. -/
def TakesFirstMatch (s : Runtime V) (a : Act V) (s' : Runtime V) (es : List (Event V)) : Prop :=
  ∀ pid msg, .delivered pid msg ∈ es →
    ∃ task task' park pre post, s.tasks pid = some task ∧ s'.tasks pid = some task' ∧
      task.wait = some park ∧ arrivals task pid a = pre ++ msg :: post ∧
      park.rejects pre ∧ park.accepts msg = true ∧ task'.mailbox = pre ++ post

/-- No message that a receive accepts is sent to its process while the process is parked
Ready and an accepted message waits there unscanned. -/
def NoOvertake (s : Runtime V) (a : Act V) : Prop :=
  ∀ pid msg task park, a = .send pid msg → s.tasks pid = some task → task.wait = some park →
    task.state = .ready → park.accepts msg = true → park.rejects task.mailbox

theorem Step.delivered_cases {pid : PidId} {msg : V} (h : Step loop s a s' es)
    (hmem : .delivered pid msg ∈ es) :
    (∃ task park pre post, s.tasks pid = some task ∧ task.wait = some park ∧ a = .pop ∧
        task.mailbox = pre ++ msg :: post ∧ park.rejects pre ∧ park.accepts msg = true ∧
        s'.tasks pid = some ⟨.running, pre ++ post, none, none⟩) ∨
      (∃ task park hit, s.tasks pid = some task ∧ task.wait = some park ∧ a = .send pid msg ∧
        park.tryMatch msg = some hit ∧
        s'.tasks pid = some { task.resolve park hit with state := .ready }) := by
  cases h with
  | scanHit _ _ htask hwait hmail hpre hhit =>
    simp only [List.mem_cons, Event.delivered.injEq, reduceCtorEq, List.not_mem_nil,
      or_false] at hmem
    obtain ⟨rfl, rfl⟩ := hmem
    exact .inl ⟨_, _, _, _, htask, hwait, rfl, hmail, hpre,
      ParkRecord.accepts_iff.mpr ⟨_, hhit⟩, Function.update_self ..⟩
  | hit _ htask _ hwait hhit =>
    simp only [List.mem_cons, Event.delivered.injEq, reduceCtorEq, List.not_mem_nil,
      or_false, false_or] at hmem
    obtain ⟨rfl, rfl⟩ := hmem
    exact .inr ⟨_, _, _, htask, hwait, rfl, hhit, Function.update_self ..⟩
  | _ => simp at hmem

theorem Step.takesFirstMatch (h : Step loop s a s' es) (hs : Quiet s) (hok : NoOvertake s a) :
    TakesFirstMatch s a s' es := by
  intro pid msg hmem
  rcases h.delivered_cases hmem with
    ⟨task, park, pre, post, htask, hwait, rfl, hmail, hpre, hacc, htask'⟩ |
    ⟨task, park, hit, htask, hwait, rfl, hhit, htask'⟩
  · exact ⟨task, _, park, pre, post, htask, htask', hwait, hmail, hpre, hacc, rfl⟩
  · have hacc : park.accepts msg = true := ParkRecord.accepts_iff.mpr ⟨hit, hhit⟩
    -- The mail before the sent message is rejected: scanned mail by the invariant.
    have hrej : park.rejects task.mailbox := by
      rcases hs pid task htask park hwait with hready | hrej
      · exact hok pid msg task park rfl htask hwait hready hacc
      · exact hrej
    refine ⟨task, _, park, task.mailbox, [], htask, htask', hwait, ?_, hrej, hacc, ?_⟩
    · simp only [arrivals, if_true]
    · simp only [Process.resolve, List.append_nil]

/-- A receive whose one clause takes any message. -/
def catchAll (after : Option (Int × Closure Nat)) : ReceiveSite Nat :=
  { matcherFn := fun msg _ => (1, [msg]), pinned := [], clauseBodies := [⟨1, 0, []⟩],
    clauseBoundCounts := [1], boundArity := 1, after, matcher_le := fun _ => Nat.le_refl 1 }

/-- One turn of the loop up to the dispatch. -/
def turn : List (Act Nat) := [.drain, .route, .pop]

/-- The first turn, up to the quantum of process 1. -/
def firstTurn : List (Act Nat) := [.boot ⟨0, []⟩, .start] ++ turn

theorem firstTurn_allowed {ok : Runtime Nat → Act Nat → Prop} (hboot : ok .init (.boot ⟨0, []⟩))
    (hstart : ∀ s, ok s .start) (hdrain : ∀ s, ok s .drain)
    (hroute : ∀ s, s.phase = .routing [] → ok s .route) (hpop : ∀ s, s.runQueue = [1] → ok s .pop) :
    Allowed (step .jit) ok .init firstTurn := by
  refine ⟨hboot, ?_⟩
  rintro _ _ ⟨⟩
  refine ⟨hstart _, ?_⟩
  rintro _ _ ⟨⟩
  refine ⟨hdrain _, ?_⟩
  rintro _ _ ⟨⟩
  refine ⟨hroute _ rfl, ?_⟩
  rintro _ _ ⟨⟩
  exact ⟨hpop _ rfl, fun _ _ _ => trivial⟩

/-- Process 1 spawns process 2, sends itself 10 and parks.  It is Ready, unscanned, and
process 2 runs first. -/
def parkedOverMail (after : Option (Int × Closure Nat)) : List (Act Nat) :=
  firstTurn ++ [.spawn ⟨0, []⟩, .send 1 10, .receive (catchAll after)]

/-- Some run of the loop delivers a message that is not the earliest match. -/
def Overtakes (loop : LoopKind) : Prop :=
  ∃ as es s a s' es', Run (step loop) anyStep (.init : Runtime Nat) as es s ∧
    step loop s a = some (s', es') ∧ ¬ TakesFirstMatch s a s' es'

/-- Process 1 spawns process 2 and parks on an empty mailbox.  Process 2 runs. -/
def parkedEmpty : List (Act Nat) :=
  firstTurn ++ [.spawn ⟨0, []⟩, .receive (catchAll none)] ++ turn

/-- Every after body a step makes runnable belongs to a receive that accepts none of the
mail. -/
def FiresOnlyUnmatched (s : Runtime V) (es : List (Event V)) : Prop :=
  ∀ pid, .fired pid ∈ es → ∃ task park, s.tasks pid = some task ∧ task.wait = some park ∧
    park.rejects task.mailbox

/-- No timer is routed to a process that is parked Ready while an accepted message waits
there unscanned. -/
def NoEarlyFire (s : Runtime V) (a : Act V) : Prop :=
  ∀ entry rest task park, a = .route → s.phase = .routing (entry :: rest) →
    s.tasks entry.pid = some task → task.wait = some park →
    park.afterTimerId = some entry.id → task.state = .ready → park.rejects task.mailbox

theorem Step.firesOnlyUnmatched (h : Step loop s a s' es) (hs : Quiet s)
    (hok : NoEarlyFire s a) : FiresOnlyUnmatched s es := by
  intro pid hmem
  cases h with
  | fire hphase htask hwait htimer =>
    simp only [List.mem_cons, Event.fired.injEq, List.not_mem_nil, or_false] at hmem
    subst hmem
    refine ⟨_, _, htask, hwait, ?_⟩
    rcases hs _ _ htask _ hwait with hready | hrej
    · exact hok _ _ _ _ rfl hphase htask hwait htimer hready
    · exact hrej
  | _ => simp at hmem

/-- Some run of the loop starts an after body over mail that the receive accepts. -/
def FiresOverMail (loop : LoopKind) : Prop :=
  ∃ as es s a s' es', Run (step loop) anyStep (.init : Runtime Nat) as es s ∧
    step loop s a = some (s', es') ∧ ¬ FiresOnlyUnmatched s es'

/-- Process 1 parks on an empty mailbox with `after 0` and the wheel is drained. -/
def expiredEmpty : List (Act Nat) :=
  firstTurn ++ [.receive (catchAll (some (0, ⟨2, []⟩))), .drain]

end Fz.Sched
