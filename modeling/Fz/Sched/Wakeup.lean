import Fz.Sched.Receive

/-!
# No lost wakeup

A Ready process is in the run queue, so an empty queue leaves only processes that are
not Ready, and these have nothing to take (`Quiet`).  Every path that makes a process
Ready also queues it, but for one: a destructor that parks on a receive sets the state
of its process as any park does, and nobody looks at that state when the destructors are
done.
-/

namespace Fz.Sched

open Fz.Base

variable {V : Type} {loop : LoopKind} {s s' : Runtime V} {a : Act V} {es : List (Event V)}
  {as : List (Act V)}

def ReadyQueued (s : Runtime V) : Prop :=
  ∀ pid task, s.tasks pid = some task → task.state = .ready → pid ∈ s.runQueue

/-- No destructor parks on a receive while there is mail. -/
def NoDtorParkOverMail (s : Runtime V) (a : Act V) : Prop :=
  ∀ pid site task, a = .receive site → s.phase = .exiting pid → s.tasks pid = some task →
    task.mailbox = []

theorem Ending.mem_queue {pid q : PidId} {queue : List PidId} {task : Process V}
    {timers : TimerWheel} (h : Ending s a pid queue task timers) (hne : q ≠ pid)
    (hq : q ∈ s.runQueue) : q ∈ queue := by
  cases h with
  | nothing _ hqueue _ _ _ =>
    rw [hqueue] at hq
    exact (List.mem_cons.mp hq).resolve_left hne
  | yield _ _ => exact hq
  | receive _ _ => exact hq
  | halt _ _ => exact hq

namespace ReadyQueued

variable {tasks : PidId → Option (Process V)}

theorem update {queue queue' : List PidId} {pid : PidId}
    {task : Process V} (hs : ∀ q u, tasks q = some u → u.state = .ready → q ∈ queue)
    (hother : ∀ q, q ≠ pid → q ∈ queue → q ∈ queue') (hself : task.state = .ready → pid ∈ queue') :
    ∀ q u, Function.update tasks pid (some task) q = some u → u.state = .ready → q ∈ queue' :=
  forall_task_update hself fun q u hq hu hready => hother q hq (hs q u hu hready)

theorem push {queue : List PidId} {pid : PidId}
    {task : Process V} (hs : ∀ q u, tasks q = some u → u.state = .ready → q ∈ queue) :
    ∀ q u, Function.update tasks pid (some task) q = some u → u.state = .ready →
      q ∈ queue ++ [pid] :=
  update hs (fun _ _ hq => List.mem_append_left _ hq) fun _ => List.mem_concat_self

theorem pop {queue rest : List PidId} {pid : PidId}
    {task : Process V} (hs : ∀ q u, tasks q = some u → u.state = .ready → q ∈ queue)
    (hqueue : queue = pid :: rest) (hself : task.state ≠ .ready) :
    ∀ q u, Function.update tasks pid (some task) q = some u → u.state = .ready → q ∈ rest := by
  refine update hs (fun q hq hmem => ?_) fun h => absurd h hself
  rw [hqueue] at hmem
  exact (List.mem_cons.mp hmem).resolve_left hq

theorem keep {queue : List PidId} {pid : PidId}
    {task task' : Process V} (hs : ∀ q u, tasks q = some u → u.state = .ready → q ∈ queue)
    (htask : tasks pid = some task) (hstate : task'.state = .ready → task.state = .ready) :
    ∀ q u, Function.update tasks pid (some task') q = some u → u.state = .ready → q ∈ queue :=
  update hs (fun _ _ hq => hq) fun h => hs pid task htask (hstate h)

end ReadyQueued

theorem receiveParkMatched_state (task : Process V) (timers : TimerWheel) (now : Nat)
    (pid : PidId) (site : ReceiveSite V) : (receiveParkMatched task timers now pid site).1.state =
      if task.mailbox = [] then .blocked else .ready := by
  simp only [receiveParkMatched, List.isEmpty_iff]

theorem Step.readyQueued (h : Step loop s a s' es) (hok : NoDtorParkOverMail s a)
    (hs : ReadyQueued s) : ReadyQueued s' := by
  cases h with
  | tick => exact hs
  | boot _ _ => exact ReadyQueued.push hs
  | start _ => exact hs
  | drain _ => exact hs
  | routed _ => exact hs
  | stale _ _ => exact hs
  | fire _ _ _ _ => exact ReadyQueued.push hs
  | returned _ _ _ => exact hs
  | sleep _ _ _ _ => exact hs
  | scanMiss _ hqueue _ _ _ _ => exact ReadyQueued.pop hs hqueue nofun
  | scanHit _ hqueue _ _ _ _ _ => exact ReadyQueued.pop hs hqueue nofun
  | resume _ hqueue _ _ _ => exact ReadyQueued.pop hs hqueue nofun
  | dropped _ _ => exact hs
  | pushSelf _ _ htask => exact ReadyQueued.keep hs htask id
  | push _ htask _ _ _ => exact ReadyQueued.keep hs htask id
  | hit _ _ _ _ _ => exact ReadyQueued.push hs
  | wake _ _ _ _ => exact ReadyQueued.push hs
  | spawn _ => exact ReadyQueued.push hs
  | requeue hend _ =>
    refine ReadyQueued.update hs (fun q hq hmem => ?_) fun _ => List.mem_concat_self
    exact List.mem_append_left _ (hend.mem_queue hq hmem)
  | exit hend _ _ => exact ReadyQueued.update hs (fun _ hq hmem => hend.mem_queue hq hmem) nofun
  | leave hend hready _ =>
    exact ReadyQueued.update hs (fun _ hq hmem => hend.mem_queue hq hmem)
      fun h => absurd h hready
  | dtorYield _ htask => exact ReadyQueued.keep hs htask id
  | dtorReceive hphase htask =>
    refine ReadyQueued.keep hs htask fun hready => ?_
    rw [receiveParkMatched_state, if_pos (hok _ _ _ rfl hphase htask)] at hready
    cases hready
  | finish _ => exact hs

/-- A Blocked process has nothing to take, a Ready one is queued, and when the queue is
empty no process has a message to take. -/
structure NoLostWakeup (s : Runtime V) : Prop where
  blocked : ∀ pid task park, s.tasks pid = some task → task.state = .blocked →
    task.wait = some park → park.rejects task.mailbox
  ready : ∀ pid task, s.tasks pid = some task → task.state = .ready → pid ∈ s.runQueue
  idle : s.runQueue = [] → ∀ pid task park, s.tasks pid = some task →
    task.wait = some park → park.rejects task.mailbox

/-- Some run of the loop loses a wakeup. -/
def LosesWakeup (loop : LoopKind) : Prop :=
  ∃ as es s, Run (step loop) anyStep (.init : Runtime Nat) as es s ∧ ¬ NoLostWakeup s

-- Process 1 sends itself 10 and halts, and its destructor parks on a receive.
theorem losesWakeup_both : LosesWakeup .jit ∧ LosesWakeup .aot := by
  have hlost : ∀ {s : Runtime Nat} {task : Process Nat} (_ : s.tasks 1 = some task)
      (_ : task.state = .ready) (_ : s.runQueue = []), ¬ NoLostWakeup s := by
    intro s task htask hready hqueue h
    have hmem := h.ready 1 task htask hready
    rw [hqueue] at hmem
    cases hmem
  exact ⟨⟨firstTurn ++
      [.send 1 10, .halt, .receive (catchAll none), .finish], _, _,
      Run.of_runActs (.of_forall (fun _ _ _ => trivial) _) rfl, hlost rfl rfl rfl⟩,
    ⟨firstTurn ++
      [.send 1 10, .halt, .receive (catchAll none), .finish], _, _,
      Run.of_runActs (.of_forall (fun _ _ _ => trivial) _) rfl, hlost rfl rfl rfl⟩⟩

/-- In every run in which no destructor parks over mail, and none sends to its own
parked process in the JIT, no wakeup is lost. -/
theorem run_noLostWakeup
    (hrun : Run (step loop) (fun s a => ProbesSelf loop s a ∧ NoDtorParkOverMail s a)
      .init as es s) : NoLostWakeup s := by
  have hquiet : Quiet s := Run.quiet (fun _ _ h => h.1) hrun
  have hready : ReadyQueued s := by
    refine Run.inv (I := ReadyQueued) ?_ ?_ hrun
    · intro pid task h
      cases h
    · intro s a s' es hs hok hstep
      exact (step_cases hstep).readyQueued hok.2 hs
  refine ⟨?_, hready, ?_⟩
  · intro pid task park htask hblocked hwait
    refine (hquiet pid task htask park hwait).resolve_left ?_
    rw [hblocked]
    nofun
  · intro hempty pid task park htask hwait
    refine (hquiet pid task htask park hwait).resolve_left fun h => ?_
    have hmem := hready pid task htask h
    rw [hempty] at hmem
    cases hmem

-- Process 1 parks on an empty mailbox in its quantum and is Blocked.
theorem run_noLostWakeup_blocked :
    ∃ es s, Run (step .jit) (fun s a => ProbesSelf .jit s a ∧ NoDtorParkOverMail s a)
        .init (firstTurn ++ [.receive (catchAll none)]) es s ∧
      (s.tasks 1).map (·.state) = some .blocked ∧ NoLostWakeup s := by
  have hfirst : ∀ a ∈ firstTurn, ∀ s, ProbesSelf .jit s a ∧ NoDtorParkOverMail s a := by
    intro a ha s
    constructor
    · rintro - pid msg task rfl
      simp [firstTurn, turn] at ha
    · rintro pid site task rfl
      simp [firstTurn, turn] at ha
  obtain ⟨es, s, hrun, hstate⟩ : ∃ es s,
      Run (step .jit) (fun s a => ProbesSelf .jit s a ∧ NoDtorParkOverMail s a)
        .init (firstTurn ++ [.receive (catchAll none)]) es s ∧
      (s.tasks 1).map (·.state) = some .blocked := by
    refine ⟨_, _, .snoc (Run.of_runActs (.of_forall hfirst _) rfl) ⟨by rintro ⟨⟩ _ _ _ ⟨⟩, ?_⟩ rfl,
      rfl⟩
    rintro pid site task - hphase
    cases hphase
  exact ⟨es, s, hrun, hstate, run_noLostWakeup hrun⟩

end Fz.Sched
