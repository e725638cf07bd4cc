import Fz.Sched.Receive
import Mathlib.Data.List.Nodup

/-!
# Run-queue discipline

In a well-behaved run the queue holds each pid once, and only pids with something to do.
`Process.Ok` says what a task looks like in each state, and `QueueInv` ties the states
to the queue and to the process whose code runs.

Two kinds of step break it.  A message or a timer that reaches a process parked Ready
queues it a second time.  A destructor that parks gives an exited process a state it can
be woken from.
-/

namespace Fz.Sched

open Fz.Base Function

variable {V : Type} {loop : LoopKind} {s s' : Runtime V} {a : Act V} {es : List (Event V)}
  {as : List (Act V)}

/-- What a task looks like in each state. -/
def Process.Ok (task : Process V) : Prop :=
  match task.state with
  | .new => task.wait = none ∧ task.runnable.isSome
  | .ready =>
    task.wait = none ∧ task.runnable.isSome ∨
      task.wait.isSome ∧ task.runnable = none ∧ task.mailbox ≠ []
  | .running => task.wait = none ∧ task.runnable = none
  | .blocked => task.wait.isSome ∧ task.runnable = none
  | .exited => task.wait = none

/-- The states a queued task can be in. -/
def ProcessState.queueable (state : ProcessState) : Prop := state = .ready ∨ state = .new

structure QueueInv (s : Runtime V) : Prop where
  ok : ∀ pid task, s.tasks pid = some task → task.Ok
  fresh : Fresh s
  nodup : s.runQueue.Nodup
  queued : ∀ pid ∈ s.runQueue, ∃ task, s.tasks pid = some task ∧ task.state.queueable
  running : ∀ pid, s.phase = .running pid → ∃ task, s.tasks pid = some task ∧ task.state = .running
  exiting : ∀ pid, s.phase = .exiting pid → ∃ task, s.tasks pid = some task ∧ task.state = .exited

/-- No accepted message and no timer reaches a process that is parked Ready, and no
destructor parks on a receive. -/
structure WakesOnce (s : Runtime V) (a : Act V) : Prop where
  send : ∀ pid msg task park, a = .send pid msg → s.tasks pid = some task →
    task.wait = some park → task.state = .ready → park.accepts msg = false
  timer : ∀ entry rest task park, a = .route → s.phase = .routing (entry :: rest) →
    s.tasks entry.pid = some task → task.wait = some park →
    park.afterTimerId = some entry.id → task.state ≠ .ready
  dtor : ∀ site pid, a = .receive site → s.phase ≠ .exiting pid

namespace QueueInv

theorem not_mem (hs : QueueInv s) {pid : PidId} {task : Process V}
    (htask : s.tasks pid = some task) (hstate : ¬ task.state.queueable) : pid ∉ s.runQueue := by
  intro hmem
  obtain ⟨task', htask', hq⟩ := hs.queued pid hmem
  cases Option.some.inj (htask.symm.trans htask')
  exact hstate hq

theorem running_task (hs : QueueInv s) {pid : PidId} {task : Process V}
    (hphase : s.phase = .running pid) (htask : s.tasks pid = some task) :
    task.state = .running ∧ task.wait = none := by
  obtain ⟨u, hu, hrun⟩ := hs.running pid hphase
  cases Option.some.inj (htask.symm.trans hu)
  have hok := hs.ok pid task htask
  unfold Process.Ok at hok
  rw [hrun] at hok
  exact ⟨hrun, hok.1⟩

theorem current (hs : QueueInv s) {pid : PidId} {task : Process V}
    (hcur : s.phase.current = some pid) (htask : s.tasks pid = some task) :
    task.wait = none ∧ task.state ≠ .blocked := by
  have hstate : task.state = .running ∨ task.state = .exited := by
    unfold Phase.current at hcur
    split at hcur
    next q hphase =>
      cases hcur
      obtain ⟨task', htask', hrun⟩ := hs.running pid hphase
      cases Option.some.inj (htask.symm.trans htask')
      exact .inl hrun
    next q hphase =>
      cases hcur
      obtain ⟨task', htask', hexit⟩ := hs.exiting pid hphase
      cases Option.some.inj (htask.symm.trans htask')
      exact .inr hexit
    · cases hcur
  have hok := hs.ok pid task htask
  unfold Process.Ok at hok
  rcases hstate with h | h
  · rw [h] at hok ⊢
    exact ⟨hok.1, nofun⟩
  · rw [h] at hok ⊢
    exact ⟨hok, nofun⟩

variable {task task' : Process V}

theorem update {pid : PidId} (hs : QueueInv s)
    (htask : s.tasks pid = some task) (htasks : s'.tasks = Function.update s.tasks pid (some task'))
    (hnext : s'.nextPid = s.nextPid) (hok : task'.Ok) (hnodup : s'.runQueue.Nodup)
    (hqueue : ∀ q ∈ s'.runQueue, q ≠ pid → q ∈ s.runQueue)
    (hself : pid ∈ s'.runQueue → task'.state.queueable)
    (hrunning : ∀ q, s'.phase = .running q → ∃ u, s'.tasks q = some u ∧ u.state = .running)
    (hexiting : ∀ q, s'.phase = .exiting q → ∃ u, s'.tasks q = some u ∧ u.state = .exited) :
    QueueInv s' where
  ok := by
    rw [htasks]
    exact forall_task_update hok fun q u _ hu => hs.ok q u hu
  fresh := by
    intro q hq
    rw [htasks]
    exact hs.fresh.update htask q (hnext ▸ hq)
  nodup := hnodup
  queued := by
    intro q hq
    rw [htasks]
    by_cases hne : q = pid
    · subst hne
      exact ⟨task', update_self .., hself hq⟩
    · rw [update_of_ne hne]
      exact hs.queued q (hqueue q hq hne)
  running := hrunning
  exiting := hexiting

theorem phase_keep {tasks : PidId → Option (Process V)} {pid q : PidId}
    {state : ProcessState} (htask : tasks pid = some task)
    (hkeep : task.state = state → task'.state = state)
    (h : ∃ u, tasks q = some u ∧ u.state = state) :
    ∃ u, Function.update tasks pid (some task') q = some u ∧ u.state = state := by
  obtain ⟨u, hu, hstate⟩ := h
  by_cases hq : q = pid
  · subst hq
    cases Option.some.inj (htask.symm.trans hu)
    exact ⟨task', update_self .., hkeep hstate⟩
  · exact ⟨u, by rw [update_of_ne hq, hu], hstate⟩

theorem enqueue {pid : PidId} (hs : QueueInv s)
    (htask : s.tasks pid = some task) (htasks : s'.tasks = Function.update s.tasks pid (some task'))
    (hnext : s'.nextPid = s.nextPid) (hqueue : s'.runQueue = s.runQueue ++ [pid])
    (hphase : s'.phase = s.phase ∨ s'.phase.current = none)
    (hblocked : task.state = .blocked) (hok : task'.Ok) (hready : task'.state = .ready) :
    QueueInv s' := by
  have hnot : pid ∉ s.runQueue :=
    hs.not_mem htask (by rw [hblocked]; simp [ProcessState.queueable])
  refine hs.update htask htasks hnext hok ?_ ?_ (fun _ => .inl hready) ?_ ?_
  · rw [hqueue, ← List.concat_eq_append]
    exact List.Nodup.concat hnot hs.nodup
  · intro q hq hne
    rw [hqueue] at hq
    exact (List.mem_append.mp hq).resolve_right fun h => hne (List.mem_singleton.mp h)
  · intro q hq
    rw [htasks]
    rcases hphase with h | h
    · exact phase_keep htask (by rw [hblocked]; nofun) (hs.running q (h ▸ hq))
    · rw [hq] at h
      cases h
  · intro q hq
    rw [htasks]
    rcases hphase with h | h
    · exact phase_keep htask (by rw [hblocked]; nofun) (hs.exiting q (h ▸ hq))
    · rw [hq] at h
      cases h

theorem keep {pid : PidId} (hs : QueueInv s)
    (htask : s.tasks pid = some task) (htasks : s'.tasks = Function.update s.tasks pid (some task'))
    (hnext : s'.nextPid = s.nextPid) (hqueue : s'.runQueue = s.runQueue)
    (hphase : s'.phase = s.phase) (hok : task'.Ok) (hstate : task'.state = task.state) :
    QueueInv s' := by
  refine hs.update htask htasks hnext hok ?_ ?_ ?_ ?_ ?_
  · rw [hqueue]
    exact hs.nodup
  · intro q hq _
    exact hqueue ▸ hq
  · intro hmem
    obtain ⟨u, hu, hq⟩ := hs.queued pid (hqueue ▸ hmem)
    cases Option.some.inj (htask.symm.trans hu)
    rw [hstate]
    exact hq
  · intro q hq
    rw [htasks]
    exact phase_keep htask (fun h => hstate.trans h) (hs.running q (hphase ▸ hq))
  · intro q hq
    rw [htasks]
    exact phase_keep htask (fun h => hstate.trans h) (hs.exiting q (hphase ▸ hq))

theorem rephase (hs : QueueInv s) (htasks : s'.tasks = s.tasks) (hnext : s'.nextPid = s.nextPid)
    (hqueue : s'.runQueue = s.runQueue) (hphase : s'.phase.current = none) : QueueInv s' where
  ok := htasks ▸ hs.ok
  fresh := fun q hq => htasks ▸ hs.fresh q (hnext ▸ hq)
  nodup := hqueue ▸ hs.nodup
  queued := fun q hq => htasks ▸ hs.queued q (hqueue ▸ hq)
  running := fun q hq => by
    rw [hq] at hphase
    cases hphase
  exiting := fun q hq => by
    rw [hq] at hphase
    cases hphase

/-- A task of a fresh pid joins the queue. -/
theorem spawnClosure (hs : QueueInv s) {state : ProcessState} (hstate : state.queueable)
    (entry : Closure V) : QueueInv (s.spawnClosure state entry) where
  ok := by
    refine forall_task_update ?_ fun q u _ hu => hs.ok q u hu
    rcases hstate with rfl | rfl
    · exact .inl ⟨rfl, rfl⟩
    · exact ⟨rfl, rfl⟩
  fresh := hs.fresh.spawnClosure state entry
  nodup := by
    show (s.runQueue ++ [s.nextPid]).Nodup
    rw [← List.concat_eq_append]
    refine List.Nodup.concat ?_ hs.nodup
    intro hmem
    obtain ⟨u, hu, _⟩ := hs.queued _ hmem
    rw [hs.fresh _ (Nat.le_refl _)] at hu
    cases hu
  queued := by
    intro q hq
    show ∃ u, Function.update s.tasks s.nextPid _ q = some u ∧ _
    by_cases hne : q = s.nextPid
    · subst hne
      exact ⟨_, update_self .., hstate⟩
    · rw [update_of_ne hne]
      exact hs.queued q
        ((List.mem_append.mp hq).resolve_right fun h => hne (List.mem_singleton.mp h))
  running := by
    intro q hq
    obtain ⟨u, hu, hrun⟩ := hs.running q hq
    refine ⟨u, ?_, hrun⟩
    have hne : q ≠ s.nextPid := by
      rintro rfl
      rw [hs.fresh _ (Nat.le_refl _)] at hu
      cases hu
    show Function.update s.tasks s.nextPid _ q = some u
    rw [update_of_ne hne, hu]
  exiting := by
    intro q hq
    obtain ⟨u, hu, hexit⟩ := hs.exiting q hq
    refine ⟨u, ?_, hexit⟩
    have hne : q ≠ s.nextPid := by
      rintro rfl
      rw [hs.fresh _ (Nat.le_refl _)] at hu
      cases hu
    show Function.update s.tasks s.nextPid _ q = some u
    rw [update_of_ne hne, hu]

end QueueInv

/-! ## What a step keeps -/

variable {task : Process V}

theorem Process.Ok.state_cases (h : task.Ok) {park : ParkRecord V}
    (hwait : task.wait = some park) : task.state = .ready ∨ task.state = .blocked := by
  unfold Process.Ok at h
  cases hstate : task.state with
  | new => simp [hstate, hwait] at h
  | ready => exact .inl rfl
  | running => simp [hstate, hwait] at h
  | blocked => exact .inr rfl
  | exited => simp [hstate, hwait] at h

theorem Process.Ok.push (h : task.Ok) (msg : V) : (task.push msg).Ok := by
  unfold Process.Ok at h ⊢
  cases hstate : task.state with
  | ready =>
    rw [hstate] at h
    simpa [Process.push, hstate] using h.imp id fun h => ⟨h.1, h.2.1⟩
  | _ => simpa [Process.push, hstate] using h

theorem QueueInv.popped {pid : PidId} {rest : List PidId} (hs : QueueInv s)
    (hqueue : s.runQueue = pid :: rest) (htask : s.tasks pid = some task) :
    task.state.queueable ∧ pid ∉ rest ∧ rest.Nodup := by
  obtain ⟨u, hu, hq⟩ := hs.queued pid (by rw [hqueue]; exact List.mem_cons_self ..)
  cases Option.some.inj (htask.symm.trans hu)
  have hnodup := hs.nodup
  rw [hqueue] at hnodup
  exact ⟨hq, List.nodup_cons.mp hnodup⟩

theorem QueueInv.popped_work {pid : PidId} {rest : List PidId}
    (hs : QueueInv s) (hqueue : s.runQueue = pid :: rest) (htask : s.tasks pid = some task) :
    task.wait = none ∧ task.runnable.isSome ∨
      task.wait.isSome ∧ task.runnable = none ∧ task.mailbox ≠ [] := by
  have hok := hs.ok pid task htask
  unfold Process.Ok at hok
  rcases (hs.popped hqueue htask).1 with h | h
  · simpa only [h] using hok
  · rw [h] at hok
    exact .inl hok

theorem QueueInv.pop {pid : PidId} {rest : List PidId} {task task' : Process V} (hs : QueueInv s)
    (hqueue : s.runQueue = pid :: rest) (htask : s.tasks pid = some task)
    (htasks : s'.tasks = Function.update s.tasks pid (some task')) (hnext : s'.nextPid = s.nextPid)
    (hqueue' : s'.runQueue = rest) (hok : task'.Ok)
    (hphase : s'.phase.current = none ∨ s'.phase = .running pid ∧ task'.state = .running) :
    QueueInv s' := by
  obtain ⟨-, hnot, hnodup⟩ := hs.popped hqueue htask
  refine hs.update htask htasks hnext hok (hqueue' ▸ hnodup) ?_ ?_ ?_ ?_
  · intro q hq _
    rw [hqueue]
    exact List.mem_cons_of_mem _ (hqueue' ▸ hq)
  · intro hmem
    exact absurd (hqueue' ▸ hmem) hnot
  · intro q hq
    rcases hphase with h | ⟨h, hstate⟩
    · rw [hq] at h
      cases h
    · cases hq.symm.trans h
      exact ⟨task', by rw [htasks, update_self], hstate⟩
  · intro q hq
    rcases hphase with h | ⟨h, -⟩
    · rw [hq] at h
      cases h
    · cases hq.symm.trans h

/-- How a quantum ends in a well-behaved run: with a closure to go on, parked, or done. -/
theorem Ending.cases_of_inv {pid : PidId} {queue : List PidId}
    {timers : TimerWheel} (h : Ending s a pid queue task timers) (hs : QueueInv s) :
    queue = s.runQueue ∧ (∃ task₀, s.tasks pid = some task₀ ∧ task₀.state = .running) ∧
      (task.state = .running ∧ task.wait = none ∨
        task.state = .blocked ∧ task.wait.isSome ∧ task.runnable = none ∨
        task.state = .ready ∧ task.wait.isSome ∧ task.runnable = none ∧ task.mailbox ≠ []) := by
  have hcurrent : ∀ {task₀ : Process V}, s.phase = .running pid → s.tasks pid = some task₀ →
      task₀.state = .running ∧ task₀.wait = none ∧ task₀.runnable = none := by
    intro task₀ hphase htask
    obtain ⟨u, hu, hrun⟩ := hs.running pid hphase
    cases Option.some.inj (htask.symm.trans hu)
    have hok := hs.ok pid task₀ htask
    unfold Process.Ok at hok
    rw [hrun] at hok
    exact ⟨hrun, hok⟩
  cases h with
  | nothing _ hqueue htask hscan hrun =>
    rcases hs.popped_work hqueue htask with ⟨-, h⟩ | ⟨hwait, -, hmail⟩
    · rw [hrun] at h
      cases h
    · rcases hscan with h | h
      · rw [h] at hwait
        cases hwait
      · exact absurd h hmail
  | yield hphase htask =>
    obtain ⟨hstate, hwait, _⟩ := hcurrent hphase htask
    exact ⟨rfl, ⟨_, htask, hstate⟩, .inl ⟨hstate, hwait⟩⟩
  | @receive _ task₀ site hphase htask =>
    obtain ⟨hstate, _, hrun⟩ := hcurrent hphase htask
    refine ⟨rfl, ⟨_, htask, hstate⟩, .inr ?_⟩
    by_cases hmail : task₀.mailbox = []
    · exact .inl ⟨by simp [receiveParkMatched, hmail], rfl, hrun⟩
    · exact .inr ⟨by simp [receiveParkMatched, hmail], rfl, hrun, hmail⟩
  | halt hphase htask =>
    obtain ⟨hstate, hwait, _⟩ := hcurrent hphase htask
    exact ⟨rfl, ⟨_, htask, hstate⟩, .inl ⟨hstate, hwait⟩⟩

theorem Step.queueInv (h : Step loop s a s' es) (hok : WakesOnce s a) (hs : QueueInv s) :
    QueueInv s' := by
  have hblocked : ∀ {pid : PidId} {task : Process V} {park : ParkRecord V},
      s.tasks pid = some task → task.wait = some park → task.state ≠ .ready →
      task.state = .blocked := by
    intro pid task park htask hwait hne
    exact ((hs.ok pid task htask).state_cases hwait).resolve_left hne
  cases h with
  | tick => exact { hs with }
  | boot _ hstate => exact hs.spawnClosure hstate _
  | start _ => exact hs.rephase rfl rfl rfl rfl
  | drain _ => exact hs.rephase rfl rfl rfl rfl
  | routed _ => exact hs.rephase rfl rfl rfl rfl
  | stale _ _ => exact hs.rephase rfl rfl rfl rfl
  | @fire entry rest task park hphase htask hwait htimer =>
    have hstate := hblocked htask hwait (hok.timer _ _ _ _ rfl hphase htask hwait htimer)
    refine hs.enqueue htask rfl rfl rfl (.inr rfl) hstate (.inl ⟨rfl, ?_⟩) rfl
    exact park.after_isSome (by rw [htimer]; rfl)
  | returned _ _ _ => exact hs.rephase rfl rfl rfl rfl
  | sleep _ _ _ _ => exact hs.rephase rfl rfl rfl rfl
  | scanMiss _ hqueue htask hwait _ _ =>
    refine hs.pop hqueue htask rfl rfl rfl ?_ (.inl rfl)
    rcases hs.popped_work hqueue htask with ⟨h, -⟩ | ⟨h, hrun, -⟩
    · rw [hwait] at h
      cases h
    · exact ⟨h, hrun⟩
  | scanHit _ hqueue htask _ _ _ _ =>
    exact hs.pop hqueue htask rfl rfl rfl ⟨rfl, rfl⟩ (.inr ⟨rfl, rfl⟩)
  | resume _ hqueue htask hscan hrun =>
    refine hs.pop hqueue htask rfl rfl rfl ⟨?_, rfl⟩ (.inr ⟨rfl, rfl⟩)
    rcases hs.popped_work hqueue htask with ⟨h, -⟩ | ⟨-, h, -⟩
    · exact h
    · rw [hrun] at h
      cases h
  | dropped _ _ => exact hs
  | pushSelf _ _ htask =>
    exact hs.keep htask rfl rfl rfl rfl ((hs.ok _ _ htask).push _) rfl
  | push _ htask _ _ _ => exact hs.keep htask rfl rfl rfl rfl ((hs.ok _ _ htask).push _) rfl
  | hit hcur htask _ hwait hhit =>
    have hacc := ParkRecord.accepts_iff.mpr ⟨_, hhit⟩
    have hstate := hblocked htask hwait fun hready => by
      rw [hok.send _ _ _ _ rfl htask hwait hready] at hacc
      cases hacc
    exact hs.enqueue htask rfl rfl rfl (.inl rfl) hstate (.inl ⟨rfl, rfl⟩) rfl
  | wake _ htask hwait hstate =>
    -- A Blocked task has a pending receive, so this wake has no one to wake.
    have hok := hs.ok _ _ htask
    unfold Process.Ok at hok
    rw [hstate, hwait] at hok
    cases hok.1
  | spawn _ => exact hs.spawnClosure (.inl rfl) _
  | @requeue _ pid queue task timers hend hre =>
    obtain ⟨rfl, ⟨task₀, htask, hrun⟩, hstate⟩ := hend.cases_of_inv hs
    have hnot : pid ∉ s.runQueue :=
      hs.not_mem htask (by rw [hrun]; simp [ProcessState.queueable])
    refine hs.update htask rfl rfl ?_ ?_ ?_ (fun _ => .inl rfl) nofun nofun
    · rcases hstate with ⟨h, hwait⟩ | ⟨h, -⟩ | ⟨-, hwait, hnone, hmail⟩
      · refine .inl ⟨hwait, ?_⟩
        rcases hre with ⟨hready, -⟩ | ⟨-, hsome | ⟨-, hsome⟩⟩
        · rw [h] at hready
          cases hready
        · exact hsome
        · rw [hwait] at hsome
          cases hsome
      · rcases hre with ⟨hready, -⟩ | ⟨hready, -⟩
        · rw [h] at hready
          cases hready
        · rw [h] at hready
          cases hready
      · exact .inr ⟨hwait, hnone, hmail⟩
    · show (s.runQueue ++ [pid]).Nodup
      rw [← List.concat_eq_append]
      exact List.Nodup.concat hnot hs.nodup
    · intro q hq hne
      exact (List.mem_append.mp hq).resolve_right fun h => hne (List.mem_singleton.mp h)
  | @exit _ pid queue task timers hend hwait _ =>
    obtain ⟨rfl, ⟨task₀, htask, hrun⟩, -⟩ := hend.cases_of_inv hs
    have hnot : pid ∉ s.runQueue :=
      hs.not_mem htask (by rw [hrun]; simp [ProcessState.queueable])
    refine hs.update htask rfl rfl hwait hs.nodup (fun q hq _ => hq)
      (fun hmem => absurd hmem hnot) nofun ?_
    rintro q ⟨⟩
    exact ⟨_, update_self .., rfl⟩
  | @leave _ pid queue task timers hend hready hrunning =>
    obtain ⟨rfl, ⟨task₀, htask, hrun⟩, hstate⟩ := hend.cases_of_inv hs
    have hnot : pid ∉ s.runQueue :=
      hs.not_mem htask (by rw [hrun]; simp [ProcessState.queueable])
    refine hs.update htask rfl rfl ?_ hs.nodup (fun q hq _ => hq)
      (fun hmem => absurd hmem hnot) nofun nofun
    rcases hstate with ⟨h, hwait⟩ | ⟨h, hwait, hnone⟩ | ⟨h, -⟩
    · have := (hrunning h).2
      rw [hwait] at this
      cases this
    · unfold Process.Ok
      rw [h]
      exact ⟨hwait, hnone⟩
    · exact absurd h hready
  | dtorYield hphase htask =>
    obtain ⟨u, hu, hexit⟩ := hs.exiting _ hphase
    cases Option.some.inj (htask.symm.trans hu)
    refine hs.keep htask rfl rfl rfl rfl ?_ rfl
    have hok := hs.ok _ _ htask
    unfold Process.Ok at hok ⊢
    rw [hexit] at hok
    simpa only [hexit] using hok
  | dtorReceive hphase _ => exact absurd hphase (hok.dtor _ _ rfl)
  | finish _ => exact hs.rephase rfl rfl rfl rfl

theorem init_queueInv : QueueInv (.init : Runtime V) where
  ok := fun _ _ h => by cases h
  fresh := init_fresh
  nodup := List.nodup_nil
  queued := fun _ h => by cases h
  running := nofun
  exiting := nofun

/-- An exited process stays exited. -/
theorem Step.exited_stays (h : Step loop s a s' es) (hok : WakesOnce s a) (hs : QueueInv s)
    {pid : PidId} (htask : s.tasks pid = some task) (hexit : task.state = .exited) :
    ∃ task', s'.tasks pid = some task' ∧ task'.state = .exited := by
  have hsame : ∃ task', s.tasks pid = some task' ∧ task'.state = .exited := ⟨task, htask, hexit⟩
  -- A change to a task in another state is a change to another task.
  have hother : ∀ {q : PidId} {u u' : Process V}, s.tasks q = some u → u.state ≠ .exited →
      ∃ task', Function.update s.tasks q (some u') pid = some task' ∧ task'.state = .exited := by
    intro q u u' hu hne
    exact QueueInv.phase_keep hu (fun h => absurd h hne) hsame
  have hparked : ∀ {q : PidId} {u u' : Process V} {park : ParkRecord V}, s.tasks q = some u →
      u.wait = some park →
      ∃ task', Function.update s.tasks q (some u') pid = some task' ∧ task'.state = .exited := by
    intro q u u' park hu hwait
    refine hother hu fun h => ?_
    rcases (hs.ok q u hu).state_cases hwait with h' | h'
    · rw [h] at h'
      cases h'
    · rw [h] at h'
      cases h'
  have hpopped : ∀ {q : PidId} {rest : List PidId} {u u' : Process V},
      s.runQueue = q :: rest → s.tasks q = some u →
      ∃ task', Function.update s.tasks q (some u') pid = some task' ∧ task'.state = .exited := by
    intro q rest u u' hqueue hu
    refine hother hu fun h => ?_
    rcases (hs.popped hqueue hu).1 with h' | h'
    · rw [h] at h'
      cases h'
    · rw [h] at h'
      cases h'
  have hended : ∀ {q : PidId} {queue : List PidId} {u u' : Process V} {timers : TimerWheel},
      Ending s a q queue u timers →
      ∃ task', Function.update s.tasks q (some u') pid = some task' ∧ task'.state = .exited := by
    intro q queue u u' timers hend
    obtain ⟨-, ⟨u₀, hu₀, hrun⟩, -⟩ := hend.cases_of_inv hs
    exact hother hu₀ (by rw [hrun]; nofun)
  have hspawned : ∀ {state : ProcessState} {entry : Closure V},
      ∃ task', (s.spawnClosure state entry).tasks pid = some task' ∧ task'.state = .exited := by
    intro state entry
    refine ⟨task, ?_, hexit⟩
    have hne : pid ≠ s.nextPid := by
      rintro rfl
      rw [hs.fresh _ (Nat.le_refl _)] at htask
      cases htask
    show Function.update s.tasks s.nextPid _ pid = some task
    rw [update_of_ne hne, htask]
  cases h with
  | tick => exact hsame
  | boot _ _ => exact hspawned
  | start _ => exact hsame
  | drain _ => exact hsame
  | routed _ => exact hsame
  | stale _ _ => exact hsame
  | fire _ hu hwait _ => exact hparked hu hwait
  | returned _ _ _ => exact hsame
  | sleep _ _ _ _ => exact hsame
  | scanMiss _ hqueue hu _ _ _ => exact hpopped hqueue hu
  | scanHit _ hqueue hu _ _ _ _ => exact hpopped hqueue hu
  | resume _ hqueue hu _ _ => exact hpopped hqueue hu
  | dropped _ _ => exact hsame
  | pushSelf _ _ hu => exact QueueInv.phase_keep hu (fun h => h) hsame
  | push _ hu hne _ _ => exact hother hu hne
  | hit _ hu hne _ _ => exact hother hu hne
  | wake _ hu _ hblocked => exact hother hu (by rw [hblocked]; nofun)
  | spawn _ => exact hspawned
  | requeue hend _ => exact hended hend
  | exit hend _ _ => exact hended hend
  | leave hend _ _ => exact hended hend
  | dtorYield _ hu => exact QueueInv.phase_keep hu (fun h => h) hsame
  | dtorReceive hphase _ => exact absurd hphase (hok.dtor _ _ rfl)
  | finish _ => exact hsame

/-- Each pid is queued once, with something to do, and never when Exited or Blocked. -/
structure QueueDiscipline (s : Runtime V) : Prop where
  nodup : s.runQueue.Nodup
  work : ∀ pid ∈ s.runQueue, ∃ task, s.tasks pid = some task ∧
    (task.runnable.isSome ∨ task.wait.isSome ∧ task.mailbox ≠ [])
  awake : ∀ pid ∈ s.runQueue, ∀ task, s.tasks pid = some task →
    task.state ≠ .exited ∧ task.state ≠ .blocked

theorem QueueInv.discipline (hs : QueueInv s) : QueueDiscipline s where
  nodup := hs.nodup
  work := by
    intro pid hmem
    obtain ⟨task, htask, hstate⟩ := hs.queued pid hmem
    refine ⟨task, htask, ?_⟩
    have hok := hs.ok pid task htask
    unfold Process.Ok at hok
    rcases hstate with h | h
    · rw [h] at hok
      exact hok.imp And.right fun h => ⟨h.1, h.2.2⟩
    · rw [h] at hok
      exact .inl hok.2
  awake := by
    intro pid hmem task htask
    obtain ⟨u, hu, hstate⟩ := hs.queued pid hmem
    cases Option.some.inj (htask.symm.trans hu)
    rcases hstate with h | h
    · rw [h]
      exact ⟨nofun, nofun⟩
    · rw [h]
      exact ⟨nofun, nofun⟩

theorem Step.dispatch_works (h : Step loop s .pop s' es) (hs : QueueInv s) {pid : PidId}
    {rest : List PidId} (hqueue : s.runQueue = pid :: rest) :
    pid ∉ s'.runQueue ∧ ((∃ closure, .resumed pid closure ∈ es) ∨
      ∃ task, s'.tasks pid = some task ∧ task.state = .blocked) := by
  have hnot : pid ∉ rest := by
    have hnodup := hs.nodup
    rw [hqueue] at hnodup
    exact (List.nodup_cons.mp hnodup).1
  have hended : ∀ {q : PidId} {queue : List PidId} {u : Process V} {timers : TimerWheel},
      ¬ Ending s .pop q queue u timers := by
    intro q queue u timers hend
    obtain ⟨rfl, -⟩ := hend.cases_of_inv hs
    cases hend with
    | nothing _ hq _ _ _ => exact absurd (congrArg List.length hq) (by simp)
  cases h with
  | returned _ hempty _ => exact absurd (hqueue.symm.trans hempty) (by simp)
  | sleep _ hempty _ _ => exact absurd (hqueue.symm.trans hempty) (by simp)
  | scanMiss _ hq _ _ _ _ =>
    obtain ⟨rfl, rfl⟩ := List.cons.inj (hqueue.symm.trans hq)
    exact ⟨hnot, .inr ⟨_, update_self .., rfl⟩⟩
  | scanHit _ hq _ _ _ _ _ =>
    obtain ⟨rfl, rfl⟩ := List.cons.inj (hqueue.symm.trans hq)
    exact ⟨hnot, .inl ⟨_, List.mem_cons_of_mem _ (List.mem_cons_self ..)⟩⟩
  | resume _ hq _ _ _ =>
    obtain ⟨rfl, rfl⟩ := List.cons.inj (hqueue.symm.trans hq)
    exact ⟨hnot, .inl ⟨_, List.mem_cons_self ..⟩⟩
  | requeue hend _ => exact absurd hend hended
  | exit hend _ _ => exact absurd hend hended
  | leave hend _ _ => exact absurd hend hended

theorem Run.queueInv (hrun : Run (step loop) WakesOnce .init as es s) : QueueInv s :=
  Run.inv init_queueInv (fun _ _ _ _ hs hok hstep => (step_cases hstep).queueInv hok hs) hrun

/-- Some run of the loop breaks the discipline. -/
def BreaksDiscipline (loop : LoopKind) : Prop :=
  ∃ as es s, Run (step loop) anyStep (.init : Runtime Nat) as es s ∧ ¬ QueueDiscipline s

-- Process 1 is parked Ready, and the message of process 2 queues it again.
theorem breaksDiscipline_both : BreaksDiscipline .jit ∧ BreaksDiscipline .aot := by
  have htwice : ∀ {s : Runtime Nat}, s.runQueue = [1, 1] → ¬ QueueDiscipline s := by
    intro s hqueue h
    have hnodup := h.nodup
    rw [hqueue] at hnodup
    simp at hnodup
  exact ⟨⟨parkedOverMail none ++ turn ++ [.send 1 20], _, _,
      Run.of_runActs (.of_forall (fun _ _ _ => trivial) _) rfl, htwice rfl⟩,
    ⟨parkedOverMail none ++ turn ++ [.send 1 20], _, _,
      Run.of_runActs (.of_forall (fun _ _ _ => trivial) _) rfl, htwice rfl⟩⟩

/-- In every run in which no message hit and no timer reaches a process parked Ready, and
no destructor parks: the queue is in order, an exited process stays exited, and every
dispatch does some work. -/
theorem run_queueDiscipline (hrun : Run (step loop) WakesOnce .init as es s) : QueueDiscipline s ∧
      (∀ a s' es' pid task, WakesOnce s a → step loop s a = some (s', es') →
        s.tasks pid = some task → task.state = .exited →
        ∃ task', s'.tasks pid = some task' ∧ task'.state = .exited) ∧
      (∀ s' es' pid rest, step loop s .pop = some (s', es') → s.runQueue = pid :: rest →
        pid ∉ s'.runQueue ∧ ((∃ closure, .resumed pid closure ∈ es') ∨
          ∃ task, s'.tasks pid = some task ∧ task.state = .blocked)) := by
  have hs := Run.queueInv hrun
  refine ⟨hs.discipline, ?_, ?_⟩
  · intro a s' es' pid task hok hstep htask hexit
    exact (step_cases hstep).exited_stays hok hs htask hexit
  · intro s' es' pid rest hstep hqueue
    exact (step_cases hstep).dispatch_works hs hqueue

theorem WakesOnce.of_other {s : Runtime V} {a : Act V} (hsend : ∀ pid msg, a ≠ .send pid msg)
    (hroute : a = .route → s.phase = .routing [])
    (hdtor : (∀ pid, s.phase ≠ .exiting pid) ∨ (∀ site, a ≠ .receive site)) : WakesOnce s a := by
  refine ⟨?_, ?_, ?_⟩
  · rintro pid msg task park rfl
    exact absurd rfl (hsend pid msg)
  · intro entry rest task park ha hphase
    rw [hroute ha] at hphase
    cases hphase
  · rintro site pid rfl
    rcases hdtor with h | h
    · exact h pid
    · exact absurd rfl (h site)

-- Process 1 parks on an empty mailbox in its quantum and leaves the queue.
theorem run_queueDiscipline_blocked :
    ∃ es s, Run (step .jit) WakesOnce .init (firstTurn ++ [.receive (catchAll none)]) es s ∧
      (s.tasks 1).map (·.state) = some .blocked ∧ QueueDiscipline s := by
  have hfirst : Allowed (step .jit) WakesOnce .init firstTurn :=
    firstTurn_allowed (.of_other nofun nofun (.inr nofun))
      (fun _ => .of_other nofun nofun (.inr nofun))
      (fun _ => .of_other nofun nofun (.inr nofun))
      (fun _ h => .of_other nofun (fun _ => h) (.inr nofun))
      (fun _ _ => .of_other nofun nofun (.inr nofun))
  obtain ⟨es, s, hrun, hstate⟩ : ∃ es s,
      Run (step .jit) WakesOnce .init (firstTurn ++ [.receive (catchAll none)]) es s ∧
      (s.tasks 1).map (·.state) = some .blocked :=
    ⟨_, _, .snoc (Run.of_runActs hfirst rfl) (.of_other nofun nofun (.inl nofun)) rfl, rfl⟩
  exact ⟨es, s, hrun, hstate, (run_queueDiscipline hrun).1⟩

end Fz.Sched
