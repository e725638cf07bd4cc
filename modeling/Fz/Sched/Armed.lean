import Fz.Sched.Receive
import Mathlib.Data.List.Nodup

/-!
# Armed timers

A process parked on a receive with a timer has an entry of that timer: in the wheel, or
among the expired entries that are being routed.  So an empty wheel means that nobody
waits for an after body.

The loop of compiled executables returns on an empty wheel only.  The JIT returns on an
empty queue, whatever the wheel holds.
-/

namespace Fz.Sched

open Fz.Base Function

variable {V : Type} {loop : LoopKind} {s s' : Runtime V} {a : Act V} {es : List (Event V)}
  {as : List (Act V)}

/-- The expired entries not routed yet. -/
def Phase.pending : Phase → List TimerEntry
  | .routing expired => expired
  | _ => []

/-- Every entry that can still fire. -/
def Runtime.entries (s : Runtime V) : List TimerEntry := s.phase.pending ++ s.timers.entries

/-- The timer of the task's pending receive, if it has one, is among the entries. -/
def Process.Backed (task : Process V) (pid : PidId) (entries : List TimerEntry) : Prop :=
  ∀ park id, task.wait = some park → park.afterTimerId = some id →
    ∃ e ∈ entries, e.id = id ∧ e.pid = pid

structure TimerInv (s : Runtime V) : Prop where
  /-- Timer ids are used once. -/
  ids : (s.entries.map (·.id)).Nodup
  used : ∀ e ∈ s.entries, e.id < s.timers.nextId
  backed : ∀ pid task, s.tasks pid = some task → task.Backed pid s.entries

theorem Process.Backed.of_wait_none {task : Process V} {pid : PidId} {entries : List TimerEntry}
    (h : task.wait = none) : task.Backed pid entries := by
  intro park id hwait
  rw [h] at hwait
  cases hwait

theorem Process.Backed.congr {task task' : Process V} {pid : PidId}
    {entries : List TimerEntry} (hwait : task'.wait = task.wait) (h : task.Backed pid entries) :
    task'.Backed pid entries := by
  intro park id hpark
  exact h park id (hwait ▸ hpark)

namespace TimerInv

theorem eq_of_id (hs : TimerInv s) {e e' : TimerEntry} (he : e ∈ s.entries)
    (he' : e' ∈ s.entries) (hid : e.id = e'.id) : e = e' :=
  List.inj_on_of_nodup_map hs.ids he he' hid

theorem shrink (hs : TimerInv s) (hsub : s'.entries.Sublist s.entries)
    (hnext : s'.timers.nextId = s.timers.nextId)
    (hbacked : ∀ pid task, s'.tasks pid = some task → task.Backed pid s'.entries) :
    TimerInv s' where
  ids := hs.ids.sublist (hsub.map _)
  used := fun e he => hnext ▸ hs.used e (hsub.subset he)
  backed := hbacked

theorem same (hs : TimerInv s) (htasks : s'.tasks = s.tasks) (hentries : s'.entries = s.entries)
    (hnext : s'.timers.nextId = s.timers.nextId) : TimerInv s' := by
  refine hs.shrink (hentries ▸ List.Sublist.refl _) hnext ?_
  rw [htasks, hentries]
  exact hs.backed

theorem update {pid : PidId} {task' : Process V} (hs : TimerInv s)
    (htasks : s'.tasks = Function.update s.tasks pid (some task'))
    (hentries : s'.entries = s.entries) (hnext : s'.timers.nextId = s.timers.nextId)
    (hbacked : task'.Backed pid s.entries) : TimerInv s' := by
  refine hs.shrink (hentries ▸ List.Sublist.refl _) hnext ?_
  rw [htasks, hentries]
  exact forall_task_update hbacked fun q u _ hu => hs.backed q u hu

theorem drop {entry : TimerEntry} {rest : List TimerEntry} (hs : TimerInv s)
    (hphase : s.phase = .routing (entry :: rest)) (hphase' : s'.phase = .routing rest)
    (htimers : s'.timers = s.timers)
    (hbacked : ∀ pid task, s'.tasks pid = some task → task.Backed pid s.entries ∧
      ∀ park, task.wait = some park → park.afterTimerId = some entry.id → pid ≠ entry.pid) :
    TimerInv s' := by
  have hentries : s.entries = entry :: s'.entries := by
    simp only [Runtime.entries, hphase, hphase', Phase.pending, htimers, List.cons_append]
  refine hs.shrink (hentries ▸ List.sublist_cons_self _ _) (by rw [htimers]) ?_
  intro pid task htask park id hwait htimer
  obtain ⟨hold, hnot⟩ := hbacked pid task htask
  obtain ⟨e, he, hid, hpid⟩ := hold park id hwait htimer
  rw [hentries] at he
  rcases List.mem_cons.mp he with rfl | he
  · exact absurd hpid.symm (hnot park hwait (hid ▸ htimer))
  · exact ⟨e, he, hid, hpid⟩

theorem resolve {pid : PidId} {task task' : Process V} {park : ParkRecord V} (hs : TimerInv s)
    (htask : s.tasks pid = some task) (hwait : task.wait = some park)
    (htasks : s'.tasks = Function.update s.tasks pid (some task'))
    (htimers : s'.timers = park.cancelTimer s.timers)
    (hpending : s'.phase.pending = s.phase.pending) (hwait' : task'.wait = none) : TimerInv s' := by
  cases htimer : park.afterTimerId with
  | none =>
    have hsame : s'.timers = s.timers := by rw [htimers, ParkRecord.cancelTimer, htimer]
    exact hs.update htasks (by rw [Runtime.entries, hpending, hsame]; rfl) (by rw [hsame])
      (.of_wait_none hwait')
  | some id =>
    have hcancel : s'.timers = s.timers.cancel id := by
      rw [htimers, ParkRecord.cancelTimer, htimer]
    have hentries : s'.entries = s.phase.pending ++ (s.timers.cancel id).entries := by
      rw [Runtime.entries, hpending, hcancel]
    refine hs.shrink ?_ (by rw [hcancel]; rfl) ?_
    · rw [hentries]
      exact (List.eraseP_sublist ..).append_left _
    · rw [htasks, hentries]
      refine forall_task_update (.of_wait_none hwait') fun q u hq hu park' id' hpark' hid' => ?_
      obtain ⟨e, he, rfl, rfl⟩ := hs.backed q u hu park' id' hpark' hid'
      obtain ⟨e₀, he₀, hid₀, hpid₀⟩ := hs.backed pid task htask park id hwait htimer
      -- The entry of another process has another id, so the cancel does not hit it.
      have hne : e.id ≠ id := fun h =>
        hq (hs.eq_of_id he he₀ (h.trans hid₀.symm) ▸ hpid₀)
      refine ⟨e, ?_, rfl, rfl⟩
      rcases List.mem_append.mp he with he | he
      · exact List.mem_append_left _ he
      · exact List.mem_append_right _ (TimerWheel.mem_cancel_of_ne hne he)

/-- A park arms its own timer. -/
theorem park {pid : PidId} {task task' : Process V} {site : ReceiveSite V} (hs : TimerInv s)
    (htasks : s'.tasks = Function.update s.tasks pid (some task'))
    (hparked : task'.wait = (receiveParkMatched task s.timers s.now pid site).1.wait)
    (htimers : s'.timers = (receiveParkMatched task s.timers s.now pid site).2)
    (hpending : s'.phase.pending = s.phase.pending) : TimerInv s' := by
  have hwait : ∀ park id, task'.wait = some park → park.afterTimerId = some id →
      (armTimer site s.timers s.now pid).1 = some id := by
    intro park id hpark htimer
    cases hparked.symm.trans hpark
    exact htimer
  cases hms : site.deadlineMs with
  | none =>
    have hsame : s'.timers = s.timers := by
      rw [htimers]
      simp only [receiveParkMatched, armTimer, hms]
    refine hs.update htasks (by rw [Runtime.entries, hpending, hsame]; rfl) (by rw [hsame]) ?_
    intro park id hpark htimer
    have := hwait park id hpark htimer
    simp only [armTimer, hms] at this
    cases this
  | some ms =>
    have harm : s'.timers = (s.timers.schedule s.now pid ms).2 := by
      rw [htimers]
      simp only [receiveParkMatched, armTimer, hms]
    have hperm : s'.entries.Perm
        (⟨s.timers.nextId, s.now + TimerWheel.fromMillis ms, pid⟩ :: s.entries) := by
      rw [Runtime.entries, hpending, harm]
      exact (TimerWheel.schedule_perm.append_left _).trans List.perm_middle
    refine ⟨?_, ?_, ?_⟩
    · rw [(hperm.map _).nodup_iff, List.map_cons, List.nodup_cons]
      refine ⟨?_, hs.ids⟩
      intro hmem
      obtain ⟨e, he, hid⟩ := List.mem_map.mp hmem
      exact absurd (hs.used e he) (by rw [hid]; exact Nat.lt_irrefl _)
    · intro e he
      rw [harm, TimerWheel.schedule_nextId]
      rcases List.mem_cons.mp (hperm.mem_iff.mp he) with rfl | he
      · exact Nat.lt_succ_self _
      · exact Nat.lt_succ_of_lt (hs.used e he)
    · rw [htasks]
      refine forall_task_update ?_ fun q u _ hu park' id' hpark' hid' => ?_
      · intro park id hpark htimer
        have hid := hwait park id hpark htimer
        simp only [armTimer, hms, Option.some.injEq] at hid
        exact ⟨_, hperm.mem_iff.mpr (List.mem_cons_self ..), hid, rfl⟩
      · obtain ⟨e, he, h⟩ := hs.backed q u hu park' id' hpark' hid'
        exact ⟨e, hperm.mem_iff.mpr (List.mem_cons_of_mem _ he), h⟩

end TimerInv

theorem Ending.timers {pid : PidId} {queue : List PidId} {task : Process V}
    {timers : TimerWheel} (h : Ending s a pid queue task timers) : s.phase.pending = [] ∧
      ((timers = s.timers ∧ ∃ task₀, s.tasks pid = some task₀ ∧ task.wait = task₀.wait) ∨
        ∃ task₀ site, task = (receiveParkMatched task₀ s.timers s.now pid site).1 ∧
          timers = (receiveParkMatched task₀ s.timers s.now pid site).2) := by
  cases h with
  | nothing hphase _ htask _ _ =>
    exact ⟨by rw [hphase]; rfl, .inl ⟨rfl, _, htask, rfl⟩⟩
  | yield hphase htask => exact ⟨by rw [hphase]; rfl, .inl ⟨rfl, _, htask, rfl⟩⟩
  | receive hphase _ => exact ⟨by rw [hphase]; rfl, .inr ⟨_, _, rfl, rfl⟩⟩
  | halt hphase htask => exact ⟨by rw [hphase]; rfl, .inl ⟨rfl, _, htask, rfl⟩⟩

theorem TimerInv.ending {pid : PidId} {queue : List PidId} {task task' : Process V}
    {timers : TimerWheel} (hs : TimerInv s) (hend : Ending s a pid queue task timers)
    (htasks : s'.tasks = Function.update s.tasks pid (some task'))
    (hwait : task'.wait = task.wait) (htimers : s'.timers = timers)
    (hpending : s'.phase.pending = []) : TimerInv s' := by
  obtain ⟨hnone, ⟨rfl, task₀, htask₀, hsame⟩ | ⟨task₀, site, rfl, rfl⟩⟩ := hend.timers
  · refine hs.update htasks ?_ (by rw [htimers]) ?_
    · rw [Runtime.entries, Runtime.entries, hpending, hnone, htimers]
    · exact (hs.backed pid task₀ htask₀).congr (hwait.trans hsame)
  · exact hs.park htasks hwait htimers (hpending.trans hnone.symm)

theorem TimerInv.spawnClosure (hs : TimerInv s) (state : ProcessState) (entry : Closure V) :
    TimerInv (s.spawnClosure state entry) :=
  hs.update rfl rfl rfl (.of_wait_none rfl)

theorem TimerInv.keep {pid : PidId} {task task' : Process V} (hs : TimerInv s)
    (htask : s.tasks pid = some task) (htasks : s'.tasks = Function.update s.tasks pid (some task'))
    (htimers : s'.timers = s.timers) (hpending : s'.phase.pending = s.phase.pending)
    (hwait : task'.wait = task.wait) : TimerInv s' :=
  hs.update htasks (by rw [Runtime.entries, hpending, htimers]; rfl) (by rw [htimers])
    ((hs.backed pid task htask).congr hwait)

theorem Step.timerInv (h : Step loop s a s' es) (hs : TimerInv s) : TimerInv s' := by
  cases h with
  | tick => exact ⟨hs.ids, hs.used, hs.backed⟩
  | boot _ _ => exact hs.spawnClosure _ _
  | start hphase => exact hs.same rfl (by simp [Runtime.entries, Phase.pending, hphase]) rfl
  | drain hphase =>
    refine hs.same rfl ?_ rfl
    simp [Runtime.entries, Phase.pending, hphase, TimerWheel.drainExpired_append]
  | routed hphase => exact hs.same rfl (by simp [Runtime.entries, Phase.pending, hphase]) rfl
  | stale hphase hstale =>
    refine hs.drop hphase rfl rfl fun pid task htask => ⟨hs.backed pid task htask, ?_⟩
    rintro park hwait htimer rfl
    exact hstale task park htask hwait htimer
  | fire hphase _ _ _ =>
    refine hs.drop hphase rfl rfl (forall_task_update ⟨.of_wait_none rfl, nofun⟩ ?_)
    intro q u hq hu
    exact ⟨hs.backed q u hu, fun _ _ _ => hq⟩
  | returned hphase _ _ => exact hs.same rfl (by simp [Runtime.entries, Phase.pending, hphase]) rfl
  | sleep hphase _ _ _ => exact hs.same rfl (by simp [Runtime.entries, Phase.pending, hphase]) rfl
  | scanMiss hphase _ htask _ _ _ => exact hs.keep htask rfl rfl (by rw [hphase]; rfl) (by rfl)
  | scanHit hphase _ htask hwait _ _ _ =>
    exact hs.resolve htask hwait rfl rfl (by rw [hphase]; rfl) rfl
  | resume hphase _ htask _ _ => exact hs.keep htask rfl rfl (by rw [hphase]; rfl) (by rfl)
  | dropped _ _ => exact hs
  | pushSelf _ _ htask => exact hs.keep htask rfl rfl rfl (by rfl)
  | push _ htask _ _ _ => exact hs.keep htask rfl rfl rfl (by rfl)
  | hit _ htask _ hwait _ => exact hs.resolve htask hwait rfl rfl rfl rfl
  | wake _ htask _ _ => exact hs.keep htask rfl rfl rfl (by rfl)
  | spawn _ => exact hs.spawnClosure _ _
  | requeue hend _ => exact hs.ending hend rfl (by rfl) rfl rfl
  | exit hend _ _ => exact hs.ending hend rfl (by rfl) rfl rfl
  | leave hend _ _ => exact hs.ending hend rfl (by rfl) rfl rfl
  | dtorYield _ htask => exact hs.keep htask rfl rfl rfl (by rfl)
  | dtorReceive _ _ => exact hs.park rfl (by rfl) rfl rfl
  | finish hphase => exact hs.same rfl (by simp [Runtime.entries, Phase.pending, hphase]) rfl

theorem init_timerInv : TimerInv (.init : Runtime V) where
  ids := List.nodup_nil
  used := fun _ h => by cases h
  backed := fun _ _ h => by cases h

/-! ## When the loop returns -/

/-- No process waits for an after body. -/
def NoneWaiting (s : Runtime V) : Prop :=
  ∀ pid task park, s.tasks pid = some task → task.wait = some park → park.afterTimerId = none

theorem TimerInv.noneWaiting (hs : TimerInv s) (hempty : s.entries = []) : NoneWaiting s := by
  intro pid task park htask hwait
  cases htimer : park.afterTimerId with
  | none => rfl
  | some id =>
    obtain ⟨e, he, -⟩ := hs.backed pid task htask park id hwait htimer
    rw [hempty] at he
    cases he

/-- The loop does not find the queue empty while a timer is in the wheel. -/
def NoEarlyReturn (s : Runtime V) (a : Act V) : Prop :=
  a = .pop → s.phase = .pop → s.runQueue = [] → s.timers.nextDeadline = none

/-- Outside the loop nobody waits for an after body, unless the JIT left early. -/
theorem Step.noneWaiting (h : Step loop s a s' es) (htimers : TimerInv s)
    (hok : loop = .jit → NoEarlyReturn s a) (hs : s.phase = .idle → NoneWaiting s)
    (hidle : s'.phase = .idle) : NoneWaiting s' := by
  cases h with
  | tick => exact hs hidle
  | boot hphase _ =>
    intro pid task park htask hwait
    revert park
    revert pid task
    refine forall_task_update nofun fun q u _ hu park hwait => ?_
    exact hs hphase q u park hu hwait
  | returned hphase hqueue hreturn =>
    refine htimers.noneWaiting ?_
    have hnone : s.timers.nextDeadline = none := by
      rcases hreturn with hjit | hnone
      · exact hok hjit rfl hphase hqueue
      · exact hnone
    rw [Runtime.entries, hphase, TimerWheel.nextDeadline_eq_none.mp hnone]
    rfl
  | dropped hcur _ =>
    rw [hidle] at hcur
    cases hcur
  | pushSelf _ hcur _ =>
    have hcur : (Phase.idle).current = some _ := hidle ▸ hcur
    cases hcur
  | push hcur _ _ _ _ =>
    have hcur : (Phase.idle).current = some _ := hidle ▸ hcur
    cases hcur
  | hit hcur _ _ _ _ =>
    have hcur : (Phase.idle).current = some _ := hidle ▸ hcur
    cases hcur
  | wake hcur _ _ _ =>
    have hcur : (Phase.idle).current = some _ := hidle ▸ hcur
    cases hcur
  | spawn hcur =>
    have hcur : (Phase.idle).current = some _ := hidle ▸ hcur
    cases hcur
  | dtorYield hphase _ => exact absurd (hphase.symm.trans hidle) nofun
  | dtorReceive hphase _ => exact absurd (hphase.symm.trans hidle) nofun
  | _ => cases hidle

theorem Run.noneWaiting
    (hrun : Run (step loop) (fun s a => loop = .jit → NoEarlyReturn s a) .init as es s)
    (hidle : s.phase = .idle) : NoneWaiting s := by
  have hinv := Run.inv (I := fun s => TimerInv s ∧ (s.phase = .idle → NoneWaiting s))
    ⟨init_timerInv, fun _ _ _ _ h => by cases h⟩ ?_ hrun
  · exact hinv.2 hidle
  · intro s a s' es hs hok hstep
    have h := step_cases hstep
    exact ⟨h.timerInv hs.1, h.noneWaiting hs.1 hok hs.2⟩

end Fz.Sched
