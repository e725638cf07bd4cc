import Fz.Sched.Loop

/-!
# What a step can do

`Step` lists the steps of both loops by their effect on the one task they touch.  It is
the inversion of `step` (`step_cases`), and the only place where the functions of the
loops are unfolded: every property of runs is proved from it, one case per effect.
-/

namespace Fz.Sched

variable {V : Type}

/-! ## The scan -/

theorem scanMailbox_spec (park : ParkRecord V) (scanned mailbox : List V) :
    (∃ pre msg post hit, mailbox = pre ++ msg :: post ∧
        (∀ m ∈ pre, park.accepts m = false) ∧ park.tryMatch msg = some hit ∧
        scanMailbox park scanned mailbox = (some (msg, hit), scanned ++ (pre ++ post))) ∨
      ((∀ m ∈ mailbox, park.accepts m = false) ∧
        scanMailbox park scanned mailbox = (none, scanned ++ mailbox)) := by
  induction mailbox generalizing scanned with
  | nil => exact .inr ⟨by simp, by simp [scanMailbox]⟩
  | cons msg rest ih =>
    cases hm : park.tryMatch msg with
    | some hit =>
      exact .inl ⟨[], msg, rest, hit, rfl, by simp, hm, by simp [scanMailbox, hm]⟩
    | none =>
      have hacc : park.accepts msg = false := ParkRecord.accepts_eq_false_iff.mpr hm
      rcases ih (scanned ++ [msg]) with
        ⟨pre, m, post, hit, rfl, hpre, hhit, heq⟩ | ⟨hall, heq⟩
      · refine .inl ⟨msg :: pre, m, post, hit, rfl, ?_, hhit, ?_⟩
        · exact List.forall_mem_cons.mpr ⟨hacc, hpre⟩
        · simp [scanMailbox, hm, heq]
      · refine .inr ⟨List.forall_mem_cons.mpr ⟨hacc, hall⟩, ?_⟩
        simp [scanMailbox, hm, heq]

/-! ## The effects -/

/-- The task as it comes back from its quantum, with the queue and the wheel left. -/
inductive Ending (s : Runtime V) : Act V → PidId → List PidId → Process V → TimerWheel → Prop where
  /-- Dispatched with nothing to scan and nothing to resume. -/
  | nothing {pid rest task} :
      s.phase = .pop → s.runQueue = pid :: rest → s.tasks pid = some task →
      task.wait = none ∨ task.mailbox = [] → task.runnable = none →
      Ending s .pop pid rest { task with state := .running } s.timers
  | yield {pid task cont} :
      s.phase = .running pid → s.tasks pid = some task →
      Ending s (.yield cont) pid s.runQueue { task with runnable := some cont } s.timers
  | receive {pid task site} :
      s.phase = .running pid → s.tasks pid = some task →
      Ending s (.receive site) pid s.runQueue
        (receiveParkMatched task s.timers s.now pid site).1
        (receiveParkMatched task s.timers s.now pid site).2
  | halt {pid task} :
      s.phase = .running pid → s.tasks pid = some task →
      Ending s .halt pid s.runQueue task s.timers

/-- When a task that came back is queued again. -/
def requeues (loop : LoopKind) (task : Process V) : Prop :=
  task.state = .ready ∧ (loop = .aot ∨ task.wait.isSome) ∨
    task.state = .running ∧ (task.runnable.isSome ∨ loop = .jit ∧ task.wait.isSome)

open Function (update)

/-- The steps of a loop, by effect. -/
inductive Step (loop : LoopKind) (s : Runtime V) : Act V → Runtime V → List (Event V) → Prop where
  | tick {elapsed} : Step loop s (.tick elapsed) { s with now := s.now + elapsed } []
  | boot {main state} :
      s.phase = .idle → state = .ready ∨ state = .new →
      Step loop s (.boot main) (s.spawnClosure state main) []
  | start : s.phase = .idle → Step loop s .start { s with phase := .top } []
  | drain :
      s.phase = .top →
      Step loop s .drain
        { s with
          timers := (s.timers.drainExpired s.now).2
          phase := .routing (s.timers.drainExpired s.now).1 } []
  | routed : s.phase = .routing [] → Step loop s .route { s with phase := .pop } []
  /-- The entry's task is not parked on it. -/
  | stale {entry rest} :
      s.phase = .routing (entry :: rest) →
      (∀ task park, s.tasks entry.pid = some task → task.wait = some park →
        park.afterTimerId ≠ some entry.id) →
      Step loop s .route { s with phase := .routing rest } []
  | fire {entry rest task park} :
      s.phase = .routing (entry :: rest) → s.tasks entry.pid = some task →
      task.wait = some park → park.afterTimerId = some entry.id →
      Step loop s .route
        { s with
          tasks := update s.tasks entry.pid
            (some { task with wait := none, runnable := park.afterCont, state := .ready })
          runQueue := s.runQueue ++ [entry.pid]
          phase := .routing rest } [.fired entry.pid]
  | returned :
      s.phase = .pop → s.runQueue = [] → loop = .jit ∨ s.timers.nextDeadline = none →
      Step loop s .pop { s with phase := .idle } [.returned]
  | sleep {deadline} :
      s.phase = .pop → s.runQueue = [] → loop = .aot → s.timers.nextDeadline = some deadline →
      Step loop s .pop { s with now := max s.now deadline, phase := .top } []
  | scanMiss {pid rest task park} :
      s.phase = .pop → s.runQueue = pid :: rest → s.tasks pid = some task →
      task.wait = some park → task.mailbox ≠ [] → (∀ m ∈ task.mailbox, park.accepts m = false) →
      Step loop s .pop
        { s with
          tasks := update s.tasks pid (some { task with state := .blocked })
          runQueue := rest
          phase := .top } []
  | scanHit {pid rest task park pre msg post hit} :
      s.phase = .pop → s.runQueue = pid :: rest → s.tasks pid = some task →
      task.wait = some park → task.mailbox = pre ++ msg :: post →
      (∀ m ∈ pre, park.accepts m = false) → park.tryMatch msg = some hit →
      Step loop s .pop
        { s with
          tasks := update s.tasks pid
            (some { state := .running, mailbox := pre ++ post, wait := none, runnable := none })
          runQueue := rest
          timers := park.cancelTimer s.timers
          phase := .running pid }
        [.delivered pid msg, .resumed pid (park.outcomeClosure hit)]
  | resume {pid rest task closure} :
      s.phase = .pop → s.runQueue = pid :: rest → s.tasks pid = some task →
      task.wait = none ∨ task.mailbox = [] → task.runnable = some closure →
      Step loop s .pop
        { s with
          tasks := update s.tasks pid (some { task with state := .running, runnable := none })
          runQueue := rest
          phase := .running pid } [.resumed pid closure]
  | dropped {sender receiver msg} :
      s.phase.current = some sender →
      (∀ task, s.tasks receiver = some task → task.state = .exited) →
      Step loop s (.send receiver msg) s [.dropped receiver msg]
  /-- The JIT does not look at the process when it sends to itself. -/
  | pushSelf {pid task msg} :
      loop = .jit → s.phase.current = some pid → s.tasks pid = some task →
      Step loop s (.send pid msg)
        { s with tasks := update s.tasks pid (some (task.push msg)) } [.accepted pid msg]
  | push {sender receiver task msg} :
      s.phase.current = some sender → s.tasks receiver = some task → task.state ≠ .exited →
      (∀ park, task.wait = some park → park.accepts msg = false) →
      (task.wait = none → task.state ≠ .blocked) →
      Step loop s (.send receiver msg)
        { s with tasks := update s.tasks receiver (some (task.push msg)) }
        [.accepted receiver msg]
  | hit {sender receiver task park msg hit} :
      s.phase.current = some sender → s.tasks receiver = some task → task.state ≠ .exited →
      task.wait = some park → park.tryMatch msg = some hit →
      Step loop s (.send receiver msg)
        { s with
          tasks := update s.tasks receiver
            (some { task.resolve park hit with state := .ready })
          runQueue := s.runQueue ++ [receiver]
          timers := park.cancelTimer s.timers }
        [.accepted receiver msg, .delivered receiver msg]
  | wake {sender receiver task msg} :
      s.phase.current = some sender → s.tasks receiver = some task →
      task.wait = none → task.state = .blocked →
      Step loop s (.send receiver msg)
        { s with
          tasks := update s.tasks receiver (some { task.push msg with state := .ready })
          runQueue := s.runQueue ++ [receiver] }
        [.accepted receiver msg]
  | spawn {pid entry} :
      s.phase.current = some pid →
      Step loop s (.spawn entry) (s.spawnClosure .ready entry) []
  | requeue {a pid queue task timers} :
      Ending s a pid queue task timers → requeues loop task →
      Step loop s a
        { s with
          tasks := update s.tasks pid (some { task with state := .ready })
          runQueue := queue ++ [pid]
          timers
          phase := .top } []
  | exit {a pid queue task timers} :
      Ending s a pid queue task timers → task.wait = none →
      (task.state = .running → task.runnable = none) →
      Step loop s a
        { s with
          tasks := update s.tasks pid (some { task with state := .exited })
          runQueue := queue
          timers
          phase := .exiting pid } [.exited pid]
  /-- The task stays as it came back, out of the queue. -/
  | leave {a pid queue task timers} :
      Ending s a pid queue task timers → task.state ≠ .ready →
      (task.state = .running → loop = .aot ∧ task.wait.isSome) →
      Step loop s a
        { s with
          tasks := update s.tasks pid (some task)
          runQueue := queue
          timers
          phase := .top } []
  | dtorYield {pid task cont} :
      s.phase = .exiting pid → s.tasks pid = some task →
      Step loop s (.yield cont)
        { s with tasks := update s.tasks pid (some { task with runnable := some cont }) } []
  | dtorReceive {pid task site} :
      s.phase = .exiting pid → s.tasks pid = some task →
      Step loop s (.receive site)
        { s with
          tasks := update s.tasks pid
            (some (receiveParkMatched task s.timers s.now pid site).1)
          timers := (receiveParkMatched task s.timers s.now pid site).2 } []
  | finish {pid} : s.phase = .exiting pid → Step loop s .finish { s with phase := .top } []

/-! ## Inversion -/

section Inversion

variable {loop : LoopKind} {s s' : Runtime V} {es : List (Event V)}

theorem Process.state_eta {task : Process V} {state : ProcessState} (h : task.state = state) :
    { task with state } = task := by
  subst h
  rfl

theorem Jit.postQuantum_blocked (s : Runtime V) (pid : PidId) (task : Process V)
    (hblocked : task.state = .blocked) (hwait : task.wait.isSome) :
    Jit.postQuantum s pid task = ({ s.setTask pid task with phase := .top }, []) := by
  have hsome : task.wait.isNone = false := by simpa using hwait
  simp only [Jit.postQuantum, hblocked, hsome, reduceCtorEq, false_and, Bool.false_eq_true,
    if_false, if_true]

variable {pid : PidId}

theorem Jit.step_of_ending {a : Act V} {queue : List PidId} {task : Process V}
    {timers : TimerWheel} (he : Ending s a pid queue task timers)
    (h : Jit.postQuantum { s with runQueue := queue, timers } pid task = (s', es)) :
    Step .jit s a s' es := by
  unfold Jit.postQuantum at h
  split at h
  next hrun =>
    cases h
    exact .requeue he (.inr ⟨hrun.1, .inl hrun.2⟩)
  next hrun =>
    split at h
    next hwait =>
      cases h
      exact .exit he (Option.isNone_iff_eq_none.mp hwait) fun hr => by simpa [hr] using hrun
    next hwait =>
      have hsome : task.wait.isSome := by simpa [Option.isSome_iff_ne_none] using hwait
      split at h
      next hblocked =>
        cases h
        exact .leave he (by simp [hblocked]) (by simp [hblocked])
      next =>
        split at h
        next hready =>
          cases h
          have hstep := Step.requeue he (.inl ⟨hready, .inr hsome⟩ : requeues .jit task)
          rw [Process.state_eta hready] at hstep
          exact hstep
        next hready =>
          split at h
          next hrunning =>
            cases h
            exact .requeue he (.inr ⟨hrunning, .inr ⟨rfl, hsome⟩⟩)
          next hrunning =>
            cases h
            exact .leave he hready fun hr => absurd hr hrunning

theorem Aot.step_of_ending {a : Act V} {queue : List PidId} {task : Process V}
    {timers : TimerWheel} (he : Ending s a pid queue task timers)
    (h : Aot.postQuantum { s with runQueue := queue, timers } pid task = (s', es)) :
    Step .aot s a s' es := by
  unfold Aot.postQuantum at h
  split at h
  next hrun =>
    cases h
    exact .requeue he (.inr ⟨hrun.1, .inl hrun.2⟩)
  next hrun =>
    split at h
    next hready =>
      cases h
      have hstep := Step.requeue he (.inl ⟨hready, .inl rfl⟩ : requeues .aot task)
      rw [Process.state_eta hready] at hstep
      exact hstep
    next hready =>
      split at h
      next hexit =>
        cases h
        exact .exit he (Option.isNone_iff_eq_none.mp hexit.2) fun hr => by simpa [hr] using hrun
      next hexit =>
        cases h
        refine .leave he hready fun hr => ⟨rfl, ?_⟩
        simpa [hr, Option.isSome_iff_ne_none] using hexit

theorem step_of_ending {a : Act V} {queue : List PidId} {task : Process V}
    {timers : TimerWheel} (he : Ending s a pid queue task timers)
    (h : postQuantum loop { s with runQueue := queue, timers } pid task = (s', es)) :
    Step loop s a s' es := by
  cases loop with
  | jit => exact Jit.step_of_ending he h
  | aot => exact Aot.step_of_ending he h

theorem sendVia_cases {sender receiver : PidId} {msg : V} (hcur : s.phase.current = some sender)
    (h : sendVia s sender receiver msg = (s', es)) : Step .jit s (.send receiver msg) s' es := by
  unfold sendVia at h
  split at h
  next hnone =>
    cases h
    exact .dropped hcur (by simp [hnone])
  next task htask =>
    split at h
    next hself =>
      subst hself
      cases h
      exact .pushSelf rfl hcur htask
    next =>
      split at h
      next hexited =>
        cases h
        exact .dropped hcur (by simp [htask, hexited])
      next hlive =>
        split at h
        next park hwait =>
          split at h
          next hit hhit =>
            cases h
            exact .hit hcur htask hlive hwait hhit
          next hmiss =>
            cases h
            refine .push hcur htask hlive ?_ (by simp [hwait])
            simp [hwait, ParkRecord.accepts_eq_false_iff, hmiss]
        next hwait =>
          split at h
          next hblocked =>
            cases h
            exact .wake hcur htask hwait hblocked
          next hblocked =>
            cases h
            exact .push hcur htask hlive (by simp [hwait]) fun _ => hblocked

theorem aotSendHook_cases {sender receiver : PidId} {msg : V}
    (hcur : s.phase.current = some sender) (h : aotSendHook s receiver msg = (s', es)) :
    Step .aot s (.send receiver msg) s' es := by
  unfold aotSendHook at h
  split at h
  next hnone =>
    cases h
    exact .dropped hcur (by simp [hnone])
  next task htask =>
    split at h
    next hexited =>
      cases h
      exact .dropped hcur (by simp [htask, hexited])
    next hlive =>
      cases hwait : task.wait with
      | some park =>
        cases hmatch : park.tryMatch msg with
        | some hit =>
          rw [if_pos (by simp [hwait]), probeSender_hit s.timers hwait hmatch] at h
          cases h
          exact .hit hcur htask hlive hwait hmatch
        | none =>
          have hmiss : ∀ park', task.wait = some park' → park'.tryMatch msg = none := by
            intro park' hwait'
            cases Option.some.inj (hwait.symm.trans hwait')
            exact hmatch
          rw [if_pos (by simp [hwait]), probeSender_miss s.timers hmiss] at h
          cases h
          exact .push hcur htask hlive
            (fun park' hwait' => ParkRecord.accepts_eq_false_iff.mpr (hmiss park' hwait'))
            (by simp [hwait])
      | none =>
        rw [if_neg (by simp [hwait])] at h
        split at h
        next hblocked =>
          cases h
          exact .wake hcur htask hwait hblocked
        next hblocked =>
          cases h
          exact .push hcur htask hlive (by simp [hwait]) fun _ => hblocked

theorem routeEntry_cases {entry : TimerEntry} {rest : List TimerEntry}
    (hphase : s.phase = .routing (entry :: rest))
    (h : routeEntry { s with phase := .routing rest } entry = (s', es)) :
    Step loop s .route s' es := by
  unfold routeEntry at h
  split at h
  next hnone =>
    cases h
    exact .stale hphase (by intro task park ht; exact absurd (hnone.symm.trans ht) (by simp))
  next task htask =>
    cases hwait : task.wait with
    | none =>
      simp only [fireAfterTimer, hwait] at h
      cases h
      refine .stale hphase ?_
      intro task' park ht hw
      cases Option.some.inj (htask.symm.trans ht)
      rw [hwait] at hw
      cases hw
    | some park =>
      simp only [fireAfterTimer, hwait] at h
      by_cases htimer : park.afterTimerId = some entry.id
      · rw [if_pos htimer] at h
        cases h
        exact .fire hphase htask hwait htimer
      · rw [if_neg htimer] at h
        cases h
        refine .stale hphase ?_
        intro task' park' ht hw
        cases Option.some.inj (htask.symm.trans ht)
        cases Option.some.inj (hwait.symm.trans hw)
        exact htimer

theorem initialScan_notApplicable {task : Process V} (timers : TimerWheel)
    (h : task.wait = none ∨ task.mailbox = []) :
    initialScan task timers = (.notApplicable, task, timers) := by
  unfold initialScan
  split
  · rfl
  next park hwait =>
    have hmail : task.mailbox = [] := h.resolve_left (by simp [hwait])
    simp [hmail]

theorem initialScan_cases {task : Process V} {park : ParkRecord V} (timers : TimerWheel)
    (hwait : task.wait = some park) (hmail : task.mailbox ≠ []) :
    (∃ pre msg post hit, task.mailbox = pre ++ msg :: post ∧
        (∀ m ∈ pre, park.accepts m = false) ∧ park.tryMatch msg = some hit ∧
        initialScan task timers =
          (.hit msg, { task.resolve park hit with mailbox := pre ++ post },
            park.cancelTimer timers)) ∨
      ((∀ m ∈ task.mailbox, park.accepts m = false) ∧
        initialScan task timers = (.miss, { task with state := .blocked }, timers)) := by
  have hne : task.mailbox.isEmpty = false := by simpa using hmail
  rcases scanMailbox_spec park [] task.mailbox with
    ⟨pre, msg, post, hit, hsplit, hpre, hhit, heq⟩ | ⟨hall, heq⟩
  · refine .inl ⟨pre, msg, post, hit, hsplit, hpre, hhit, ?_⟩
    simp only [initialScan, hwait, hne, heq, Bool.false_eq_true, if_false, List.nil_append]
  · refine .inr ⟨hall, ?_⟩
    simp only [initialScan, hwait, hne, heq, Bool.false_eq_true, if_false, List.nil_append]

theorem dispatch_noScan {task : Process V}
    (h : task.wait = none ∨ task.mailbox = []) :
    dispatch loop s pid task = resumeRunnable loop s pid { task with state := .running } [] := by
  unfold dispatch
  rw [@initialScan_notApplicable V { task with state := .running } s.timers h]

theorem dispatch_hit {task : Process V} {park : ParkRecord V} {pre post : List V}
    {msg : V} {hit : Fin park.clauseBodies.length × List V}
    (h : initialScan { task with state := .running } s.timers =
      (.hit msg, { ({ task with state := .running } : Process V).resolve park hit with
        mailbox := pre ++ post }, park.cancelTimer s.timers)) :
    dispatch loop s pid task =
      ({ { s with timers := park.cancelTimer s.timers }.setTask pid
          ⟨.running, pre ++ post, none, none⟩ with phase := .running pid },
        [.delivered pid msg, .resumed pid (park.outcomeClosure hit)]) := by
  unfold dispatch
  rw [h]
  rfl

theorem dispatch_miss {task : Process V} (hwait : task.wait.isSome)
    (h : initialScan { task with state := .running } s.timers =
      (.miss, { task with state := .blocked }, s.timers)) :
    dispatch loop s pid task =
      ({ s.setTask pid { task with state := .blocked } with phase := .top }, []) := by
  unfold dispatch
  rw [h]
  cases loop with
  | jit => exact Jit.postQuantum_blocked s pid _ rfl hwait
  | aot => rfl

theorem dispatch_cases {rest : List PidId} {task : Process V}
    (hphase : s.phase = .pop) (hqueue : s.runQueue = pid :: rest) (htask : s.tasks pid = some task)
    (h : dispatch loop { s with runQueue := rest } pid task = (s', es)) :
    Step loop s .pop s' es := by
  by_cases hscan : task.wait = none ∨ task.mailbox = []
  · rw [dispatch_noScan hscan] at h
    unfold resumeRunnable at h
    split at h
    next closure hrun =>
      cases h
      exact @Step.resume V loop s pid rest task closure hphase hqueue htask hscan hrun
    next hrun => exact step_of_ending (.nothing hphase hqueue htask hscan hrun) h
  · obtain ⟨hsome, hmail⟩ := not_or.mp hscan
    obtain ⟨park, hwait⟩ := Option.ne_none_iff_exists'.mp hsome
    rcases @initialScan_cases V { task with state := .running } park s.timers hwait hmail with
      ⟨pre, msg, post, hit, hsplit, hpre, hhit, heq⟩ | ⟨hall, heq⟩
    · rw [@dispatch_hit V loop { s with runQueue := rest } pid task park pre post msg hit heq] at h
      cases h
      exact .scanHit hphase hqueue htask hwait hsplit hpre hhit
    · rw [@dispatch_miss V loop { s with runQueue := rest } pid task (by simp [hwait]) heq] at h
      cases h
      exact .scanMiss hphase hqueue htask hwait hmail hall

theorem endPart_cases {a : Act V} {task : Process V} {timers : TimerWheel}
    (hcur : s.phase.current = some pid)
    (hquantum : s.phase = .running pid → Ending s a pid s.runQueue task timers)
    (hdtor : s.phase = .exiting pid → Step loop s a ({ s with timers }.setTask pid task) [])
    (h : endPart loop { s with timers } pid task = (s', es)) : Step loop s a s' es := by
  unfold endPart at h
  split at h
  next q hphase =>
    have hphase : s.phase = .running q := hphase
    rw [hphase] at hcur
    cases hcur
    exact step_of_ending (hquantum hphase) h
  next hnot =>
    cases h
    refine hdtor ?_
    unfold Phase.current at hcur
    split at hcur
    next q hphase => exact absurd hphase (hnot q)
    next q hphase =>
      cases hcur
      exact hphase
    · cases hcur

/-- Every step of a loop is one of the listed effects. -/
theorem step_cases {a : Act V} (h : step loop s a = some (s', es)) : Step loop s a s' es := by
  cases a with
  | tick elapsed =>
    cases h
    exact .tick
  | boot main =>
    simp only [step] at h
    split at h
    next hphase =>
      cases loop with
      | jit =>
        cases h
        exact .boot hphase (.inl rfl)
      | aot =>
        simp only [boot] at h
        split at h
        · cases h
          exact .boot hphase (.inr rfl)
        · cases h
    · cases h
  | start =>
    simp only [step] at h
    split at h
    next hphase =>
      cases h
      exact .start hphase
    · cases h
  | drain =>
    simp only [step] at h
    split at h
    next hphase =>
      cases h
      exact .drain hphase
    · cases h
  | route =>
    simp only [step] at h
    split at h
    next hphase =>
      cases h
      exact .routed hphase
    next entry rest hphase => exact routeEntry_cases hphase (Option.some.inj h)
    · cases h
  | pop =>
    simp only [step] at h
    split at h
    next hphase =>
      split at h
      next hqueue =>
        cases loop with
        | jit =>
          cases h
          exact .returned hphase hqueue (.inl rfl)
        | aot =>
          simp only [emptyQueue] at h
          split at h
          next deadline hnext =>
            cases h
            exact .sleep hphase hqueue rfl hnext
          next hnext =>
            cases h
            exact .returned hphase hqueue (.inr hnext)
      next pid rest hqueue =>
        obtain ⟨task, htask, h⟩ := Option.map_eq_some_iff.mp h
        exact dispatch_cases hphase hqueue htask h
    · cases h
  | send receiver msg =>
    obtain ⟨sender, hcur, h⟩ := Option.map_eq_some_iff.mp h
    cases loop with
    | jit => exact sendVia_cases hcur h
    | aot => exact aotSendHook_cases hcur h
  | spawn entry =>
    obtain ⟨pid, hcur, h⟩ := Option.map_eq_some_iff.mp h
    cases h
    exact .spawn hcur
  | yield cont =>
    simp only [step, Option.bind_eq_bind, Option.bind_eq_some_iff] at h
    obtain ⟨pid, hcur, task, htask, h⟩ := h
    exact endPart_cases hcur (fun hphase => .yield hphase htask)
      (fun hphase => .dtorYield hphase htask) (Option.some.inj h)
  | receive site =>
    simp only [step, Option.bind_eq_bind, Option.bind_eq_some_iff] at h
    obtain ⟨pid, hcur, task, htask, h⟩ := h
    exact endPart_cases hcur (fun hphase => .receive hphase htask)
      (fun hphase => .dtorReceive hphase htask) (Option.some.inj h)
  | halt =>
    simp only [step] at h
    split at h
    next pid hphase =>
      obtain ⟨task, htask, h⟩ := Option.map_eq_some_iff.mp h
      exact step_of_ending (.halt hphase htask) h
    · cases h
  | finish =>
    simp only [step] at h
    split at h
    next pid hphase =>
      cases h
      exact .finish hphase
    · cases h

end Inversion

/-! ## Pids -/

section Pids

variable {loop : LoopKind} {s s' : Runtime V} {a : Act V} {es : List (Event V)}

theorem Ending.task {pid : PidId} {queue : List PidId} {task : Process V} {timers : TimerWheel}
    (h : Ending s a pid queue task timers) :
    ∃ task₀, s.tasks pid = some task₀ ∧ task.mailbox = task₀.mailbox := by
  cases h with
  | nothing _ _ htask _ _ => exact ⟨_, htask, rfl⟩
  | yield _ htask => exact ⟨_, htask, rfl⟩
  | receive _ htask => exact ⟨_, htask, rfl⟩
  | halt _ htask => exact ⟨_, htask, rfl⟩

/-- Pids not handed out yet name no task. -/
def Fresh (s : Runtime V) : Prop := ∀ pid, s.nextPid ≤ pid → s.tasks pid = none

theorem Fresh.update {pid : PidId} {task task' : Process V} (hs : Fresh s)
    (htask : s.tasks pid = some task) :
    ∀ q, s.nextPid ≤ q → Function.update s.tasks pid (some task') q = none := by
  intro q hq
  have hne : q ≠ pid := by
    rintro rfl
    rw [hs q hq] at htask
    cases htask
  rw [Function.update_of_ne hne]
  exact hs q hq

theorem Fresh.spawnClosure (hs : Fresh s) (state : ProcessState) (entry : Closure V) :
    Fresh (s.spawnClosure state entry) := by
  intro q hq
  have hlt : s.nextPid < q := hq
  show Function.update s.tasks s.nextPid _ q = none
  rw [Function.update_of_ne (Nat.ne_of_gt hlt)]
  exact hs q (Nat.le_of_lt hlt)

theorem Step.fresh (h : Step loop s a s' es) (hs : Fresh s) : Fresh s' := by
  cases h with
  | tick => exact hs
  | boot _ _ => exact hs.spawnClosure _ _
  | start _ => exact hs
  | drain _ => exact hs
  | routed _ => exact hs
  | stale _ _ => exact hs
  | fire _ htask _ _ => exact hs.update htask
  | returned _ _ _ => exact hs
  | sleep _ _ _ _ => exact hs
  | scanMiss _ _ htask _ _ _ => exact hs.update htask
  | scanHit _ _ htask _ _ _ _ => exact hs.update htask
  | resume _ _ htask _ _ => exact hs.update htask
  | dropped _ _ => exact hs
  | pushSelf _ _ htask => exact hs.update htask
  | push _ htask _ _ _ => exact hs.update htask
  | hit _ htask _ _ _ => exact hs.update htask
  | wake _ htask _ _ => exact hs.update htask
  | spawn _ => exact hs.spawnClosure _ _
  | requeue hend _ => exact hs.update hend.task.choose_spec.1
  | exit hend _ _ => exact hs.update hend.task.choose_spec.1
  | leave hend _ _ => exact hs.update hend.task.choose_spec.1
  | dtorYield _ htask => exact hs.update htask
  | dtorReceive _ htask => exact hs.update htask
  | finish _ => exact hs

theorem init_fresh : Fresh (.init : Runtime V) := fun _ _ => rfl

end Pids

end Fz.Sched
