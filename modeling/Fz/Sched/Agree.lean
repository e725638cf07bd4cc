import Fz.Sched.Armed
import Fz.Sched.Queue

/-!
# When the two loops agree

A simulation of the JIT's loop by the loop of compiled executables.  Where no process is
woken twice for one park and the JIT does not leave early, the two take the same steps
and start the same after bodies.

Two differences stay and are harmless.  The main task is Ready in one and New in the
other until its first dispatch.  A destructor's message to its own process joins the
mailbox of the exited process in one and is dropped in the other.
-/

namespace Fz.Sched

open Fz.Base Function

variable {V : Type} {s t s' : Runtime V} {a : Act V} {es : List (Event V)} {as : List (Act V)}

/-- The same task, up to the mail of an exited one and a main task that has not run. -/
structure Process.Alike (u v : Process V) : Prop where
  wait : u.wait = v.wait
  runnable : u.runnable = v.runnable
  rest : u.state = v.state ∧ u.mailbox = v.mailbox ∨ u.state = .exited ∧ v.state = .exited ∨
    u.state = .ready ∧ v.state = .new ∧ u.mailbox = v.mailbox

structure Alike (s t : Runtime V) : Prop where
  tasks : ∀ pid, Option.Rel Process.Alike (s.tasks pid) (t.tasks pid)
  runQueue : t.runQueue = s.runQueue
  nextPid : t.nextPid = s.nextPid
  timers : t.timers = s.timers
  now : t.now = s.now
  phase : t.phase = s.phase

namespace Process.Alike

variable {u v : Process V}

theorem refl (u : Process V) : u.Alike u := ⟨rfl, rfl, .inl ⟨rfl, rfl⟩⟩

theorem eq_of_state (h : u.Alike v) (hexit : u.state ≠ .exited) (hready : u.state ≠ .ready) :
    v = u := by
  obtain ⟨hwait, hrun, ⟨hstate, hmail⟩ | ⟨h, -⟩ | ⟨h, -⟩⟩ := h
  · cases u
    cases v
    cases hwait
    cases hrun
    cases hstate
    cases hmail
    rfl
  · exact absurd h hexit
  · exact absurd h hready

theorem mailbox (h : u.Alike v) (hexit : u.state ≠ .exited) : v.mailbox = u.mailbox := by
  rcases h.rest with ⟨-, h⟩ | ⟨h, -⟩ | ⟨-, -, h⟩
  · exact h.symm
  · exact absurd h hexit
  · exact h.symm

theorem dispatched (h : u.Alike v) (hexit : u.state ≠ .exited) :
    { v with state := .running } = { u with state := .running } := by
  have hmail := h.mailbox hexit
  cases u
  cases v
  cases h.wait
  cases h.runnable
  cases hmail
  rfl

theorem exited_iff (h : u.Alike v) : v.state = .exited ↔ u.state = .exited := by
  rcases h.rest with ⟨h, -⟩ | ⟨h, h'⟩ | ⟨h, h', -⟩
  · rw [h]
  · rw [h, h']
  · rw [h, h']
    exact ⟨nofun, nofun⟩

theorem blocked_iff (h : u.Alike v) : v.state = .blocked ↔ u.state = .blocked := by
  rcases h.rest with ⟨h, -⟩ | ⟨h, h'⟩ | ⟨h, h', -⟩
  · rw [h]
  · rw [h, h']
  · rw [h, h']
    exact ⟨nofun, nofun⟩

theorem push (h : u.Alike v) (msg : V) : (u.push msg).Alike (v.push msg) := by
  refine ⟨h.wait, h.runnable, ?_⟩
  rcases h.rest with ⟨h, hmail⟩ | h | ⟨h, h', hmail⟩
  · exact .inl ⟨h, by simp only [Process.push, hmail]⟩
  · exact .inr (.inl h)
  · exact .inr (.inr ⟨h, h', by simp only [Process.push, hmail]⟩)

end Process.Alike

namespace Alike

theorem of_some (h : Alike s t) {pid : PidId} {u : Process V} (hu : s.tasks pid = some u) :
    ∃ v, t.tasks pid = some v ∧ u.Alike v := by
  have hrel := h.tasks pid
  rw [hu] at hrel
  cases hv : t.tasks pid with
  | none =>
    rw [hv] at hrel
    cases hrel
  | some v =>
    rw [hv] at hrel
    cases hrel with
    | some hrel => exact ⟨v, rfl, hrel⟩

theorem of_none (h : Alike s t) {pid : PidId} (hu : s.tasks pid = none) : t.tasks pid = none := by
  have hrel := h.tasks pid
  rw [hu] at hrel
  cases hv : t.tasks pid with
  | none => rfl
  | some v =>
    rw [hv] at hrel
    cases hrel

theorem update_tasks (h : Alike s t) {pid : PidId} {u v : Process V} (huv : u.Alike v) :
    ∀ q, Option.Rel Process.Alike (update s.tasks pid (some u) q)
      (update t.tasks pid (some v) q) := by
  intro q
  by_cases hq : q = pid
  · subst hq
    rw [update_self, update_self]
    exact .some huv
  · rw [update_of_ne hq, update_of_ne hq]
    exact h.tasks q

theorem setTask (h : Alike s t) (pid : PidId) {u v : Process V} (huv : u.Alike v) :
    Alike (s.setTask pid u) (t.setTask pid v) :=
  ⟨h.update_tasks huv, h.runQueue, h.nextPid, h.timers, h.now, h.phase⟩

theorem enqueue (h : Alike s t) (pid : PidId) : Alike (s.enqueue pid) (t.enqueue pid) :=
  ⟨h.tasks, by simp only [Runtime.enqueue, h.runQueue], h.nextPid, h.timers, h.now, h.phase⟩

theorem setPhase (h : Alike s t) (phase : Phase) : Alike { s with phase } { t with phase } :=
  ⟨h.tasks, h.runQueue, h.nextPid, h.timers, h.now, rfl⟩

theorem setTimers (h : Alike s t) (timers : TimerWheel) :
    Alike { s with timers } { t with timers } :=
  ⟨h.tasks, h.runQueue, h.nextPid, rfl, h.now, h.phase⟩

theorem spawnClosure (h : Alike s t) {state state' : ProcessState} (entry : Closure V)
    (hstate : state = state' ∨ state = .ready ∧ state' = .new) :
    Alike (s.spawnClosure state entry) (t.spawnClosure state' entry) := by
  refine ⟨?_, ?_, ?_, h.timers, h.now, h.phase⟩
  · simp only [Runtime.spawnClosure, h.nextPid]
    refine h.update_tasks ⟨rfl, rfl, ?_⟩
    rcases hstate with rfl | ⟨rfl, rfl⟩
    · exact .inl ⟨rfl, rfl⟩
    · exact .inr (.inr ⟨rfl, rfl, rfl⟩)
  · simp only [Runtime.spawnClosure, h.runQueue, h.nextPid]
  · simp only [Runtime.spawnClosure, h.nextPid]

end Alike

/-! ## Function by function -/

/-- The process whose after body the event starts. -/
def Event.fired? : Event V → Option PidId
  | .fired pid => some pid
  | _ => none

/-- Two outcomes of a step that agree. -/
def Agrees (r q : Runtime V × List (Event V)) : Prop :=
  Alike r.1 q.1 ∧ r.2.filterMap Event.fired? = q.2.filterMap Event.fired?

theorem Agrees.of_alike (h : Alike s t) (es : List (Event V)) : Agrees (s, es) (t, es) := ⟨h, rfl⟩

/-- A task that comes back parked, with a closure to go on, or done, is sorted alike. -/
theorem postQuantum_agrees (h : Alike s t) (pid : PidId) {w : Process V}
    (hw : w.state = .running ∧ w.wait = none ∨
      (w.state = .blocked ∨ w.state = .ready) ∧ w.wait.isSome) :
    Agrees (postQuantum .jit s pid w) (postQuantum .aot t pid w) := by
  have hsame := h.setTask pid (Process.Alike.refl w)
  rcases hw with ⟨hstate, hwait⟩ | ⟨hstate | hstate, hwait⟩
  · cases hrun : w.runnable with
    | none =>
      have hjit : postQuantum .jit s pid w =
          ({ s.setTask pid { w with state := .exited } with phase := .exiting pid },
            [.exited pid]) := by
        simp [postQuantum, Jit.postQuantum, hstate, hwait, hrun]
      have haot : postQuantum .aot t pid w =
          ({ t.setTask pid { w with state := .exited } with phase := .exiting pid },
            [.exited pid]) := by
        simp [postQuantum, Aot.postQuantum, hstate, hwait, hrun]
      rw [hjit, haot]
      exact .of_alike ((h.setTask pid (.refl _)).setPhase _) _
    | some closure =>
      have hjit : postQuantum .jit s pid w =
          ({ (s.setTask pid { w with state := .ready }).enqueue pid with
            phase := .top }, []) := by
        simp [postQuantum, Jit.postQuantum, hstate, hrun]
      have haot : postQuantum .aot t pid w =
          ({ (t.setTask pid { w with state := .ready }).enqueue pid with
            phase := .top }, []) := by
        simp [postQuantum, Aot.postQuantum, hstate, hrun]
      rw [hjit, haot]
      exact .of_alike (((h.setTask pid (.refl _)).enqueue pid).setPhase _) _
  · have hjit : postQuantum .jit s pid w = ({ s.setTask pid w with phase := .top }, []) :=
      Jit.postQuantum_blocked s pid w hstate hwait
    have haot : postQuantum .aot t pid w = ({ t.setTask pid w with phase := .top }, []) := by
      simp [postQuantum, Aot.postQuantum, hstate]
    rw [hjit, haot]
    exact .of_alike (hsame.setPhase _) _
  · have hsome : w.wait.isNone = false := by simpa using hwait
    have hjit : postQuantum .jit s pid w =
        ({ (s.setTask pid w).enqueue pid with phase := .top }, []) := by
      simp [postQuantum, Jit.postQuantum, hstate, hsome]
    have haot : postQuantum .aot t pid w =
        ({ (t.setTask pid w).enqueue pid with phase := .top }, []) := by
      simp [postQuantum, Aot.postQuantum, hstate]
    rw [hjit, haot]
    exact .of_alike ((hsame.enqueue pid).setPhase _) _

theorem send_agrees (hs : QueueInv s) (h : Alike s t) {sender receiver : PidId} {msg : V}
    (hcur : s.phase.current = some sender) :
    Agrees (send .jit s sender receiver msg) (send .aot t sender receiver msg) := by
  cases hu : s.tasks receiver with
  | none =>
    have hv := h.of_none hu
    simp only [send, sendVia, aotSendHook, hu, hv]
    exact .of_alike h _
  | some u =>
    obtain ⟨v, hv, huv⟩ := h.of_some hu
    by_cases hself : sender = receiver
    · -- The running process is not parked; an exited one may keep the message or not.
      subst hself
      obtain ⟨hwait, hblocked⟩ := hs.current hcur hu
      have hwait' : v.wait.isSome = false := by rw [← huv.wait, hwait]; rfl
      by_cases hexit : u.state = .exited
      · simp only [send, sendVia, aotSendHook, hu, hv, if_true, huv.exited_iff.mpr hexit]
        refine ⟨⟨?_, h.runQueue, h.nextPid, h.timers, h.now, h.phase⟩, rfl⟩
        intro q
        by_cases hq : q = sender
        · subst hq
          rw [hv]
          show Option.Rel _ (update s.tasks q _ q) _
          rw [update_self]
          exact .some ⟨huv.wait, huv.runnable, .inr (.inl ⟨hexit, huv.exited_iff.mpr hexit⟩)⟩
        · show Option.Rel _ (update s.tasks sender _ q) _
          rw [update_of_ne hq]
          exact h.tasks q
      · have hexit' : v.state ≠ .exited := fun h => hexit (huv.exited_iff.mp h)
        have hblocked' : v.state ≠ .blocked := fun h => hblocked (huv.blocked_iff.mp h)
        simp only [send, sendVia, aotSendHook, hu, hv, if_true, hexit', hblocked', hwait',
          if_false, Bool.false_eq_true]
        exact .of_alike (h.setTask sender (huv.push msg)) _
    · by_cases hexit : u.state = .exited
      · simp only [send, sendVia, aotSendHook, hu, hv, hself, hexit, huv.exited_iff.mpr hexit,
          if_true, if_false]
        exact .of_alike h _
      · have hexit' : v.state ≠ .exited := fun h => hexit (huv.exited_iff.mp h)
        cases hwait : u.wait with
        | none =>
          have hwait' : v.wait.isSome = false := by rw [← huv.wait, hwait]; rfl
          -- A Blocked task has a pending receive.
          have hblocked : u.state ≠ .blocked := by
            intro hstate
            have hok := hs.ok receiver u hu
            unfold Process.Ok at hok
            rw [hstate, hwait] at hok
            cases hok.1
          have hblocked' : v.state ≠ .blocked := fun h => hblocked (huv.blocked_iff.mp h)
          simp only [send, sendVia, aotSendHook, hu, hv, hself, hexit, hexit', hwait, hwait',
            hblocked, hblocked', if_false, Bool.false_eq_true]
          exact .of_alike (h.setTask receiver (huv.push msg)) _
        | some park =>
          have hwait' : v.wait = some park := huv.wait ▸ hwait
          have hsome : v.wait.isSome = true := by rw [hwait']; rfl
          cases hmatch : park.tryMatch msg with
          | none =>
            have hmiss : ∀ park', v.wait = some park' → park'.tryMatch msg = none := by
              intro park' hpark'
              cases Option.some.inj (hwait'.symm.trans hpark')
              exact hmatch
            simp only [send, sendVia, aotSendHook, hu, hv, hself, hexit, hexit', hwait,
              hmatch, hsome, if_true, if_false, probeSender_miss t.timers hmiss]
            exact .of_alike (h.setTask receiver (huv.push msg)) _
          | some hit =>
            have hsame : v.resolve park hit =
                { u.resolve park hit with state := v.state } := by
              simp only [Process.resolve, huv.mailbox hexit]
            simp only [send, sendVia, aotSendHook, hu, hv, hself, hexit, hexit', hwait,
              hmatch, hsome, if_true, if_false, h.timers,
              probeSender_hit s.timers hwait' hmatch, hsame]
            exact .of_alike (((h.setTimers _).setTask receiver (.refl _)).enqueue receiver) _

theorem routeEntry_agrees (hs : QueueInv s) (h : Alike s t) (entry : TimerEntry) :
    Agrees (routeEntry s entry) (routeEntry t entry) := by
  cases hu : s.tasks entry.pid with
  | none =>
    simp only [routeEntry, hu, h.of_none hu]
    exact .of_alike h _
  | some u =>
    obtain ⟨v, hv, huv⟩ := h.of_some hu
    cases hwait : u.wait with
    | none =>
      have hwait' : v.wait = none := huv.wait ▸ hwait
      simp only [routeEntry, fireAfterTimer, hu, hv, hwait, hwait']
      exact .of_alike h _
    | some park =>
      have hwait' : v.wait = some park := huv.wait ▸ hwait
      have hexit : u.state ≠ .exited := by
        rcases (hs.ok _ u hu).state_cases hwait with hstate | hstate
        · rw [hstate]
          rintro ⟨⟩
        · rw [hstate]
          rintro ⟨⟩
      by_cases htimer : park.afterTimerId = some entry.id
      · simp only [routeEntry, fireAfterTimer, hu, hv, hwait, hwait', htimer, if_true,
          huv.mailbox hexit]
        exact .of_alike ((h.setTask entry.pid (.refl _)).enqueue entry.pid) _
      · simp only [routeEntry, fireAfterTimer, hu, hv, hwait, hwait', htimer, if_false]
        exact .of_alike h _

theorem dispatch_agrees (hs : QueueInv s) (h : Alike s t) {pid : PidId} {rest : List PidId}
    {u v : Process V} (hqueue : s.runQueue = pid :: rest) (hu : s.tasks pid = some u)
    (huv : u.Alike v) :
    Agrees (dispatch .jit { s with runQueue := rest } pid u)
      (dispatch .aot { t with runQueue := rest } pid v) := by
  have hexit : u.state ≠ .exited := by
    rcases (hs.popped hqueue hu).1 with hstate | hstate
    · rw [hstate]
      nofun
    · rw [hstate]
      nofun
  have hsame := huv.dispatched hexit
  have hst : Alike { s with runQueue := rest } { t with runQueue := rest } :=
    ⟨h.tasks, rfl, h.nextPid, h.timers, h.now, h.phase⟩
  rcases hs.popped_work hqueue hu with ⟨hwait, hrun⟩ | ⟨hwait, -, hmail⟩
  · obtain ⟨closure, hrun⟩ := Option.isSome_iff_exists.mp hrun
    rw [dispatch_noScan (.inl hwait), dispatch_noScan (.inl (huv.wait ▸ hwait)), hsame]
    simp only [resumeRunnable, hrun]
    exact .of_alike ((hst.setTask pid (.refl _)).setPhase _) _
  · obtain ⟨park, hwait⟩ := Option.isSome_iff_exists.mp hwait
    rcases @initialScan_cases V { u with state := .running } park s.timers hwait hmail with
      ⟨pre, msg, post, hit, -, -, -, heq⟩ | ⟨-, heq⟩
    · have heq' : initialScan { v with state := .running } t.timers =
          (.hit msg, { ({ v with state := .running } : Process V).resolve park hit with
            mailbox := pre ++ post }, park.cancelTimer t.timers) := by
        rw [hsame, h.timers]
        exact heq
      rw [@dispatch_hit V .jit { s with runQueue := rest } pid u park pre post msg hit heq,
        @dispatch_hit V .aot { t with runQueue := rest } pid v park pre post msg hit heq']
      simp only [h.timers]
      exact .of_alike (((hst.setTimers _).setTask pid (.refl _)).setPhase _) _
    · have hblocked : { v with state := .blocked } = { u with state := .blocked } := by
        rw [← huv.mailbox hexit, huv.wait, huv.runnable]
      have heq' : initialScan { v with state := .running } t.timers =
          (.miss, { v with state := .blocked }, t.timers) := by
        rw [hsame, hblocked, h.timers]
        exact heq
      rw [@dispatch_miss V .jit { s with runQueue := rest } pid u (by simp [hwait]) heq,
        @dispatch_miss V .aot { t with runQueue := rest } pid v (by simp [← huv.wait, hwait]) heq',
        hblocked]
      exact .of_alike ((hst.setTask pid (.refl _)).setPhase _) _

theorem endPart_agrees (h : Alike s t) {pid : PidId} {w v : Process V} (hwv : w.Alike v)
    (hrun : ∀ q, s.phase = .running q → v = w ∧ (w.state = .running ∧ w.wait = none ∨
      (w.state = .blocked ∨ w.state = .ready) ∧ w.wait.isSome)) :
    Agrees (endPart .jit s pid w) (endPart .aot t pid v) := by
  unfold endPart
  rw [h.phase]
  split
  next q hphase =>
    obtain ⟨rfl, hw⟩ := hrun q hphase
    exact postQuantum_agrees h pid hw
  · exact .of_alike (h.setTask pid hwv) _

/-! ## Step by step -/

/-- Only one main task is entered. -/
def OneMain (s : Runtime V) (a : Act V) : Prop := ∀ main, a = .boot main → s.nextPid = 1

/-- A step of the JIT that wakes nobody twice and does not leave early is a step of the
other loop. -/
theorem step_agrees {r : Runtime V × List (Event V)} (hs : QueueInv s) (h : Alike s t)
    (hwake : WakesOnce s a) (hreturn : NoEarlyReturn s a) (hmain : OneMain s a)
    (hstep : step .jit s a = some r) : ∃ q, step .aot t a = some q ∧ Agrees r q := by
  cases a with
  | tick elapsed =>
    cases hstep
    refine ⟨_, rfl, ?_, rfl⟩
    exact ⟨h.tasks, h.runQueue, h.nextPid, h.timers, by simp only [h.now], h.phase⟩
  | boot main =>
    simp only [step, h.phase] at hstep ⊢
    split at hstep
    next hphase =>
      cases hstep
      have hnext : t.nextPid = 1 := h.nextPid.trans (hmain main rfl)
      refine ⟨(t.spawnClosure .new main, []), by simp only [boot, hnext, if_true]; rfl, ?_⟩
      exact .of_alike (h.spawnClosure main (.inr ⟨rfl, rfl⟩)) _
    · cases hstep
  | start =>
    simp only [step, h.phase] at hstep ⊢
    split at hstep
    · cases hstep
      exact ⟨_, rfl, .of_alike (h.setPhase _) _⟩
    · cases hstep
  | drain =>
    simp only [step, h.phase, h.timers, h.now] at hstep ⊢
    split at hstep
    · cases hstep
      exact ⟨_, rfl, ⟨h.tasks, h.runQueue, h.nextPid, rfl, rfl, rfl⟩, rfl⟩
    · cases hstep
  | route =>
    simp only [step, h.phase] at hstep ⊢
    split at hstep
    · cases hstep
      exact ⟨_, rfl, .of_alike (h.setPhase _) _⟩
    next entry rest hphase =>
      cases hstep
      refine ⟨_, rfl, routeEntry_agrees ?_ (h.setPhase _) entry⟩
      exact hs.rephase rfl rfl rfl rfl
    · cases hstep
  | pop =>
    simp only [step, h.phase, h.runQueue] at hstep ⊢
    split at hstep
    next hphase =>
      split at hstep
      next hqueue =>
        cases hstep
        have hnone : t.timers.nextDeadline = none := by
          rw [h.timers]
          exact hreturn rfl hphase hqueue
        refine ⟨_, rfl, ?_⟩
        simp only [emptyQueue, hnone]
        exact .of_alike (h.setPhase _) _
      next pid rest hqueue =>
        obtain ⟨u, hu, rfl⟩ := Option.map_eq_some_iff.mp hstep
        obtain ⟨v, hv, huv⟩ := h.of_some hu
        exact ⟨_, by rw [hv]; rfl, dispatch_agrees hs h hqueue hu huv⟩
    · cases hstep
  | send receiver msg =>
    obtain ⟨sender, hcur, rfl⟩ := Option.map_eq_some_iff.mp hstep
    refine ⟨_, ?_, send_agrees hs h hcur⟩
    simp only [step, h.phase, hcur, Option.map_some]
  | spawn entry =>
    obtain ⟨pid, hcur, rfl⟩ := Option.map_eq_some_iff.mp hstep
    refine ⟨_, ?_, .of_alike (h.spawnClosure entry (.inl rfl)) _⟩
    simp only [step, h.phase, hcur, Option.map_some]
  | yield cont =>
    simp only [step, Option.bind_eq_bind, Option.bind_eq_some_iff] at hstep
    obtain ⟨pid, hcur, u, hu, hstep⟩ := hstep
    cases hstep
    obtain ⟨v, hv, huv⟩ := h.of_some hu
    refine ⟨endPart .aot t pid { v with runnable := some cont }, ?_, ?_⟩
    · simp only [step, h.phase, hcur, hv, Option.bind_eq_bind, Option.bind_some]
    · refine endPart_agrees h ⟨huv.wait, rfl, huv.rest⟩ fun q hphase => ?_
      rw [hphase] at hcur
      cases hcur
      obtain ⟨hstate, hwait⟩ := hs.running_task hphase hu
      rw [huv.eq_of_state (by rw [hstate]; rintro ⟨⟩) (by rw [hstate]; rintro ⟨⟩)]
      exact ⟨rfl, .inl ⟨hstate, hwait⟩⟩
  | receive site =>
    simp only [step, Option.bind_eq_bind, Option.bind_eq_some_iff] at hstep
    obtain ⟨pid, hcur, u, hu, hstep⟩ := hstep
    cases hstep
    obtain ⟨v, hv, huv⟩ := h.of_some hu
    have hphase : s.phase = .running pid := by
      unfold Phase.current at hcur
      split at hcur
      next q hphase =>
        cases hcur
        exact hphase
      next q hphase => exact absurd hphase (hwake.dtor site q rfl)
      · cases hcur
    obtain ⟨hstate, hwait⟩ := hs.running_task hphase hu
    have heq := huv.eq_of_state (by rw [hstate]; rintro ⟨⟩) (by rw [hstate]; rintro ⟨⟩)
    refine ⟨_, ?_, endPart_agrees (h.setTimers (receiveParkMatched u s.timers s.now pid site).2)
      (.refl (receiveParkMatched u s.timers s.now pid site).1) fun _ _ => ⟨rfl, .inr ⟨?_, rfl⟩⟩⟩
    · simp only [step, h.phase, hcur, hv, heq, h.timers, h.now, Option.bind_eq_bind,
        Option.bind_some]
    · by_cases hmail : u.mailbox = []
      · exact .inl (by simp [receiveParkMatched, hmail])
      · exact .inr (by simp [receiveParkMatched, hmail])
  | halt =>
    simp only [step, h.phase] at hstep ⊢
    split at hstep
    next pid hphase =>
      obtain ⟨u, hu, rfl⟩ := Option.map_eq_some_iff.mp hstep
      obtain ⟨v, hv, huv⟩ := h.of_some hu
      obtain ⟨hstate, hwait⟩ := hs.running_task hphase hu
      cases huv.eq_of_state (by rw [hstate]; rintro ⟨⟩) (by rw [hstate]; rintro ⟨⟩)
      exact ⟨_, by rw [hv]; rfl, postQuantum_agrees h pid (.inl ⟨hstate, hwait⟩)⟩
    · cases hstep
  | finish =>
    simp only [step, h.phase] at hstep ⊢
    split at hstep
    · cases hstep
      exact ⟨_, rfl, .of_alike (h.setPhase _) _⟩
    · cases hstep

theorem Run.aot_of_jit
    (hrun : Run (step .jit) (fun s a => NoEarlyReturn s a ∧ WakesOnce s a ∧ OneMain s a)
      .init as es s) : ∃ t fs, Run (step .aot) anyStep .init as fs t ∧ t.phase = s.phase ∧
      es.filterMap Event.fired? = fs.filterMap Event.fired? := by
  have h₀ : QueueInv (.init : Runtime V) ∧ Alike (.init : Runtime V) .init :=
    ⟨init_queueInv, ⟨fun _ => .none, rfl, rfl, rfl, rfl, rfl⟩⟩
  have hsim : ∀ (s t : Runtime V) a s' es, QueueInv s ∧ Alike s t →
      NoEarlyReturn s a ∧ WakesOnce s a ∧ OneMain s a → step .jit s a = some (s', es) →
      ∃ t' fs, anyStep t a ∧ step .aot t a = some (t', fs) ∧ (QueueInv s' ∧ Alike s' t') ∧
        es.filterMap Event.fired? = fs.filterMap Event.fired? := by
    rintro s t a s' es ⟨hs, h⟩ ⟨hreturn, hwake, hmain⟩ hstep
    obtain ⟨⟨t', fs⟩, hstep', hst, hfired⟩ := step_agrees hs h hwake hreturn hmain hstep
    exact ⟨t', fs, trivial, hstep', ⟨(step_cases hstep).queueInv hwake hs, hst⟩, hfired⟩
  obtain ⟨t, fs, hrun', ⟨-, hst⟩, hfired⟩ := Run.simulate
    (R := fun s t => QueueInv s ∧ Alike s t) h₀ hsim hrun
  exact ⟨t, fs, hrun', hst.phase, hfired⟩

/-- Some run of the loop returns while a process waits for its after body. -/
def ReturnsEarly (loop : LoopKind) : Prop :=
  ∃ as es s, Run (step loop) anyStep (.init : Runtime Nat) as es s ∧ .returned ∈ es ∧
    s.phase = .idle ∧ ¬ NoneWaiting s

-- The only process parks with `after 5` and the JIT finds the queue empty.
theorem returnsEarly_jit : ReturnsEarly .jit := by
  refine ⟨firstTurn ++ [.receive (catchAll (some (5, ⟨2, []⟩)))] ++ turn, _, _,
    Run.of_runActs (.of_forall (fun _ _ _ => trivial) _) rfl, by decide, rfl, ?_⟩
  intro h
  cases h 1 _ _ rfl rfl

/-- When the loop of compiled executables returns, nobody waits for an after body.  For
the JIT this holds of the runs in which it never finds the queue empty while a timer is
in the wheel.  Such a run that also wakes nobody twice is, with the same actions, a run
of the other loop that starts the same after bodies. -/
theorem loops_end_alike :
    (∀ (as : List (Act V)) es s, Run (step .aot) anyStep .init as es s → s.phase = .idle →
      NoneWaiting s) ∧
    (∀ (as : List (Act V)) es s, Run (step .jit) NoEarlyReturn .init as es s → s.phase = .idle →
      NoneWaiting s) ∧ (∀ (as : List (Act V)) es s,
      Run (step .jit) (fun s a => NoEarlyReturn s a ∧ WakesOnce s a ∧ OneMain s a) .init as es s →
      ∃ t fs, Run (step .aot) anyStep .init as fs t ∧ t.phase = s.phase ∧
        es.filterMap Event.fired? = fs.filterMap Event.fired?) := by
  refine ⟨?_, ?_, ?_⟩
  · intro as es s hrun
    exact Run.noneWaiting (Run.mono (fun _ _ _ h => by cases h) hrun)
  · intro as es s hrun
    exact Run.noneWaiting (Run.mono (fun _ _ h _ => h) hrun)
  · intro as es s hrun
    exact Run.aot_of_jit hrun

/-- The only process parks with `after 5`, and compiled code sleeps until the deadline,
runs the after body and returns. -/
def sleepActs : List (Act Nat) :=
  firstTurn ++ [.receive (catchAll (some (5, ⟨2, []⟩)))] ++ turn ++
    [.drain, .route, .route, .pop, .halt, .finish] ++ turn

theorem loops_end_alike_sleep :
    (∃ es s, Run (step .aot) anyStep .init sleepActs es s ∧ .fired 1 ∈ es ∧ s.phase = .idle ∧
      NoneWaiting s) ∧ ∃ es s t fs,
      Run (step .jit) (fun s a => NoEarlyReturn s a ∧ WakesOnce s a ∧ OneMain s a) .init
        firstTurn es s ∧ Run (step .aot) anyStep .init firstTurn fs t ∧ t.phase = s.phase := by
  constructor
  · obtain ⟨es, s, hrun, hfired, hidle⟩ : ∃ es s,
        Run (step .aot) anyStep .init sleepActs es s ∧ .fired 1 ∈ es ∧ s.phase = .idle :=
      ⟨_, _, Run.of_runActs (.of_forall (fun _ _ _ => trivial) _) rfl, by decide, rfl⟩
    exact ⟨es, s, hrun, hfired, hidle, loops_end_alike.1 _ _ _ hrun hidle⟩
  · have hfirst : Allowed (step .jit)
        (fun s a => NoEarlyReturn s a ∧ WakesOnce s a ∧ OneMain s a) .init firstTurn := by
      refine firstTurn_allowed ⟨nofun, .of_other nofun nofun (.inr nofun), fun _ _ => rfl⟩
        (fun _ => ⟨nofun, .of_other nofun nofun (.inr nofun), nofun⟩)
        (fun _ => ⟨nofun, .of_other nofun nofun (.inr nofun), nofun⟩)
        (fun _ h => ⟨nofun, .of_other nofun (fun _ => h) (.inr nofun), nofun⟩)
        (fun _ hqueue => ⟨fun _ _ h => ?_, .of_other nofun nofun (.inr nofun), nofun⟩)
      cases hqueue.symm.trans h
    obtain ⟨es, s, hrun⟩ : ∃ es s,
        Run (step .jit) (fun s a => NoEarlyReturn s a ∧ WakesOnce s a ∧ OneMain s a) .init
          firstTurn es s :=
      ⟨_, _, Run.of_runActs hfirst rfl⟩
    obtain ⟨t, fs, hrun', hphase, -⟩ := loops_end_alike.2.2 _ _ _ hrun
    exact ⟨es, s, t, fs, hrun, hrun', hphase⟩

end Fz.Sched
