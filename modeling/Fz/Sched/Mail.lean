import Fz.Base.Run
import Fz.Sched.Step

/-!
# Mail is conserved

Every message taken for a process is delivered to one of its receives or still in its
mailbox, once, and the mailbox is in order of arrival.  This holds of every run of both
loops, with no side condition.

`Step.mail` is the step lemma.  It compares the mailbox before the step, followed by
what the step accepted, with what the step delivered and the mailbox after it.
-/

namespace Fz.Sched

open Fz.Base Function

variable {V : Type} {loop : LoopKind} {s s' : Runtime V} {a : Act V} {es es' : List (Event V)}
  {as : List (Act V)}

/-- The messages taken for a process, oldest first. -/
def acceptedFor (pid : PidId) (es : List (Event V)) : List V :=
  es.filterMap fun
    | .accepted p msg => if p = pid then some msg else none
    | _ => none

/-- The messages handed to a process's receives, oldest first. -/
def deliveredTo (pid : PidId) (es : List (Event V)) : List V :=
  es.filterMap fun
    | .delivered p msg => if p = pid then some msg else none
    | _ => none

def mailOf (s : Runtime V) (pid : PidId) : List V :=
  match s.tasks pid with
  | some task => task.mailbox
  | none => []

theorem mailOf_eq {pid : PidId} {task : Process V} (h : s.tasks pid = some task) :
    mailOf s pid = task.mailbox := by
  simp only [mailOf, h]

theorem mailOf_congr {pid : PidId} (h : s'.tasks pid = s.tasks pid) :
    mailOf s' pid = mailOf s pid := by
  simp only [mailOf, h]

/-- The balance of one process's mail over a step. -/
def Balanced (pid : PidId) (s s' : Runtime V) (es : List (Event V)) : Prop :=
  (mailOf s pid ++ acceptedFor pid es).Perm (deliveredTo pid es ++ mailOf s' pid) ∧
    (mailOf s' pid).Sublist (mailOf s pid ++ acceptedFor pid es)

theorem Balanced.of_eq {pid : PidId} (hmail : mailOf s' pid = mailOf s pid)
    (hacc : acceptedFor pid es = []) (hdel : deliveredTo pid es = []) : Balanced pid s s' es := by
  rw [Balanced, hmail, hacc, hdel, List.append_nil, List.nil_append]
  exact ⟨.refl _, .refl _⟩

theorem Balanced.update {p : PidId} {task task' : Process V} (htask : s.tasks p = some task)
    (htasks : s'.tasks = update s.tasks p (some task'))
    (hself : (task.mailbox ++ acceptedFor p es).Perm (deliveredTo p es ++ task'.mailbox) ∧
      task'.mailbox.Sublist (task.mailbox ++ acceptedFor p es))
    (hother : ∀ q, q ≠ p → acceptedFor q es = [] ∧ deliveredTo q es = []) (pid : PidId) :
    Balanced pid s s' es := by
  by_cases hp : pid = p
  · subst hp
    have htask' : s'.tasks pid = some task' := by rw [htasks, update_self]
    rw [Balanced, mailOf_eq htask, mailOf_eq htask']
    exact hself
  · have hsame : s'.tasks pid = s.tasks pid := by rw [htasks, update_of_ne hp]
    exact .of_eq (mailOf_congr hsame) (hother pid hp).1 (hother pid hp).2

theorem Balanced.keep {p : PidId} {task task' : Process V} (htask : s.tasks p = some task)
    (htasks : s'.tasks = Function.update s.tasks p (some task'))
    (hmail : task'.mailbox = task.mailbox)
    (hev : ∀ q, acceptedFor q es = [] ∧ deliveredTo q es = []) (pid : PidId) :
    Balanced pid s s' es := by
  refine .update htask htasks ?_ (fun q _ => hev q) pid
  rw [(hev p).1, (hev p).2, hmail, List.append_nil, List.nil_append]
  exact ⟨.refl _, .refl _⟩

theorem Balanced.spawn (hs : Fresh s) (state : ProcessState) (entry : Closure V) (pid : PidId) :
    Balanced pid s (s.spawnClosure state entry) [] := by
  refine .of_eq ?_ rfl rfl
  by_cases hp : pid = s.nextPid
  · subst hp
    have hnew : (s.spawnClosure state entry).tasks s.nextPid = some ⟨state, [], none, some entry⟩ :=
      update_self ..
    rw [mailOf_eq hnew, mailOf, hs s.nextPid (Nat.le_refl _)]
  · exact mailOf_congr (update_of_ne hp ..)

theorem events_one {pid : PidId} {msg : V} : acceptedFor pid [.accepted pid msg] = [msg] ∧
      ∀ q, q ≠ pid → acceptedFor q [.accepted pid msg] = [] := by
  refine ⟨by simp [acceptedFor], fun q hq => ?_⟩
  simp [acceptedFor, Ne.symm hq]

theorem Balanced.push {p : PidId} {task task' : Process V} {msg : V}
    (htask : s.tasks p = some task) (htasks : s'.tasks = Function.update s.tasks p (some task'))
    (hmail : task'.mailbox = task.mailbox ++ [msg]) (pid : PidId) :
    Balanced pid s s' [.accepted p msg] := by
  refine .update htask htasks ?_ (fun q hq => ⟨events_one.2 q hq, rfl⟩) pid
  rw [events_one.1, hmail]
  exact ⟨.refl _, .refl _⟩

theorem Step.mail (h : Step loop s a s' es) (hs : Fresh s) (pid : PidId) :
    Balanced pid s s' es := by
  cases h with
  | tick => exact .of_eq rfl rfl rfl
  | boot _ _ => exact .spawn hs _ _ pid
  | start _ => exact .of_eq rfl rfl rfl
  | drain _ => exact .of_eq rfl rfl rfl
  | routed _ => exact .of_eq rfl rfl rfl
  | stale _ _ => exact .of_eq rfl rfl rfl
  | fire _ htask _ _ => exact .keep htask rfl (by rfl) (fun _ => ⟨rfl, rfl⟩) pid
  | returned _ _ _ => exact .of_eq rfl rfl rfl
  | sleep _ _ _ _ => exact .of_eq rfl rfl rfl
  | scanMiss _ _ htask _ _ _ => exact .keep htask rfl (by rfl) (fun _ => ⟨rfl, rfl⟩) pid
  | @scanHit p _ task park pre msg post hit _ _ htask _ hmail _ _ =>
    refine .update htask rfl ?_ ?_ pid
    · have hacc : acceptedFor p [.delivered p msg, .resumed p (park.outcomeClosure hit)] = [] := rfl
      have hdel : deliveredTo p [.delivered p msg, .resumed p (park.outcomeClosure hit)] =
          [msg] := by simp [deliveredTo]
      rw [hacc, hdel, hmail, List.append_nil]
      exact ⟨List.perm_middle, (List.sublist_cons_self msg post).append_left pre⟩
    · intro q hq
      exact ⟨rfl, by simp [deliveredTo, Ne.symm hq]⟩
  | resume _ _ htask _ _ => exact .keep htask rfl (by rfl) (fun _ => ⟨rfl, rfl⟩) pid
  | dropped _ _ => exact .of_eq rfl rfl rfl
  | pushSelf _ _ htask => exact .push htask rfl rfl pid
  | push _ htask _ _ _ => exact .push htask rfl rfl pid
  | @hit _ p task park msg hit _ htask _ _ _ =>
    refine .update htask rfl ?_ ?_ pid
    · have hacc : acceptedFor p [.accepted p msg, .delivered p msg] = [msg] := by
        simp [acceptedFor]
      have hdel : deliveredTo p [.accepted p msg, .delivered p msg] = [msg] := by
        simp [deliveredTo]
      rw [hacc, hdel]
      exact ⟨List.perm_append_comm, List.sublist_append_left _ _⟩
    · intro q hq
      exact ⟨by simp [acceptedFor, Ne.symm hq], by simp [deliveredTo, Ne.symm hq]⟩
  | wake _ htask _ _ => exact .push htask rfl rfl pid
  | spawn _ => exact .spawn hs _ _ pid
  | requeue hend _ =>
    obtain ⟨task₀, htask, hmail⟩ := hend.task
    exact .keep htask rfl (by exact hmail) (fun _ => ⟨rfl, rfl⟩) pid
  | exit hend _ _ =>
    obtain ⟨task₀, htask, hmail⟩ := hend.task
    exact .keep htask rfl (by exact hmail) (fun _ => ⟨rfl, rfl⟩) pid
  | leave hend _ _ =>
    obtain ⟨task₀, htask, hmail⟩ := hend.task
    exact .keep htask rfl (by exact hmail) (fun _ => ⟨rfl, rfl⟩) pid
  | dtorYield _ htask => exact .keep htask rfl (by rfl) (fun _ => ⟨rfl, rfl⟩) pid
  | dtorReceive _ htask => exact .keep htask rfl (by rfl) (fun _ => ⟨rfl, rfl⟩) pid
  | finish _ => exact .of_eq rfl rfl rfl

theorem Step.accepted_of_live {pid : PidId} {msg : V} {task : Process V}
    (h : Step loop s (.send pid msg) s' es) (htask : s.tasks pid = some task)
    (hlive : task.state ≠ .exited) : acceptedFor pid es = [msg] := by
  cases h with
  | dropped _ hdead => exact absurd (hdead task htask) hlive
  | pushSelf _ _ _ => exact events_one.1
  | push _ _ _ _ _ => exact events_one.1
  | hit _ _ _ _ _ => simp [acceptedFor]
  | wake _ _ _ _ => exact events_one.1
  | requeue hend _ => cases hend
  | exit hend _ _ => cases hend
  | leave hend _ _ => cases hend

/-- In every run: what was taken for a process is what its receives got and what its
mailbox holds, the mailbox is in order of arrival, and a message to a live process is
always taken. -/
theorem run_mail_conserved (hrun : Run (step loop) anyStep .init as es s) (pid : PidId) :
    (acceptedFor pid es).Perm (deliveredTo pid es ++ mailOf s pid) ∧
      (mailOf s pid).Sublist (acceptedFor pid es) ∧
      ∀ msg task s' es', s.tasks pid = some task → task.state ≠ .exited →
        step loop s (.send pid msg) = some (s', es') → acceptedFor pid es' = [msg] := by
  have hinv := Run.inv_trace
    (I := fun tr s => Fresh s ∧ (acceptedFor pid tr).Perm (deliveredTo pid tr ++ mailOf s pid) ∧
      (mailOf s pid).Sublist (acceptedFor pid tr))
    ⟨init_fresh, .refl _, .refl _⟩ ?_ hrun
  · refine ⟨hinv.2.1, hinv.2.2, ?_⟩
    intro msg task s' es' htask hlive hstep
    exact (step_cases hstep).accepted_of_live htask hlive
  · intro tr s a s' es hs _ hstep
    obtain ⟨hfresh, hperm, hsub⟩ := hs
    obtain ⟨hstepPerm, hstepSub⟩ := (step_cases hstep).mail hfresh pid
    have hacc : acceptedFor pid (tr ++ es) = acceptedFor pid tr ++ acceptedFor pid es :=
      List.filterMap_append
    have hdel : deliveredTo pid (tr ++ es) = deliveredTo pid tr ++ deliveredTo pid es :=
      List.filterMap_append
    refine ⟨(step_cases hstep).fresh hfresh, ?_, ?_⟩
    · rw [hacc, hdel, List.append_assoc]
      refine (hperm.append_right _).trans ?_
      rw [List.append_assoc]
      exact hstepPerm.append_left _
    · rw [hacc]
      exact hstepSub.trans (hsub.append_right _)

/-- A receive that takes the message 2 only. -/
def takeTwo : ReceiveSite Nat :=
  { matcherFn := fun msg _ => if msg = 2 then (1, []) else (0, []), pinned := [],
    clauseBodies := [⟨1, 0, []⟩], clauseBoundCounts := [0], boundArity := 0, after := none,
    matcher_le := by
      intro msg
      split
      · exact Nat.le_refl 1
      · exact Nat.zero_le 1 }

/-- Process 1 sends itself 1, 2 and 3 and parks for 2. -/
def scanActs : List (Act Nat) :=
  [.boot ⟨0, []⟩, .start, .drain, .route, .pop, .send 1 1, .send 1 2, .send 1 3,
    .receive takeTwo, .drain, .route, .pop]

-- The scan rejects 1, takes 2 from the middle, and 1 and 3 are left in order.
theorem run_mail_conserved_scan :
    ∃ es s, Run (step .jit) anyStep .init scanActs es s ∧ mailOf s 1 = [1, 3] ∧
      (acceptedFor 1 es).Perm (deliveredTo 1 es ++ mailOf s 1) := by
  obtain ⟨es, s, hacts, hmail⟩ : ∃ es s,
      runActs (step .jit) .init scanActs = some (s, es) ∧ mailOf s 1 = [1, 3] :=
    ⟨_, _, rfl, rfl⟩
  have hrun : Run (step .jit) anyStep .init scanActs es s :=
    Run.of_runActs (.of_forall (fun _ _ _ => trivial) _) hacts
  exact ⟨es, s, hrun, hmail, (run_mail_conserved hrun 1).1⟩

end Fz.Sched
