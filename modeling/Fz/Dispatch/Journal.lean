import Fz.Dispatch.Exec

/-!
# Slots and their journal

What the executor's state does to its slots.  `Wrote` says everything a step may have done to a
state without an undo: it appended to the journal, the slots the journal now names are filled, and
every other slot is as it was.  An undo to where the step began clears what the step wrote, and
gives the rest back as it was before the step.
-/

namespace Fz.Dispatch

theorem ExecM.run_bind {α β : Type} (x : ExecM α) (f : α → ExecM β) (st : DispatchExecState) :
    (x >>= f) st = match x st with
      | (.ok a, st') => f a st'
      | (.error stop, st') => (.error stop, st') := by
  simp only [bind, ExceptT.bind, ExceptT.mk, StateT.bind]
  rcases x st with ⟨r, st'⟩
  cases r <;> rfl

theorem ExecM.run_get_bind {β : Type} (f : DispatchExecState → ExecM β) (st : DispatchExecState) :
    (get >>= f) st = f st st := rfl

theorem ExecM.run_modify_bind {β : Type} (g : DispatchExecState → DispatchExecState)
    (f : Unit → ExecM β) (st : DispatchExecState) : (modify g >>= f) st = f () (g st) := rfl

theorem ExecM.run_ofExcept_bind {α β : Type} (x : Except DispatchStop α) (f : α → ExecM β)
    (st : DispatchExecState) :
    (ofExcept x >>= f) st = match x with
      | .ok a => f a st
      | .error stop => (.error stop, st) := by
  rw [ExecM.run_bind]
  cases x <;> rfl

namespace DispatchExecState

variable {st st' st'' : DispatchExecState} {s t : SubjectId} {b : Bound}

theorem lt_of_get (h : st.get s = some b) : s < st.values.length := by
  by_contra hle
  rw [get, List.getElem?_eq_none (Nat.le_of_not_lt hle)] at h
  cases h

theorem get_set_self (h : s < st.values.length) : (st.set s b).get s = some b := by
  simp [get, set, h]

theorem get_set_ne (h : t ≠ s) : (st.set s b).get t = st.get t := by
  simp [get, set, List.getElem?_set_ne h.symm]

theorem get_new (n : Nat) (s : SubjectId) : (new n).get s = none := by
  by_cases h : s < n
  · simp [get, new, h]
  · simp [get, new, Nat.le_of_not_lt h]

/-- What a step wrote. -/
structure Wrote (st : DispatchExecState) (more : List SubjectId) (st' : DispatchExecState) :
    Prop where
  journal : st'.journal = st.journal ++ more
  size : st'.values.length = st.values.length
  written : ∀ s ∈ more, (st'.get s).isSome
  frame : ∀ s, s ∉ more → st'.get s = st.get s

theorem Wrote.refl (st : DispatchExecState) : st.Wrote [] st :=
  ⟨(List.append_nil _).symm, rfl, fun _ hs => (nomatch hs), fun _ _ => rfl⟩

theorem Wrote.isSome {more : List SubjectId} (h : st.Wrote more st') (hs : (st.get s).isSome) :
    (st'.get s).isSome := by
  by_cases hm : s ∈ more
  · exact h.written s hm
  · rw [h.frame s hm]
    exact hs

theorem Wrote.trans {more more' : List SubjectId} (h : st.Wrote more st')
    (h' : st'.Wrote more' st'') : st.Wrote (more ++ more') st'' where
  journal := by rw [h'.journal, h.journal, List.append_assoc]
  size := h'.size.trans h.size
  written s hs := by
    rcases List.mem_append.mp hs with hs | hs
    · exact h'.isSome (h.written s hs)
    · exact h'.written s hs
  frame s hs := by
    rw [List.mem_append, not_or] at hs
    rw [h'.frame s hs.2, h.frame s hs.1]

theorem Wrote.set (h : s < st.values.length) : st.Wrote [s] (st.set s b) where
  journal := rfl
  size := by simp [DispatchExecState.set]
  written t ht := by
    obtain rfl := List.mem_singleton.mp ht
    rw [get_set_self h]
    rfl
  frame t ht := get_set_ne (fun heq => ht (List.mem_singleton.mpr heq))

theorem getElem?_foldl_clear (more : List SubjectId) (values : List (Option Bound))
    (s : SubjectId) : (more.foldl (fun values subject => values.set subject none) values)[s]?.join =
      if s ∈ more then none else values[s]?.join := by
  induction more generalizing values with
  | nil => simp
  | cons t more ih =>
    rw [List.foldl_cons, ih]
    by_cases hm : s ∈ more
    · simp [hm]
    · by_cases ht : s = t
      · subst ht
        by_cases hlt : s < values.length
        · simp [hm, hlt]
        · simp [hm, Nat.le_of_not_lt hlt]
      · simp [hm, ht, List.getElem?_set_ne (Ne.symm ht)]

theorem length_foldl_clear (more : List SubjectId) (values : List (Option Bound)) :
    (more.foldl (fun values subject => values.set subject none) values).length = values.length := by
  induction more generalizing values with
  | nil => rfl
  | cons t more ih => rw [List.foldl_cons, ih, List.length_set]

theorem Wrote.get_undo {more : List SubjectId} (h : st.Wrote more st') (s : SubjectId) :
    (st'.undo st.branch).get s = if s ∈ more then none else st.get s := by
  have hdrop : st'.journal.drop st.branch = more := by rw [h.journal, branch, List.drop_left]
  rw [get, undo, hdrop, getElem?_foldl_clear]
  by_cases hm : s ∈ more
  · rw [if_pos hm, if_pos hm]
  · rw [if_neg hm, if_neg hm]
    exact h.frame s hm

theorem Wrote.size_undo {more : List SubjectId} (h : st.Wrote more st') :
    (st'.undo st.branch).values.length = st.values.length := by
  rw [undo, length_foldl_clear, h.size]

end DispatchExecState

/-! ## Held words -/

theorem heldWord_run {st : DispatchExecState} {s : SubjectId} {b : Bound} :
    st.get s = some b → Exec.heldWord s st = match b with
      | .runtime value => (.ok value, st)
      | .absent => (.error (.broken (.noRuntimeValue s)), st)
      | lanes => match lanes.word with
        | .ok value => (.ok value, st.set s (.runtime value))
        | .error why => (.error (.broken why), st) := by
  intro h
  rw [Exec.heldWord, ExecM.run_get_bind, ExecM.run_ofExcept_bind, h]
  simp only [required]
  cases b with
  | runtime v => rfl
  | absent => rfl
  | tuple lanes =>
    simp only [ExecM.run_ofExcept_bind]
    cases (Bound.tuple lanes).word <;> rfl
  | callable word =>
    simp only [ExecM.run_ofExcept_bind]
    cases (Bound.callable word).word <;> rfl

theorem subjectWord_run {TH D : Type} {rt : Runtime TH} {plan : PatternDispatchPlan TH D}
    {ops : DispatchOperands} {st : DispatchExecState} {s : SubjectId} {b : Bound}
    (h : st.get s = some b) : Exec.subjectWord rt plan ops s st = Exec.heldWord s st := by
  have hresolve : Exec.resolve rt plan ops s st = (.ok (), st) := by
    rw [Exec.resolve, Exec.resolveSubject, ExecM.run_get_bind, h]
    rfl
  rw [Exec.subjectWord, ExecM.run_bind, hresolve]

end Fz.Dispatch
