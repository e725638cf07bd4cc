import Fz.Facts.QuietWaves

/-!
# Dispatch ends

Marking claims dirty only makes facts unquiet, so all that a drain does is one movement, of which
`Drains` keeps the account.  What a drain notes of its own are facts that stop being settled, and
none does so twice: the changes still to be dispatched, together with the facts that are still
settled, are fewer after every turn.

A completion carries a fact for each count of an answer's reads, once more for its own claims, and
once for the drain.
-/

namespace Fz.Facts.Scheduler

variable {P Run F : Type} [DecidableEq P] [DecidableEq F]

/-! ## Claims marked dirty -/

omit [DecidableEq F] in
theorem slotChange_keys (key : F) (old new : FactSlot P) (movement : Option ContentMovement)
    (hrevision : old.revision = new.revision) :
    (slotChange key old new movement).map FactChange.key =
      if old.isSettled = new.isSettled then [] else [key] := by
  rw [slotChange]
  by_cases hsettled : old.isSettled = new.isSettled
  · rw [if_neg (by simp [hrevision, hsettled]), if_pos hsettled]
    rfl
  · rw [if_pos (.inr hsettled), if_neg hsettled]
    rfl

theorem markDirtyKey_moves (publisher : P) (key : F) (s : Scheduler P Run F) :
    ∃ flips, Moves false s { s with facts := (s.facts.markDirtyKey publisher key).1 } flips
      (s.facts.markDirtyKey publisher key).2 [] [] ∧ ∀ f ∈ flips, f = key := by
  rw [FactTable.markDirtyKey]
  cases hlookup : s.facts.slots.lookup key with
  | none => exact ⟨[], .refl .., by simp⟩
  | some slot =>
    by_cases hpublisher : publisher ∉ slot.publishers
    · simp only [hpublisher, not_false_eq_true, if_true]
      exact ⟨[], .refl .., by simp⟩
    · by_cases hdirty : publisher ∈ slot.dirtyPublishers
      · simp only [hpublisher, hdirty, if_true, if_false]
        exact ⟨[], .refl .., by simp⟩
      · simp only [hpublisher, hdirty, if_false]
        refine ⟨_, Moves.of_slot hlookup ?_ ?_ (slotChange_keys _ _ _ _ rfl), fun f hf => ?_⟩
        · simp [FactSlot.isQuiet]
        · simp [FactSlot.isSettled, FactSlot.isLocallySettled]
        · split at hf
          · exact absurd hf List.not_mem_nil
          · exact List.mem_singleton.mp hf

theorem markDirty_moves (publisher : P) (keys : List F) : ∀ s : Scheduler P Run F,
    ∃ flips, Moves false s { s with facts := (FactTable.markDirty publisher keys s.facts).1 } flips
      (FactTable.markDirty publisher keys s.facts).2 [] [] ∧ ∀ f ∈ flips, f ∈ keys := by
  induction keys with
  | nil => exact fun s => ⟨[], .refl .., by simp⟩
  | cons key keys ih =>
    intro s
    obtain ⟨flips, hmoves, hkey⟩ := markDirtyKey_moves publisher key s
    obtain ⟨flips', hmoves', hkeys⟩ := ih { s with facts := (s.facts.markDirtyKey publisher key).1 }
    refine ⟨flips' ++ flips, hmoves.trans hmoves', fun f hf => ?_⟩
    rcases List.mem_append.mp hf with hf | hf
    · exact List.mem_cons_of_mem _ (hkeys f hf)
    · rw [hkey f hf]
      exact List.mem_cons_self

/-! ## Snapshots -/

theorem flippedTo_quietSnapshot (s s' : Scheduler P Run F) (quiet : Bool) (keys : List F) :
    s'.flippedTo quiet keys (s.quietSnapshot keys) =
      keys.filter fun f => s.facts.isQuiet f ≠ quiet ∧ s'.facts.isQuiet f = quiet := by
  rw [flippedTo, quietSnapshot, ← List.map_prod_left_eq_zip, List.filter_map, List.map_map]
  exact List.map_id _

theorem count_flippedTo {s s' : Scheduler P Run F} {quiet : Bool} {keys : List F}
    (hnodup : keys.Nodup) (f : F) : (s'.flippedTo quiet keys (s.quietSnapshot keys)).count f =
      if f ∈ keys ∧ s.facts.isQuiet f ≠ quiet ∧ s'.facts.isQuiet f = quiet then 1 else 0 := by
  rw [flippedTo_quietSnapshot, (hnodup.filter _).count]
  simp only [List.mem_filter, decide_eq_true_eq]

theorem propagateQuietWave_nil (ctx : SchedulerContext P Run F) (s : Scheduler P Run F)
    (becameQuiet : Bool) (changes : List (FactChange F)) :
    s.propagateQuietWave ctx [] becameQuiet changes = some (s, changes) := by
  rw [propagateQuietWave, List.length_nil, Nat.zero_add]
  cases s.facts.slots.keys.card <;> rfl

/-! ## Drains -/

/-- A movement to unquiet in which every fact that flips is carried once. -/
def Carries (ctx : SchedulerContext P Run F) (s s' : Scheduler P Run F)
    (new : List (FactChange F)) : Prop :=
  ∃ flips carried, Moves false s s' flips new (carried.flatMap (s.deps.readersOf ctx)) carried ∧
    ∀ f, carried.count f = flips.count f

variable {ctx : SchedulerContext P Run F}

theorem Carries.trans {s s' s'' : Scheduler P Run F} {new new' : List (FactChange F)}
    (h : Carries ctx s s' new) (h' : Carries ctx s' s'' new') :
    Carries ctx s s'' (new ++ new') := by
  obtain ⟨flips, carried, hmoves, hcount⟩ := h
  obtain ⟨flips', carried', hmoves', hcount'⟩ := h'
  have hall := hmoves.trans hmoves'
  rw [readersOf_congr hmoves.deps] at hall
  refine ⟨flips' ++ flips, carried' ++ carried, hall.congr (fun _ => rfl) fun r => ?_, fun f => ?_⟩
  · rw [List.flatMap_append, List.count_append, List.count_append, Nat.add_comm]
  · rw [List.count_append, List.count_append, hcount, hcount']

theorem Carries.of_eq {s s' : Scheduler P Run F} (hfacts : s'.facts = s.facts)
    (hdeps : s'.deps = s.deps) (hfinality : s'.readFinality = s.readFinality)
    (hcarried : s'.carried = s.carried) : Carries ctx s s' [] := by
  refine ⟨[], [], ?_, fun _ => rfl⟩
  obtain ⟨agenda, facts, deps, rebased, readFinality, carried⟩ := s
  obtain ⟨agenda', facts', deps', rebased', readFinality', carried'⟩ := s'
  obtain rfl : facts' = facts := hfacts
  obtain rfl : deps' = deps := hdeps
  obtain rfl : readFinality' = readFinality := hfinality
  obtain rfl : carried' = carried := hcarried
  exact { Moves.refl false _ with deps := rfl }

/-- What a drain does: its changes behind the others, and a movement to unquiet. -/
def Drains (ctx : SchedulerContext P Run F) (drain drain' : Drain P Run F) : Prop :=
  ∃ new, drain'.changes = drain.changes ++ new ∧ Carries ctx drain.scheduler drain'.scheduler new

theorem Drains.refl (drain : Drain P Run F) : Drains ctx drain drain :=
  ⟨[], (List.append_nil _).symm, .of_eq rfl rfl rfl rfl⟩

theorem Drains.trans {drain drain' drain'' : Drain P Run F} (h : Drains ctx drain drain')
    (h' : Drains ctx drain' drain'') : Drains ctx drain drain'' := by
  obtain ⟨new, hchanges, hcarries⟩ := h
  obtain ⟨new', hchanges', hcarries'⟩ := h'
  exact ⟨new ++ new', by rw [hchanges', hchanges, List.append_assoc], hcarries.trans hcarries'⟩

/-! ## Claims, jobs, changes -/

variable (ctx)

theorem propagateQuietFlips_of_moves {s mid : Scheduler P Run F} {flips keys : List F}
    {new : List (FactChange F)} (h : Moves false s mid flips new [] [])
    (hflips : ∀ f ∈ flips, f ∈ keys) (hnodup : keys.Nodup) (changes : List (FactChange F)) :
    ∃ s' new', mid.propagateQuietFlips ctx keys (s.quietSnapshot keys) changes =
      some (s', changes ++ new') ∧ Carries ctx s s' (new ++ new') := by
  have hquiet : mid.flippedTo true keys (s.quietSnapshot keys) = [] := by
    rw [flippedTo_quietSnapshot, List.filter_eq_nil_iff]
    intro f _ hf
    rw [decide_eq_true_eq] at hf
    exact Bool.false_ne_true ((h.quiet f (Bool.eq_false_iff.mpr hf.1)).symm.trans hf.2)
  have hseeds : ∀ f, (mid.flippedTo false keys (s.quietSnapshot keys)).count f = flips.count f := by
    intro f
    rw [count_flippedTo hnodup, h.flips]
    have hkey : s.facts.isQuiet f ≠ mid.facts.isQuiet f → f ∈ keys := fun hne =>
      hflips f (List.count_pos_iff.mp (by rw [h.flips, if_neg hne]; exact Nat.one_pos))
    have hmono := h.quiet f
    cases hbefore : s.facts.isQuiet f <;> cases hlater : mid.facts.isQuiet f <;> simp_all
  obtain ⟨s', flips', new', carried, hrun, hdone⟩ := propagateQuietWave_done ctx false
    (mid.flippedTo false keys (s.quietSnapshot keys)) mid changes
  refine ⟨s', new', ?_, flips' ++ flips, carried, ?_, fun f => ?_⟩
  · rw [propagateQuietFlips, hquiet, hrun]
    exact propagateQuietWave_nil ..
  · have hall := h.trans hdone.moves
    rw [readersOf_congr h.deps, List.append_nil, List.nil_append] at hall
    exact hall
  · rw [hdone.carried, hseeds, List.count_append, Nat.add_comm]

theorem dirtyClaims_done (publisher : P) (s : Scheduler P Run F) (changes : List (FactChange F)) :
    ∃ s' new, s.dirtyClaims ctx publisher changes = some (s', changes ++ new) ∧
      Carries ctx s s' new := by
  obtain ⟨flips, hmoves, hflips⟩ := markDirty_moves publisher (s.deps.outputKeys publisher) s
  obtain ⟨s', new, hrun, hcarries⟩ := propagateQuietFlips_of_moves ctx hmoves hflips
    (s.deps.outputs publisher).nodup
    (changes ++ (FactTable.markDirty publisher (s.deps.outputKeys publisher) s.facts).2)
  refine ⟨s', _, ?_, hcarries⟩
  rw [← List.append_assoc]
  exact hrun

theorem foldlM_drains {α : Type} {step : Drain P Run F → α → Option (Drain P Run F)}
    (hstep : ∀ drain a, ∃ drain', step drain a = some drain' ∧ Drains ctx drain drain')
    (l : List α) :
    ∀ drain, ∃ drain', l.foldlM step drain = some drain' ∧ Drains ctx drain drain' := by
  induction l with
  | nil => exact fun drain => ⟨drain, rfl, .refl drain⟩
  | cons a l ih =>
    intro drain
    obtain ⟨mid, hmid, hdrains⟩ := hstep drain a
    obtain ⟨drain', hrun, hdrains'⟩ := ih mid
    refine ⟨drain', ?_, hdrains.trans hdrains'⟩
    rw [List.foldlM_cons, hmid]
    exact hrun

theorem reopen_drains (shift : Bool) (drain : Drain P Run F) (publisher : P) :
    ∃ drain', reopen ctx shift drain publisher = some drain' ∧ Drains ctx drain drain' := by
  obtain ⟨s, hs, hcarries⟩ : ∃ s, s = (if shift then { drain.scheduler with
      rebased := insert publisher drain.scheduler.rebased } else drain.scheduler) ∧
        Carries ctx drain.scheduler s [] := by
    refine ⟨_, rfl, ?_⟩
    cases shift <;> exact .of_eq rfl rfl rfl rfl
  obtain ⟨s', new, hrun, hcarries'⟩ := dirtyClaims_done ctx publisher s drain.changes
  refine ⟨{ drain with scheduler := s', changes := drain.changes ++ new }, ?_, new, rfl,
    hcarries.trans hcarries'⟩
  rw [reopen, ← hs, hrun]
  rfl

section Jobs

variable [DecidableEq Run]

theorem enqueueStep_drains (job : Run) (cause : FactUse F) (shift : Bool) (drain : Drain P Run F) :
    Drains ctx drain (enqueueStep job cause shift drain) := by
  rw [enqueueStep]
  split
  · exact .refl drain
  · exact ⟨[], (List.append_nil _).symm, .of_eq rfl rfl rfl rfl⟩

theorem foldl_enqueueStep_drains (cause : FactUse F) (shift : Bool) (jobs : List Run) :
    ∀ drain : Drain P Run F,
      Drains ctx drain (jobs.foldl (fun drain job => enqueueStep job cause shift drain) drain) := by
  induction jobs with
  | nil => exact fun drain => .refl drain
  | cons job jobs ih =>
    exact fun drain => (enqueueStep_drains ctx job cause shift drain).trans (ih _)

theorem wakeWaiter_drains (factUse : FactUse F) (shift : Bool) (drain : Drain P Run F) (job : Run) :
    ∃ drain', wakeWaiter ctx factUse shift drain job = some drain' ∧ Drains ctx drain drain' := by
  rw [wakeWaiter]
  split
  · obtain ⟨drain', hrun, hdrains⟩ := reopen_drains ctx shift drain (ctx.ofRun job)
    refine ⟨_, ?_, hdrains.trans (enqueueStep_drains ctx job factUse shift drain')⟩
    rw [hrun]
    rfl
  · exact ⟨drain, rfl, .refl drain⟩

theorem wakeSatisfiedWaiters_drains (factUse : FactUse F) (shift : Bool) (drain : Drain P Run F) :
    ∃ drain', wakeSatisfiedWaiters ctx factUse shift drain = some drain' ∧
      Drains ctx drain drain' :=
  foldlM_drains ctx (wakeWaiter_drains ctx factUse shift) _ drain

theorem enqueueDependents_drains (factUse : FactUse F) (shift : Bool) (drain : Drain P Run F) :
    ∃ drain', enqueueDependents ctx factUse shift drain = some drain' ∧
      Drains ctx drain drain' := by
  obtain ⟨mid, hmid, hdrains⟩ := foldlM_drains ctx (reopen_drains ctx shift)
    (drain.scheduler.deps.subscribersOf ctx factUse) drain
  have hwoken := foldl_enqueueStep_drains ctx factUse shift (OrderedSet.ofList
    ((drain.scheduler.deps.subscribersOf ctx factUse).map ctx.run)).order mid
  obtain ⟨drain', hrun, hdrains'⟩ := wakeSatisfiedWaiters_drains ctx factUse shift
    ((OrderedSet.ofList ((drain.scheduler.deps.subscribersOf ctx factUse).map ctx.run)).order.foldl
      (fun drain job => enqueueStep job factUse shift drain) mid)
  refine ⟨drain', ?_, (hdrains.trans hwoken).trans hdrains'⟩
  rw [enqueueDependents, hmid]
  exact hrun

theorem dispatchChange_drains (change : FactChange F) (drain : Drain P Run F) :
    ∃ drain', dispatchChange ctx change drain = some drain' ∧ Drains ctx drain drain' := by
  rw [dispatchChange]
  cases change.contentMovement with
  | some movement =>
    obtain ⟨mid, hmid, hdrains⟩ := enqueueDependents_drains ctx (.current change.key)
      (movement = .shift) drain
    obtain ⟨drain', hrun, hdrains'⟩ := enqueueDependents_drains ctx (.settled change.key)
      (movement = .shift) mid
    refine ⟨drain', ?_, hdrains.trans hdrains'⟩
    show (enqueueDependents ctx (.current change.key) (movement = .shift) drain).bind _ = _
    rw [hmid]
    exact hrun
  | none =>
    obtain ⟨mid, hmid, hdrains⟩ : ∃ mid,
        (if change.oldRevision.isNone && change.newRevision.isSome then
          wakeSatisfiedWaiters ctx (.current change.key) false drain
        else some drain) = some mid ∧ Drains ctx drain mid := by
      split
      · exact wakeSatisfiedWaiters_drains ctx _ _ _
      · exact ⟨drain, rfl, .refl drain⟩
    simp only [hmid, Option.bind_some]
    split
    · obtain ⟨drain', hrun, hdrains'⟩ :=
        enqueueDependents_drains ctx (.settled change.key) false mid
      exact ⟨drain', hrun, hdrains.trans hdrains'⟩
    · exact ⟨mid, rfl, hdrains⟩

/-! ## Whole drains -/

omit [DecidableEq P] [DecidableEq Run] [DecidableEq F] in
theorem foldl_mem_cons {α : Type} {op : α → α → α} (hop : ∀ a b, op a b = a ∨ op a b = b)
    (l : List α) : ∀ a, l.foldl op a ∈ a :: l := by
  induction l with
  | nil => exact fun a => List.mem_cons_self
  | cons b l ih =>
    intro a
    rcases List.mem_cons.mp (ih (op a b)) with heq | hmem
    · rw [List.foldl_cons, heq]
      rcases hop a b with heq | heq <;> simp [heq]
    · exact List.mem_cons_of_mem _ (List.mem_cons_of_mem _ hmem)

omit [DecidableEq P] [DecidableEq Run] [DecidableEq F] in
theorem takeNextFactChange_nil : takeNextFactChange ctx [] = none := rfl

omit [DecidableEq P] [DecidableEq Run] [DecidableEq F] in
theorem takeNextFactChange_perm (change : FactChange F) (rest : List (FactChange F)) :
    ∃ next pending, takeNextFactChange ctx (change :: rest) = some (next, pending) ∧
      (change :: rest).Perm (next :: pending) := by
  refine ⟨_, _, rfl, ?_⟩
  generalize hnext : List.foldl _ _ _ = next
  have hmem : next ∈ (change :: rest).zipIdx := by
    rw [← hnext]
    refine foldl_mem_cons (fun a b => ?_) _ _
    split
    · exact .inr rfl
    · exact .inl rfl
  obtain ⟨hlt, hget⟩ := List.getElem?_eq_some_iff.mp (List.mem_zipIdx_iff_getElem?.mp hmem)
  rw [← hget]
  exact (List.getElem_cons_eraseIdx_perm hlt).symm

theorem dispatchLoop_nil {drain : Drain P Run F} (h : drain.changes = []) (fuel : Nat)
    (movedKeys : List F) : dispatchLoop ctx fuel drain movedKeys = some (drain, movedKeys) := by
  have htake : takeNextFactChange ctx drain.changes = none := by rw [h, takeNextFactChange_nil]
  cases fuel <;> simp [dispatchLoop, htake]

theorem dispatchLoop_cons {drain mid : Drain P Run F} {next : FactChange F}
    {pending : List (FactChange F)}
    (htake : takeNextFactChange ctx drain.changes = some (next, pending))
    (hmid : dispatchChange ctx next { drain with changes := pending } = some mid) (fuel : Nat)
    (movedKeys : List F) :
    dispatchLoop ctx (fuel + 1) drain movedKeys =
      dispatchLoop ctx fuel mid (next.key :: movedKeys) := by
  conv_lhs => unfold dispatchLoop
  simp only [htake]
  show (dispatchChange ctx next { drain with changes := pending }).bind _ = _
  rw [hmid, Option.bind_some]

/-- A drain dispatches each of its changes once, and each that it notes on the way. -/
theorem dispatchLoop_done : ∀ (fuel : Nat) (drain : Drain P Run F) (movedKeys : List F),
    drain.changes.length + Moves.unsettled false drain.scheduler ≤ fuel → ∃ drain' movedKeys' new,
      dispatchLoop ctx fuel drain movedKeys = some (drain', movedKeys') ∧
        drain'.changes = [] ∧ Carries ctx drain.scheduler drain'.scheduler new ∧
          movedKeys'.Perm ((drain.changes ++ new).map FactChange.key ++ movedKeys) := by
  intro fuel
  induction fuel with
  | zero =>
    intro drain movedKeys hfuel
    have hnil : drain.changes = [] := List.eq_nil_of_length_eq_zero (by omega)
    exact ⟨drain, movedKeys, [], dispatchLoop_nil ctx hnil 0 movedKeys, hnil,
      .of_eq rfl rfl rfl rfl, by rw [hnil]; rfl⟩
  | succ fuel ih =>
    intro drain movedKeys hfuel
    cases hchanges : drain.changes with
    | nil =>
      exact ⟨drain, movedKeys, [], dispatchLoop_nil ctx hchanges _ movedKeys, hchanges,
        .of_eq rfl rfl rfl rfl, .rfl⟩
    | cons change rest =>
      obtain ⟨next, pending, htake, hperm⟩ := takeNextFactChange_perm ctx change rest
      obtain ⟨mid, hmid, new, hnew, hcarries⟩ :=
        dispatchChange_drains ctx next { drain with changes := pending }
      obtain ⟨flips, carried, hmoves, -⟩ := id hcarries
      have hleft : Moves.unsettled false mid.scheduler + new.length =
          Moves.unsettled false drain.scheduler := hmoves.unsettled_add
      have hlength := hperm.length_eq
      replace hnew : mid.changes = pending ++ new := hnew
      rw [hchanges] at hfuel
      obtain ⟨drain', movedKeys', new', hrun, hdone, hcarries', hmoved⟩ :=
        ih mid (next.key :: movedKeys) (by
          rw [hnew, List.length_append]
          simp only [List.length_cons] at hlength hfuel
          omega)
      refine ⟨drain', movedKeys', new ++ new', ?_, hdone, hcarries.trans hcarries', ?_⟩
      · rw [dispatchLoop_cons ctx (by rw [hchanges, htake]) hmid, hrun]
      · rw [hnew] at hmoved
        refine hmoved.trans (List.perm_middle.trans ?_)
        rw [← List.cons_append, ← List.map_cons, List.append_assoc, ← List.cons_append]
        exact ((hperm.symm.append_right _).map _).append_right _

theorem dispatchChanges_done (pending : List (FactChange F)) (s : Scheduler P Run F) :
    ∃ s' wave new, s.dispatchChanges ctx pending = some (s', wave) ∧ Carries ctx s s' new ∧
      ∀ f, f ∈ wave.movements.map FactMovement.key ↔ f ∈ (pending ++ new).map FactChange.key := by
  have hfuel := Moves.unsettled_le false s
  obtain ⟨drain, movedKeys, new, hrun, -, hcarries, hmoved⟩ := dispatchLoop_done ctx
    (pending.length + s.facts.slots.keys.card) ⟨s, pending, []⟩ [] (Nat.add_le_add_left hfuel _)
  refine ⟨_, _, new, by rw [dispatchChanges, hrun]; rfl, hcarries, fun f => ?_⟩
  rw [List.append_nil] at hmoved
  rw [← hmoved.mem_iff]
  simp

end Jobs

end Fz.Facts.Scheduler
