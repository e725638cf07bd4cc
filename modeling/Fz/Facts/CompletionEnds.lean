import Fz.Facts.DispatchEnds

/-!
# Completions end

A completion counts the reads of each of its answers anew, replaces what they claim, and dispatches
what has moved.  Each of these is carried to its end before the next starts, and `Propagated` adds
them up: what is quiet in only one of two states was carried between them, and nothing was carried
more often than the bound.
-/

namespace Fz.Facts

/-! ## Ordered sets -/

namespace OrderedSet

variable {α : Type} [DecidableEq α]

theorem mem_insert {s : OrderedSet α} {value a : α} :
    a ∈ (s.insert value).order ↔ a ∈ s.order ∨ a = value := by
  rw [insert]
  split
  · rename_i h
    exact ⟨.inl, fun ha => ha.elim id fun heq => heq ▸ h⟩
  · rw [List.mem_append, List.mem_singleton]

theorem mem_extend {values : List α} {a : α} : ∀ {s : OrderedSet α},
    a ∈ (s.extend values).order ↔ a ∈ s.order ∨ a ∈ values := by
  induction values with
  | nil => exact fun {s} => (or_iff_left List.not_mem_nil).symm
  | cons value values ih =>
    intro s
    show a ∈ ((s.insert value).extend values).order ↔ _
    rw [ih, mem_insert, List.mem_cons, or_assoc]

theorem mem_ofList {values : List α} {a : α} : a ∈ (ofList values).order ↔ a ∈ values := by
  rw [ofList, mem_extend]
  exact or_iff_right List.not_mem_nil

end OrderedSet

variable {P Run F : Type} [DecidableEq P] [DecidableEq F]

/-! ## Slots that stay -/

section Frames

variable {f : F}

omit [DecidableEq P] in
theorem lookup_insert_of_ne {t : FactTable P F} {key : F} {slot : FactSlot P} (hne : f ≠ key) :
    (t.slots.insert key slot).lookup f = t.slots.lookup f :=
  Finmap.lookup_insert_of_ne _ hne

theorem setPublisherUnfinal_frame {t : FactTable P F} {key : F} (publisher : P) (unfinal : Bool)
    (hne : f ≠ key) :
    (t.setPublisherUnfinal key publisher unfinal).1.slots.lookup f = t.slots.lookup f := by
  rw [FactTable.setPublisherUnfinal]
  split
  · rfl
  · split
    · rfl
    · exact lookup_insert_of_ne hne

theorem markDirty_frame (publisher : P) : ∀ (keys : List F) (t : FactTable P F), f ∉ keys →
    (FactTable.markDirty publisher keys t).1.slots.lookup f = t.slots.lookup f
  | [], _, _ => rfl
  | key :: keys, t, hf => by
    rw [List.mem_cons, not_or] at hf
    refine (markDirty_frame publisher keys (t.markDirtyKey publisher key).1 hf.2).trans ?_
    rw [FactTable.markDirtyKey]
    split
    · rfl
    · split
      · rfl
      · split
        · rfl
        · exact lookup_insert_of_ne hf.1

variable (ctx : SchedulerContext P Run F)

theorem replaceKey_frame (publisher : P) (outputKeys changedKeys : List F)
    (unfinal rebased : Bool) (t : FactTable P F) {key : F} (hne : f ≠ key) :
    (ctx.replaceKey publisher outputKeys changedKeys unfinal rebased t key).1.slots.lookup f =
      t.slots.lookup f := by
  simp only [SchedulerContext.replaceKey]
  split
  · split
    · exact Finmap.lookup_erase_ne hne
    · exact lookup_insert_of_ne hne
  · split
    · exact Finmap.lookup_erase_ne hne
    · exact lookup_insert_of_ne hne

theorem replaceKeys_frame (publisher : P) (outputKeys changedKeys : List F)
    (unfinal rebased : Bool) : ∀ (keys : List F) (t : FactTable P F), f ∉ keys →
    (ctx.replaceKeys publisher outputKeys changedKeys unfinal rebased keys t).1.slots.lookup f =
      t.slots.lookup f
  | [], _, _ => rfl
  | key :: keys, t, hf => by
    rw [List.mem_cons, not_or] at hf
    exact (replaceKeys_frame publisher outputKeys changedKeys unfinal rebased keys _ hf.2).trans
      (replaceKey_frame ctx publisher outputKeys changedKeys unfinal rebased t hf.1)

theorem extendKeys_frame (publisher : P) (changedKeys : List F) (unfinal rebased : Bool) :
    ∀ (keys : List F) (t : FactTable P F), f ∉ keys →
    (ctx.extendKeys publisher changedKeys unfinal rebased keys t).1.slots.lookup f =
      t.slots.lookup f
  | [], _, _ => rfl
  | key :: keys, t, hf => by
    rw [List.mem_cons, not_or] at hf
    refine (extendKeys_frame publisher changedKeys unfinal rebased keys _ hf.2).trans ?_
    exact lookup_insert_of_ne hf.1

variable {ctx}

theorem replaceOutputsAfterRun_frame {t t' : FactTable P F} {publisher : P}
    {previousOutputKeys : OrderedSet F} {outputs changedKeys : List F} {unfinal rebased : Bool}
    {replaced : FactReplace F}
    (h : ctx.replaceOutputsAfterRun t publisher previousOutputKeys outputs changedKeys unfinal
      rebased = some (t', replaced)) : replaced.outputKeys.order = outputs ∧
      ∀ f, f ∉ outputs → f ∉ previousOutputKeys.order → t'.slots.lookup f = t.slots.lookup f := by
  rw [SchedulerContext.replaceOutputsAfterRun] at h
  split at h
  · obtain ⟨rfl, rfl⟩ := Prod.mk.inj (Option.some.inj h)
    refine ⟨rfl, fun f houtputs hprevious => replaceKeys_frame ctx _ _ _ _ _ _ _ ?_⟩
    rw [OrderedSet.mem_extend]
    exact not_or.mpr ⟨houtputs, hprevious⟩
  · exact absurd h (Option.some_ne_none _).symm

theorem extendOutputsAfterRun_frame {t t' : FactTable P F} {publisher : P}
    {outputs changedKeys : List F} {unfinal rebased : Bool} {extended : FactReplace F}
    (h : ctx.extendOutputsAfterRun t publisher outputs changedKeys unfinal rebased =
      some (t', extended)) : extended.outputKeys.order = outputs ∧
      ∀ f, f ∉ outputs → t'.slots.lookup f = t.slots.lookup f := by
  rw [SchedulerContext.extendOutputsAfterRun] at h
  split at h
  · obtain ⟨rfl, rfl⟩ := Prod.mk.inj (Option.some.inj h)
    exact ⟨rfl, fun f hf => extendKeys_frame ctx _ _ _ _ _ _ hf⟩
  · exact absurd h (Option.some_ne_none _).symm

end Frames

namespace Scheduler

variable {ctx : SchedulerContext P Run F}

/-! ## What was carried -/

/-- A fact that is quiet in only one of two states was carried between them, and none was carried
more often than the bound. -/
def Propagated (bound : Nat) (s s' : Scheduler P Run F) : Prop :=
  ∃ carried, s'.carried = carried ++ s.carried ∧
    (∀ f, s.facts.isQuiet f ≠ s'.facts.isQuiet f → f ∈ carried) ∧ ∀ f, carried.count f ≤ bound

namespace Propagated

theorem of_eq {s s' : Scheduler P Run F} (bound : Nat) (hfacts : s'.facts = s.facts)
    (hcarried : s'.carried = s.carried) : Propagated bound s s' :=
  ⟨[], hcarried, fun f hf => absurd (by rw [hfacts]) hf, fun _ => Nat.zero_le _⟩

theorem trans {bound bound' : Nat} {s s' s'' : Scheduler P Run F} (h : Propagated bound s s')
    (h' : Propagated bound' s' s'') : Propagated (bound + bound') s s'' := by
  obtain ⟨carried, heq, hflips, hbound⟩ := h
  obtain ⟨carried', heq', hflips', hbound'⟩ := h'
  refine ⟨carried' ++ carried, by rw [heq', heq, List.append_assoc], fun f hf => ?_, fun f => ?_⟩
  · rw [List.mem_append]
    by_cases hmid : s.facts.isQuiet f = s'.facts.isQuiet f
    · exact .inl (hflips' f (hmid ▸ hf))
    · exact .inr (hflips f hmid)
  · rw [List.count_append, Nat.add_comm]
    exact Nat.add_le_add (hbound f) (hbound' f)

end Propagated

theorem Moves.mem_flips {becameQuiet : Bool} {s s' : Scheduler P Run F} {flips : List F}
    {new : List (FactChange F)} {told : List P} {carried : List F} {f : F}
    (h : Moves becameQuiet s s' flips new told carried)
    (hf : s.facts.isQuiet f ≠ s'.facts.isQuiet f) : 0 < flips.count f := by
  rw [h.flips, if_neg hf]
  exact Nat.one_pos

theorem Moves.count_flips_le {becameQuiet : Bool} {s s' : Scheduler P Run F} {flips : List F}
    {new : List (FactChange F)} {told : List P} {carried : List F}
    (h : Moves becameQuiet s s' flips new told carried) (f : F) : flips.count f ≤ 1 := by
  rw [h.flips]
  split <;> decide

theorem Carries.propagated {s s' : Scheduler P Run F} {new : List (FactChange F)}
    (h : Carries ctx s s' new) : Propagated 1 s s' := by
  obtain ⟨flips, carried, hmoves, hcount⟩ := h
  refine ⟨carried, hmoves.carried, fun f hf => ?_, fun f => ?_⟩
  · rw [← List.count_pos_iff, hcount]
    exact hmoves.mem_flips hf
  · rw [hcount]
    exact hmoves.count_flips_le f

variable (ctx)

theorem propagateQuietFlips_done (keys : List F) (quietBefore : List Bool)
    (s : Scheduler P Run F) (changes : List (FactChange F)) :
    ∃ mid s' flips flips' new new' carried carried',
      s.propagateQuietFlips ctx keys quietBefore changes = some (s', changes ++ (new ++ new')) ∧
        WaveDone ctx false (s.flippedTo false keys quietBefore) s mid flips new carried ∧
          WaveDone ctx true (s.flippedTo true keys quietBefore) mid s' flips' new' carried' := by
  obtain ⟨mid, flips, new, carried, hrun, hdone⟩ := propagateQuietWave_done ctx false
    (s.flippedTo false keys quietBefore) s changes
  obtain ⟨s', flips', new', carried', hrun', hdone'⟩ := propagateQuietWave_done ctx true
    (s.flippedTo true keys quietBefore) mid (changes ++ new)
  refine ⟨mid, s', flips, flips', new, new', carried, carried', ?_, hdone, hdone'⟩
  rw [propagateQuietFlips, hrun, ← List.append_assoc, ← hrun']
  rfl

theorem propagateQuietFlips_propagated (s mid : Scheduler P Run F) {keys : List F}
    (hnodup : keys.Nodup) (houtside : ∀ f, f ∉ keys → mid.facts.isQuiet f = s.facts.isQuiet f)
    (hcarried : mid.carried = s.carried) (changes : List (FactChange F)) :
    ∃ s' new, mid.propagateQuietFlips ctx keys (s.quietSnapshot keys) changes =
      some (s', changes ++ new) ∧ Propagated 3 s s' := by
  obtain ⟨between, s', flips, flips', new, new', carried, carried', hrun, hdone, hdone'⟩ :=
    propagateQuietFlips_done ctx keys (s.quietSnapshot keys) mid changes
  have hcount := hdone.carried
  have hcount' := hdone'.carried
  simp only [count_flippedTo hnodup] at hcount hcount'
  refine ⟨s', new ++ new', hrun, carried' ++ carried, ?_, fun f hf => ?_, fun f => ?_⟩
  · rw [hdone'.moves.carried, hdone.moves.carried, hcarried, List.append_assoc]
  · rw [← List.count_pos_iff, List.count_append, hcount, hcount']
    by_cases hseed : s.facts.isQuiet f = mid.facts.isQuiet f
    · -- it flipped in a wave
      by_cases hfirst : mid.facts.isQuiet f = between.facts.isQuiet f
      · have := hdone'.moves.mem_flips fun heq => hf (hseed.trans (hfirst.trans heq))
        omega
      · have := hdone.moves.mem_flips hfirst
        omega
    · -- it flipped before the waves, so it is one of the keys
      have hkey : f ∈ keys := by_contra fun hout => hseed (houtside f hout).symm
      cases hbefore : s.facts.isQuiet f <;> cases hlater : mid.facts.isQuiet f <;>
        simp [hbefore, hlater, hkey] at hseed ⊢ <;> omega
  · rw [List.count_append, hcount, hcount']
    have hle := hdone.moves.count_flips_le f
    have hle' := hdone'.moves.count_flips_le f
    have hone : (if f ∈ keys ∧ s.facts.isQuiet f ≠ false ∧ mid.facts.isQuiet f = false then 1
        else 0) + (if f ∈ keys ∧ s.facts.isQuiet f ≠ true ∧ mid.facts.isQuiet f = true then 1
          else 0) ≤ 1 := by
      cases mid.facts.isQuiet f <;> simp <;> split <;> decide
    omega

/-! ## Counting an answer's reads -/

theorem isQuiet_congr {t t' : FactTable P F} {f : F} (h : t'.slots.lookup f = t.slots.lookup f) :
    t'.isQuiet f = t.isQuiet f := by
  rw [FactTable.isQuiet, FactTable.isQuiet, h]

theorem setClaimsUnfinal_frame (publisher : P) (unfinal : Bool) : ∀ (keys : List F)
    (s : Scheduler P Run F) (changes : List (FactChange F)),
    (setClaimsUnfinal publisher unfinal keys s changes).1.carried = s.carried ∧
      ∀ f, f ∉ keys → (setClaimsUnfinal publisher unfinal keys s changes).1.facts.slots.lookup f =
        s.facts.slots.lookup f
  | [], _, _ => ⟨rfl, fun _ _ => rfl⟩
  | key :: keys, s, changes => by
    obtain ⟨hcarried, hlookup⟩ := setClaimsUnfinal_frame publisher unfinal keys
      { s with facts := (s.facts.setPublisherUnfinal key publisher unfinal).1 }
      (changes ++ (s.facts.setPublisherUnfinal key publisher unfinal).2)
    refine ⟨hcarried, fun f hf => ?_⟩
    rw [List.mem_cons, not_or] at hf
    exact (hlookup f hf.2).trans (setPublisherUnfinal_frame publisher unfinal hf.1)

theorem refreshFinality_propagated (publisher : P) (s : Scheduler P Run F)
    (changes : List (FactChange F)) :
    ∃ s' changes', s.refreshFinality ctx publisher changes = some (s', changes') ∧
      Propagated 3 s s' := by
  simp only [refreshFinality]
  split
  · exact ⟨_, _, rfl, .of_eq 3 rfl rfl⟩
  · generalize hs : s.setUnfinalReads publisher (s.countUnfinalReads ctx publisher) = counted
    generalize hkeys : counted.deps.outputKeys publisher = keys
    have hnodup : keys.Nodup := hkeys ▸ (counted.deps.outputs publisher).nodup
    obtain ⟨hcarried, hlookup⟩ := setClaimsUnfinal_frame publisher
      (decide (0 < s.countUnfinalReads ctx publisher)) keys counted changes
    obtain ⟨s', new, hrun, hpropagated⟩ := propagateQuietFlips_propagated ctx _ _ hnodup
      (fun f hf => isQuiet_congr (hlookup f hf)) hcarried _
    refine ⟨s', _, hrun, ?_⟩
    have hcounted : Propagated 0 s counted := by
      rw [← hs]
      exact .of_eq 0 rfl rfl
    exact hcounted.trans hpropagated

theorem reachDerivation_propagated (waiting : Bool) (own : P) (reached : Reached P Run F)
    (derivation : DerivationEffects P F) :
    ∃ reached', reachDerivation ctx waiting own reached derivation = some reached' ∧
      Propagated 3 reached.scheduler reached'.scheduler := by
  simp only [reachDerivation]
  generalize hs : Scheduler.mk reached.scheduler.agenda reached.scheduler.facts
    (if !(waiting && derivation.publisher = own) then
      reached.scheduler.deps.replaceReads derivation.publisher derivation.reads
    else reached.scheduler.deps.unionReads derivation.publisher derivation.reads)
    (if !(waiting && derivation.publisher = own) then
      reached.scheduler.rebased.erase derivation.publisher else reached.scheduler.rebased)
    reached.scheduler.readFinality reached.scheduler.carried = replaced
  have hreplaced : Propagated 0 reached.scheduler replaced := by
    rw [← hs]
    exact .of_eq 0 rfl rfl
  obtain ⟨s', changes, hrun, hpropagated⟩ :=
    refreshFinality_propagated ctx derivation.publisher replaced reached.pending
  rw [hrun]
  exact ⟨_, rfl, hreplaced.trans hpropagated⟩

theorem foldlM_reachDerivation_propagated (waiting : Bool) (own : P)
    (derivations : List (DerivationEffects P F)) : ∀ reached : Reached P Run F,
    ∃ reached', derivations.foldlM (reachDerivation ctx waiting own) reached = some reached' ∧
      Propagated (3 * derivations.length) reached.scheduler reached'.scheduler := by
  induction derivations with
  | nil => exact fun reached => ⟨reached, rfl, .of_eq _ rfl rfl⟩
  | cons derivation derivations ih =>
    intro reached
    obtain ⟨mid, hmid, hpropagated⟩ := reachDerivation_propagated ctx waiting own reached derivation
    obtain ⟨reached', hrun, hpropagated'⟩ := ih mid
    refine ⟨reached', ?_, ?_⟩
    · rw [List.foldlM_cons, hmid]
      exact hrun
    · rw [List.length_cons, Nat.mul_add, Nat.add_comm]
      exact hpropagated.trans hpropagated'

/-! ## Replacing claims -/

/-- Only facts of one list may have moved, and some publishers still claim only facts of it. -/
structure Within (touched : List F) (publishers : List P) (s s' : Scheduler P Run F) : Prop where
  carried : s'.carried = s.carried
  lookup : ∀ f, f ∉ touched → s'.facts.slots.lookup f = s.facts.slots.lookup f
  claims : ∀ publisher ∈ publishers, ∀ f ∈ s'.deps.outputKeys publisher, f ∈ touched

omit [DecidableEq F] in
theorem mem_of_mem_update {deps : DependencyIndex P Run F} {publisher p : P} {next : OrderedSet F}
    {touched : List F} {f : F} (hnext : ∀ f ∈ next.order, f ∈ touched)
    (hold : ∀ f ∈ deps.outputKeys p, f ∈ touched)
    (hf : f ∈ (Function.update deps.outputs publisher next p).order) : f ∈ touched := by
  rcases eq_or_ne p publisher with rfl | hne
  · rw [Function.update_self] at hf
    exact hnext f hf
  · rw [Function.update_of_ne hne] at hf
    exact hold f hf

variable {ctx} {touched : List F} {publishers : List P} {s : Scheduler P Run F}

theorem concludeDerivation_within {replaced replaced' : Replaced P Run F}
    {conclusion : Conclusion P F} (hpublisher : conclusion.derivation.publisher ∈ publishers)
    (houtputs : ∀ f ∈ conclusion.derivation.outputs, f ∈ touched)
    (h : Within touched publishers s replaced.scheduler)
    (hrun : concludeDerivation ctx replaced conclusion = some replaced') :
    Within touched publishers s replaced'.scheduler := by
  have hprevious := h.claims _ hpublisher
  simp only [concludeDerivation] at hrun
  split at hrun
  · obtain ⟨⟨facts, concluded⟩, hreplace, hrun⟩ := Option.bind_eq_some_iff.mp hrun
    obtain ⟨horder, hframe⟩ := replaceOutputsAfterRun_frame hreplace
    obtain rfl := Option.some.inj hrun
    exact
      { carried := h.carried
        lookup := fun f hf => (hframe f (mt (houtputs f) hf) (mt (hprevious f) hf)).trans
          (h.lookup f hf)
        claims := fun p hp f hf =>
          mem_of_mem_update (horder ▸ houtputs) (h.claims p hp) hf }
  · obtain ⟨⟨facts, extended⟩, hextend, hrun⟩ := Option.bind_eq_some_iff.mp hrun
    obtain ⟨horder, hframe⟩ := extendOutputsAfterRun_frame hextend
    have hclaims : ∀ f ∈ ((replaced.scheduler.deps.outputs
        conclusion.derivation.publisher).extend extended.outputKeys.order).order, f ∈ touched := by
      intro f hf
      rcases OrderedSet.mem_extend.mp hf with hf | hf
      · exact hprevious f hf
      · exact houtputs f (horder ▸ hf)
    obtain rfl := Option.some.inj hrun
    exact
      { carried := h.carried
        lookup := fun f hf => (markDirty_frame _ _ _ (mt (hclaims f) hf)).trans
          ((hframe f (mt (houtputs f) hf)).trans (h.lookup f hf))
        claims := fun p hp f hf => mem_of_mem_update hclaims (h.claims p hp) hf }

theorem retractUnreached_within {replaced replaced' : Replaced P Run F} {waiting : Bool}
    {publisher : P} (hpublisher : publisher ∈ publishers)
    (h : Within touched publishers s replaced.scheduler)
    (hrun : retractUnreached ctx waiting replaced publisher = some replaced') :
    Within touched publishers s replaced'.scheduler := by
  have hprevious := h.claims _ hpublisher
  simp only [retractUnreached] at hrun
  split at hrun
  · obtain rfl := Option.some.inj hrun
    exact
      { carried := h.carried
        lookup := fun f hf => (markDirty_frame _ _ _ (mt (hprevious f) hf)).trans (h.lookup f hf)
        claims := h.claims }
  · obtain ⟨⟨facts, retracted⟩, hreplace, hrun⟩ := Option.bind_eq_some_iff.mp hrun
    obtain ⟨-, hframe⟩ := replaceOutputsAfterRun_frame hreplace
    obtain rfl := Option.some.inj hrun
    exact
      { carried := h.carried
        lookup := fun f hf => (hframe f List.not_mem_nil (mt (hprevious f) hf)).trans
          (h.lookup f hf)
        claims := fun p hp f hf => mem_of_mem_update
          (fun f hf => absurd hf List.not_mem_nil) (h.claims p hp) hf }

omit [DecidableEq P] in
theorem foldlM_within {α : Type} {step : Replaced P Run F → α → Option (Replaced P Run F)}
    {p : α → Prop}
    (hstep : ∀ replaced replaced' a, p a → Within touched publishers s replaced.scheduler →
      step replaced a = some replaced' → Within touched publishers s replaced'.scheduler) :
    ∀ (l : List α) {replaced replaced' : Replaced P Run F}, (∀ a ∈ l, p a) →
      Within touched publishers s replaced.scheduler →
      l.foldlM step replaced = some replaced' → Within touched publishers s replaced'.scheduler
  | [], _, _, _, h, hrun => Option.some.inj hrun ▸ h
  | a :: l, _, _, hl, h, hrun => by
    rw [List.foldlM_cons] at hrun
    obtain ⟨mid, hmid, hrun⟩ := Option.bind_eq_some_iff.mp hrun
    exact foldlM_within hstep l (fun b hb => hl b (List.mem_cons_of_mem _ hb))
      (hstep _ _ a (hl a List.mem_cons_self) h hmid) hrun

theorem replaceClaims_within {waiting : Bool} {reached : Reached P Run F} {unreached : List P}
    {replaced : Replaced P Run F}
    (hrun : replaceClaims ctx waiting reached unreached = some replaced) :
    ∃ publishers, Within (touchedKeys reached unreached).order publishers reached.scheduler
      replaced.scheduler := by
  have htouched : ∀ f, f ∈ (touchedKeys reached unreached).order ↔
      (∃ conclusion ∈ reached.conclusions, f ∈ conclusion.derivation.outputs ++
        reached.scheduler.deps.outputKeys conclusion.derivation.publisher) ∨
          ∃ publisher ∈ unreached, f ∈ reached.scheduler.deps.outputKeys publisher := by
    intro f
    rw [touchedKeys, OrderedSet.mem_extend, OrderedSet.mem_ofList, List.mem_flatMap,
      List.mem_flatMap]
  refine ⟨reached.conclusions.map (·.derivation.publisher) ++ unreached, ?_⟩
  obtain ⟨concluded, hconclude, hretract⟩ := Option.bind_eq_some_iff.mp hrun
  have hstart : Within (touchedKeys reached unreached).order
      (reached.conclusions.map (·.derivation.publisher) ++ unreached) reached.scheduler
      reached.scheduler := by
    refine ⟨rfl, fun _ _ => rfl, fun p hp f hf => (htouched f).mpr ?_⟩
    rcases List.mem_append.mp hp with hp | hp
    · obtain ⟨conclusion, hmem, rfl⟩ := List.mem_map.mp hp
      exact .inl ⟨conclusion, hmem, List.mem_append_right _ hf⟩
    · exact .inr ⟨p, hp, hf⟩
  have hconcluded := foldlM_within (p := (· ∈ reached.conclusions))
    (fun _ _ conclusion hgood h hrun => concludeDerivation_within
      (List.mem_append_left _ (List.mem_map.mpr ⟨conclusion, hgood, rfl⟩))
      (fun f hf => (htouched f).mpr (.inl ⟨conclusion, hgood, List.mem_append_left _ hf⟩)) h hrun)
    reached.conclusions (fun _ h => h) hstart hconclude
  exact foldlM_within (p := (· ∈ unreached))
    (fun _ _ _ hgood h hrun => retractUnreached_within (List.mem_append_right _ hgood) h hrun)
    unreached (fun _ h => h) hconcluded hretract

/-! ## Completions -/

variable (ctx) [DecidableEq Run]

theorem ends_of_eq_some {α : Type} {o : Option α} {a : α} (h : o = some a) : ends o = .ok a := by
  rw [h]
  rfl

theorem complete_propagated (job : Run) (effects : CompletionEffects P F) (s : Scheduler P Run F) :
    completeOrderedWithExternal ctx job effects s = .error .assertion ∨
      ∃ s' step, completeOrderedWithExternal ctx job effects s = .ok (s', step) ∧
        Propagated (3 * effects.derivations.length + 4) s s' := by
  simp only [completeOrderedWithExternal]
  split
  · exact .inl rfl
  · obtain ⟨reached, hreach, hreached⟩ := foldlM_reachDerivation_propagated ctx
      (decide (effects.waits ≠ ∅)) (ctx.ofRun job) effects.derivations
      ⟨{ s with deps := s.deps.replaceWaits job effects.waits }, [], .empty, []⟩
    simp only [ends_of_eq_some hreach, bind, Except.bind]
    generalize hunreached : List.filter _ _ = unreached
    cases hreplace : replaceClaims ctx (decide (effects.waits ≠ ∅)) reached unreached with
    | none => exact .inl rfl
    | some replaced =>
      right
      obtain ⟨publishers, hwithin⟩ := replaceClaims_within hreplace
      simp only [asserted]
      generalize hs : replaced.scheduler.deps.replaceDerivations job _ = deps
      obtain ⟨flipped, new, hflips, hpropagated⟩ := propagateQuietFlips_propagated ctx
        reached.scheduler { replaced.scheduler with deps := deps }
        (touchedKeys reached unreached).nodup (fun f hf => isQuiet_congr (hwithin.lookup f hf))
        hwithin.carried (replaced.pending ++ replaced.changed)
      simp only [ends_of_eq_some hflips]
      obtain ⟨s', wave, new', hdispatch, hcarries, -⟩ := dispatchChanges_done ctx
        (replaced.pending ++ replaced.changed ++ new) flipped
      simp only [ends_of_eq_some hdispatch]
      have hwaits : Propagated 0 s
          { s with deps := s.deps.replaceWaits job effects.waits } := .of_eq 0 rfl rfl
      have hall := hwaits.trans (hreached.trans (hpropagated.trans hcarries.propagated))
      rw [Nat.zero_add] at hall
      exact ⟨s', _, rfl, hall⟩

/-- Propagation ends, from every state and whatever its facts read of each other. -/
structure PropagationEnds (s : Scheduler P Run F) : Prop where
  wave : ∀ seeds becameQuiet changes, ∃ s' flips new carried,
    s.propagateQuietWave ctx seeds becameQuiet changes = some (s', changes ++ new) ∧
      WaveDone ctx becameQuiet seeds s s' flips new carried
  flips : ∀ keys quietBefore changes, ∃ mid s' flips flips' new new' carried carried',
    s.propagateQuietFlips ctx keys quietBefore changes = some (s', changes ++ (new ++ new')) ∧
      WaveDone ctx false (s.flippedTo false keys quietBefore) s mid flips new carried ∧
        WaveDone ctx true (s.flippedTo true keys quietBefore) mid s' flips' new' carried'
  dispatch : ∀ pending, ∃ s' wave new,
    s.dispatchChanges ctx pending = some (s', wave) ∧ Carries ctx s s' new ∧
      ∀ f, f ∈ wave.movements.map FactMovement.key ↔ f ∈ (pending ++ new).map FactChange.key
  completion : ∀ job effects,
    completeOrderedWithExternal ctx job effects s = .error .assertion ∨
      ∃ s' step, completeOrderedWithExternal ctx job effects s = .ok (s', step) ∧
        Propagated (3 * effects.derivations.length + 4) s s'

/-- A wave carries what it was given and all that flips in it.  A drain carries each fact that flips
once and dispatches every change.  A completion carries every fact that flips, and none more than
three times for each of its answers and four times more. -/
theorem propagation_ends (s : Scheduler P Run F) : PropagationEnds ctx s where
  wave seeds becameQuiet changes := propagateQuietWave_done ctx becameQuiet seeds s changes
  flips keys quietBefore changes := propagateQuietFlips_done ctx keys quietBefore s changes
  dispatch pending := dispatchChanges_done ctx pending s
  completion job effects := complete_propagated ctx job effects s

end Scheduler

end Fz.Facts
