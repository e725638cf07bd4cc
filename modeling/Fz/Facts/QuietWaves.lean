import Fz.Facts.Scheduler

/-!
# Waves end

A wave moves facts one way only: all that flip stop being quiet, or all start.  So each flips at
most once, and a wave has at most as many turns as it has seeds and the table has facts.  `Moves`
keeps the account of such a movement: which facts flipped, which changes were noted, whose read
counts were moved, and which facts were carried.  Movements one after another add up.
-/

namespace Fz.Facts

variable {P Run F : Type} [DecidableEq P] [DecidableEq F]

/-! ## Flips one way -/

theorem card_filter_add_length {keys : Finset F} {before later : F → Bool} {side : Bool}
    {flips : List F} (hmono : ∀ f, before f = side → later f = side)
    (houtside : ∀ f ∉ keys, before f = later f)
    (hcount : ∀ f, flips.count f = if before f = later f then 0 else 1) :
    (keys.filter fun f => later f ≠ side).card + flips.length =
      (keys.filter fun f => before f ≠ side).card := by
  have hnodup : flips.Nodup := by
    rw [List.nodup_iff_count_le_one]
    intro f
    rw [hcount]
    split <;> decide
  have hmem : ∀ f, f ∈ flips ↔ before f ≠ later f := fun f => by
    rw [← List.count_pos_iff, hcount]
    split <;> simp [*]
  rw [← List.toFinset_card_of_nodup hnodup, ← Finset.card_union_of_disjoint]
  · congr 1
    ext f
    rw [Finset.mem_union, Finset.mem_filter, Finset.mem_filter, List.mem_toFinset, hmem]
    constructor
    · rintro (⟨hkey, hlater⟩ | hne)
      · exact ⟨hkey, fun hbefore => hlater (hmono f hbefore)⟩
      · refine ⟨by_contra fun hout => hne (houtside f hout), fun hbefore => hne ?_⟩
        rw [hbefore, hmono f hbefore]
    · rintro ⟨hkey, hbefore⟩
      by_cases hlater : later f = side
      · exact .inr fun heq => hbefore (heq.trans hlater)
      · exact .inl ⟨hkey, hlater⟩
  · rw [Finset.disjoint_left]
    intro f hleft hright
    rw [Finset.mem_filter] at hleft
    rw [List.mem_toFinset, hmem] at hright
    refine hright ?_
    cases hb : before f <;> cases hl : later f <;> cases side <;> simp_all

/-! ## Accounts -/

namespace Scheduler

def readCount (s : Scheduler P Run F) (publisher : P) : Nat :=
  ((s.readFinality publisher).map ReadFinality.count).getD 0

/-- A read count after some of its reads became quiet, or stopped being. -/
def recount (becameQuiet : Bool) (count told : Nat) : Nat :=
  if becameQuiet then count - told else count + told

structure Moves (becameQuiet : Bool) (s s' : Scheduler P Run F) (flips : List F)
    (new : List (FactChange F)) (told : List P) (carried : List F) : Prop where
  deps : s'.deps = s.deps
  keys : s'.facts.slots.keys = s.facts.slots.keys
  quiet : ∀ f, s.facts.isQuiet f = becameQuiet → s'.facts.isQuiet f = becameQuiet
  settled : ∀ f, s.facts.isSettled f = becameQuiet → s'.facts.isSettled f = becameQuiet
  flips : ∀ f, flips.count f = if s.facts.isQuiet f = s'.facts.isQuiet f then 0 else 1
  new : ∀ f, (new.map FactChange.key).count f =
    if s.facts.isSettled f = s'.facts.isSettled f then 0 else 1
  told : ∀ r, s'.readCount r = recount becameQuiet (s.readCount r) (told.count r)
  carried : s'.carried = carried ++ s.carried

namespace Moves

variable {becameQuiet : Bool} {s s' s'' : Scheduler P Run F} {flips flips' : List F}
  {new new' : List (FactChange F)} {told told' : List P} {carried carried' : List F}

theorem refl (becameQuiet : Bool) (s : Scheduler P Run F) : Moves becameQuiet s s [] [] [] [] where
  deps := rfl
  keys := rfl
  quiet _ h := h
  settled _ h := h
  flips f := by simp
  new f := by simp
  told r := by cases becameQuiet <;> rfl
  carried := rfl

theorem count_add {before mid later side : Bool} (h : before = side → mid = side)
    (h' : mid = side → later = side) :
    (if mid = later then 0 else 1) + (if before = mid then 0 else 1) =
      if before = later then 0 else 1 := by
  cases before <;> cases mid <;> cases later <;> cases side <;> simp_all

theorem trans (h : Moves becameQuiet s s' flips new told carried)
    (h' : Moves becameQuiet s' s'' flips' new' told' carried') :
    Moves becameQuiet s s'' (flips' ++ flips) (new ++ new') (told ++ told')
      (carried' ++ carried) where
  deps := h'.deps.trans h.deps
  keys := h'.keys.trans h.keys
  quiet f hf := h'.quiet f (h.quiet f hf)
  settled f hf := h'.settled f (h.settled f hf)
  flips f := by rw [List.count_append, h.flips, h'.flips, count_add (h.quiet f) (h'.quiet f)]
  new f := by
    rw [List.map_append, List.count_append, h.new, h'.new, Nat.add_comm,
      count_add (h.settled f) (h'.settled f)]
  told r := by
    rw [h'.told, h.told, List.count_append]
    cases becameQuiet
    · exact Nat.add_assoc ..
    · exact Nat.sub_sub ..
  carried := by rw [h'.carried, h.carried, List.append_assoc]

theorem congr (h : Moves becameQuiet s s' flips new told carried)
    (hflips : ∀ f, flips'.count f = flips.count f) (htold : ∀ r, told'.count r = told.count r) :
    Moves becameQuiet s s' flips' new told' carried where
  deps := h.deps
  keys := h.keys
  quiet := h.quiet
  settled := h.settled
  flips f := by rw [hflips, h.flips]
  new := h.new
  told r := by rw [htold, h.told]
  carried := h.carried

theorem isQuiet_of_notMem {t : FactTable P F} {f : F} (h : f ∉ t.slots.keys) :
    t.isQuiet f = true := by
  rw [Finmap.mem_keys] at h
  rw [FactTable.isQuiet, Finmap.lookup_eq_none.mpr h]
  rfl

theorem isSettled_of_notMem {t : FactTable P F} {f : F} (h : f ∉ t.slots.keys) :
    t.isSettled f = false := by
  rw [Finmap.mem_keys] at h
  rw [FactTable.isSettled, Finmap.lookup_eq_none.mpr h]
  rfl

/-- The facts that can still flip this way. -/
def unflipped (becameQuiet : Bool) (s : Scheduler P Run F) : Nat :=
  (s.facts.slots.keys.filter fun f => s.facts.isQuiet f ≠ becameQuiet).card

/-- The facts that are still to settle, or to stop being settled. -/
def unsettled (becameQuiet : Bool) (s : Scheduler P Run F) : Nat :=
  (s.facts.slots.keys.filter fun f => s.facts.isSettled f ≠ becameQuiet).card

theorem unflipped_add (h : Moves becameQuiet s s' flips new told carried) :
    unflipped becameQuiet s' + flips.length = unflipped becameQuiet s := by
  rw [unflipped, unflipped, h.keys]
  refine card_filter_add_length h.quiet (fun f hf => ?_) h.flips
  rw [isQuiet_of_notMem hf, isQuiet_of_notMem (by rwa [h.keys])]

theorem unsettled_add (h : Moves becameQuiet s s' flips new told carried) :
    unsettled becameQuiet s' + new.length = unsettled becameQuiet s := by
  rw [unsettled, unsettled, h.keys, ← List.length_map FactChange.key]
  refine card_filter_add_length h.settled (fun f hf => ?_) h.new
  rw [isSettled_of_notMem hf, isSettled_of_notMem (by rwa [h.keys])]

theorem unflipped_le (becameQuiet : Bool) (s : Scheduler P Run F) :
    unflipped becameQuiet s ≤ s.facts.slots.keys.card := Finset.card_filter_le ..

theorem unsettled_le (becameQuiet : Bool) (s : Scheduler P Run F) :
    unsettled becameQuiet s ≤ s.facts.slots.keys.card := Finset.card_filter_le ..

end Moves

/-! ## Slots -/

section Slots

variable {t : FactTable P F} {key f : F} {slot slot' : FactSlot P}

theorem isQuiet_of_lookup (h : t.slots.lookup key = some slot) : t.isQuiet key = slot.isQuiet := by
  rw [FactTable.isQuiet, h]
  rfl

theorem isSettled_of_lookup (h : t.slots.lookup key = some slot) :
    t.isSettled key = slot.isSettled := by
  rw [FactTable.isSettled, h]
  rfl

theorem isQuiet_insert : (⟨t.slots.insert key slot⟩ : FactTable P F).isQuiet f =
      if f = key then slot.isQuiet else t.isQuiet f := by
  rw [FactTable.isQuiet]
  split
  · rename_i heq
    rw [heq, Finmap.lookup_insert]
    rfl
  · rename_i hne
    rw [Finmap.lookup_insert_of_ne _ hne, FactTable.isQuiet]

theorem isSettled_insert : (⟨t.slots.insert key slot⟩ : FactTable P F).isSettled f =
      if f = key then slot.isSettled else t.isSettled f := by
  rw [FactTable.isSettled]
  split
  · rename_i heq
    rw [heq, Finmap.lookup_insert]
    rfl
  · rename_i hne
    rw [Finmap.lookup_insert_of_ne _ hne, FactTable.isSettled]

omit [DecidableEq P] in
theorem keys_insert (h : t.slots.lookup key = some slot) :
    (t.slots.insert key slot').keys = t.slots.keys := by
  ext f
  rw [Finmap.mem_keys, Finmap.mem_keys, Finmap.mem_insert]
  exact or_iff_right_of_imp fun heq => heq ▸ Finmap.mem_of_lookup_eq_some h

/-- A slot that is replaced by one on the same side or further on. -/
theorem Moves.of_slot {becameQuiet : Bool} {s : Scheduler P Run F} {new : List (FactChange F)}
    (hlookup : s.facts.slots.lookup key = some slot)
    (hquiet : slot.isQuiet = becameQuiet → slot'.isQuiet = becameQuiet)
    (hsettled : slot.isSettled = becameQuiet → slot'.isSettled = becameQuiet)
    (hnew : new.map FactChange.key = if slot.isSettled = slot'.isSettled then [] else [key]) :
    Moves becameQuiet s { s with facts := ⟨s.facts.slots.insert key slot'⟩ }
      (if slot.isQuiet = slot'.isQuiet then [] else [key]) new [] [] where
  deps := rfl
  keys := keys_insert hlookup
  quiet f hf := by
    rw [isQuiet_insert]
    split
    · rename_i heq
      rw [heq, isQuiet_of_lookup hlookup] at hf
      exact hquiet hf
    · exact hf
  settled f hf := by
    rw [isSettled_insert]
    split
    · rename_i heq
      rw [heq, isSettled_of_lookup hlookup] at hf
      exact hsettled hf
    · exact hf
  flips f := by
    rw [isQuiet_insert]
    rcases eq_or_ne f key with rfl | hne
    · rw [if_pos rfl, isQuiet_of_lookup hlookup]
      split <;> simp
    · rw [if_neg hne, if_pos rfl, List.count_eq_zero]
      split
      · exact List.not_mem_nil
      · exact mt List.mem_singleton.mp hne
  new f := by
    rw [isSettled_insert, hnew]
    rcases eq_or_ne f key with rfl | hne
    · rw [if_pos rfl, isSettled_of_lookup hlookup]
      split <;> simp
    · rw [if_neg hne, if_pos rfl, List.count_eq_zero]
      split
      · exact List.not_mem_nil
      · exact mt List.mem_singleton.mp hne
  told r := by cases becameQuiet <;> rfl
  carried := rfl

end Slots

/-! ## One claim, one reader -/

/-- What a step of a wave adds: its flips on the frontier, its changes behind the others. -/
def WaveMoves (becameQuiet : Bool) (wave wave' : Wave P Run F) (told : List P) : Prop :=
  ∃ flips new, wave'.changes = wave.changes ++ new ∧ wave'.frontier = flips ++ wave.frontier ∧
    Moves becameQuiet wave.scheduler wave'.scheduler flips new told []

theorem WaveMoves.refl (becameQuiet : Bool) (wave : Wave P Run F) :
    WaveMoves becameQuiet wave wave [] :=
  ⟨[], [], (List.append_nil _).symm, rfl, .refl ..⟩

theorem WaveMoves.trans {becameQuiet : Bool} {wave wave' wave'' : Wave P Run F}
    {told told' : List P} (h : WaveMoves becameQuiet wave wave' told)
    (h' : WaveMoves becameQuiet wave' wave'' told') :
    WaveMoves becameQuiet wave wave'' (told ++ told') := by
  obtain ⟨flips, new, hchanges, hfrontier, hmoves⟩ := h
  obtain ⟨flips', new', hchanges', hfrontier', hmoves'⟩ := h'
  refine ⟨flips' ++ flips, new ++ new', ?_, ?_, hmoves.trans hmoves'⟩
  · rw [hchanges', hchanges, List.append_assoc]
  · rw [hfrontier', hfrontier, List.append_assoc]

omit [DecidableEq F] in
theorem frontier_flip (before later : Bool) (key : F) (frontier : List F) :
    (if later ≠ before then key :: frontier else frontier) =
      (if before = later then [] else [key]) ++ frontier := by
  cases before <;> cases later <;> rfl

theorem waveKey_moves (becameQuiet : Bool) (reader : P) (wave : Wave P Run F) (key : F) :
    WaveMoves becameQuiet wave (waveKey reader (!becameQuiet) wave key) [] := by
  rw [waveKey, FactTable.setPublisherUnfinal]
  cases hlookup : wave.scheduler.facts.slots.lookup key with
  | none => exact ⟨[], [], rfl, by simp, .refl ..⟩
  | some slot =>
    by_cases hpublisher : reader ∉ slot.publishers
    · simp only [hpublisher, not_false_eq_true, if_true]
      exact ⟨[], [], rfl, by simp, .refl ..⟩
    · simp only [hpublisher, if_false]
      refine ⟨_, _, rfl, ?_, Moves.of_slot hlookup ?_ ?_ ?_⟩
      · rw [isQuiet_insert, if_pos rfl, isQuiet_of_lookup hlookup]
        exact frontier_flip ..
      · intro hquiet
        cases becameQuiet with
        | false => simp [FactSlot.isQuiet, setMembership]
        | true =>
          simp only [FactSlot.isQuiet, decide_eq_true_eq] at hquiet ⊢
          exact ⟨hquiet.1, by rw [hquiet.2]; rfl⟩
      · intro hsettled
        cases becameQuiet with
        | false => simp [FactSlot.isSettled, setMembership]
        | true =>
          simp only [FactSlot.isSettled, FactSlot.isLocallySettled, decide_eq_true_eq]
            at hsettled ⊢
          exact ⟨hsettled.1, by rw [hsettled.2]; rfl⟩
      · split <;> simp_all

theorem foldl_waveKey_moves (becameQuiet : Bool) (reader : P) (keys : List F) :
    ∀ wave : Wave P Run F,
      WaveMoves becameQuiet wave (keys.foldl (waveKey reader !becameQuiet) wave) [] := by
  induction keys with
  | nil => exact fun wave => .refl becameQuiet wave
  | cons key keys ih =>
    exact fun wave => (waveKey_moves becameQuiet reader wave key).trans (ih _)

omit [DecidableEq F] in
theorem isUnfinal_afterEdge (becameQuiet : Bool) (s : Scheduler P Run F) (reader : P)
    (hflip : (s.setReadFinality reader
      (((s.readFinality reader).getD (.pending 0)).afterEdge becameQuiet)).isUnfinal reader ≠
        s.isUnfinal reader) : (s.setReadFinality reader
      (((s.readFinality reader).getD (.pending 0)).afterEdge becameQuiet)).isUnfinal reader =
        !becameQuiet := by
  cases becameQuiet with
  | false => simp [setReadFinality, isUnfinal, ReadFinality.afterEdge, ReadFinality.count,
      ReadFinality.isPending]
  | true =>
    cases hstate : s.readFinality reader with
    | none => simp [setReadFinality, isUnfinal, ReadFinality.afterEdge, ReadFinality.count]
    | some state =>
      cases state with
      | pending count =>
        by_cases hzero : count - 1 = 0
        · simp [setReadFinality, isUnfinal, ReadFinality.afterEdge, ReadFinality.count, hzero]
        · refine absurd ?_ hflip
          simp [setReadFinality, isUnfinal, hstate, ReadFinality.afterEdge, ReadFinality.count,
            ReadFinality.isPending, hzero]
      | quiescent count =>
        by_cases hzero : count - 1 = 0
        · simp [setReadFinality, isUnfinal, ReadFinality.afterEdge, ReadFinality.count, hzero]
        · simp [setReadFinality, isUnfinal, ReadFinality.afterEdge, ReadFinality.count,
            ReadFinality.isPending, hzero]

omit [DecidableEq F] in
theorem readCount_setReadFinality (s : Scheduler P Run F) (reader r : P) (state : ReadFinality) :
    (s.setReadFinality reader state).readCount r =
      if r = reader then state.count else s.readCount r := by
  rw [readCount, setReadFinality]
  rcases eq_or_ne r reader with rfl | hne
  · by_cases hzero : state.count = 0
    · simp [hzero]
    · simp [hzero]
  · simp [hne, readCount]

theorem waveReader_moves (becameQuiet : Bool) (wave : Wave P Run F) (reader : P) :
    WaveMoves becameQuiet wave (waveReader becameQuiet wave reader) [reader] := by
  have hcount : Moves becameQuiet wave.scheduler (wave.scheduler.setReadFinality reader
      (((wave.scheduler.readFinality reader).getD (.pending 0)).afterEdge becameQuiet)) [] []
        [reader] [] := by
    refine { Moves.refl becameQuiet wave.scheduler with told := fun r => ?_ }
    rw [readCount_setReadFinality]
    rcases eq_or_ne r reader with rfl | hne
    · rw [if_pos rfl, List.count_singleton_self, recount, readCount]
      cases hstate : wave.scheduler.readFinality r with
      | none => cases becameQuiet <;> rfl
      | some state => cases becameQuiet <;> cases state <;> rfl
    · rw [if_neg hne, List.count_eq_zero.mpr (mt List.mem_singleton.mp hne), recount]
      cases becameQuiet <;> rfl
  have hstart : WaveMoves becameQuiet wave
      ⟨wave.scheduler.setReadFinality reader
        (((wave.scheduler.readFinality reader).getD (.pending 0)).afterEdge becameQuiet),
        wave.changes, wave.frontier⟩ [reader] :=
    ⟨[], [], (List.append_nil _).symm, rfl, hcount⟩
  rw [waveReader]
  split
  · exact hstart
  · rename_i hflip
    rw [isUnfinal_afterEdge becameQuiet _ reader hflip]
    exact hstart.trans (foldl_waveKey_moves becameQuiet reader _ _)

theorem foldl_waveReader_moves (becameQuiet : Bool) (readers : List P) : ∀ wave : Wave P Run F,
      WaveMoves becameQuiet wave (readers.foldl (waveReader becameQuiet) wave) readers := by
  induction readers with
  | nil => exact fun wave => .refl becameQuiet wave
  | cons reader readers ih =>
    exact fun wave => (waveReader_moves becameQuiet wave reader).trans (ih _)

/-! ## Whole waves -/

variable {ctx : SchedulerContext P Run F} {becameQuiet : Bool}

omit [DecidableEq P] [DecidableEq F] in
theorem readersOf_congr {deps deps' : DependencyIndex P Run F} (h : deps' = deps) :
    deps'.readersOf ctx = deps.readersOf ctx := by rw [h]

/-- A wave carries each fact on its frontier and each that flips, and tells each their readers. -/
structure WaveDone (ctx : SchedulerContext P Run F) (becameQuiet : Bool) (seeds : List F)
    (s s' : Scheduler P Run F) (flips : List F) (new : List (FactChange F)) (carried : List F) :
    Prop where
  moves : Moves becameQuiet s s' flips new (carried.flatMap (s.deps.readersOf ctx)) carried
  carried : ∀ f, carried.count f = seeds.count f + flips.count f

theorem WaveDone.nil (s : Scheduler P Run F) : WaveDone ctx becameQuiet [] s s [] [] [] where
  moves := .refl ..
  carried _ := rfl

theorem WaveDone.cons {fact : F} {frontier flips flips' carried : List F}
    {new new' : List (FactChange F)} {s mid s' : Scheduler P Run F}
    (h : Moves becameQuiet s mid flips new (s.deps.readersOf ctx fact) [fact])
    (h' : WaveDone ctx becameQuiet (flips ++ frontier) mid s' flips' new' carried) :
    WaveDone ctx becameQuiet (fact :: frontier) s s' (flips' ++ flips) (new ++ new')
      (carried ++ [fact]) where
  moves := by
    have hall := h.trans h'.moves
    rw [readersOf_congr h.deps] at hall
    refine hall.congr (fun _ => rfl) fun r => ?_
    rw [List.flatMap_append, List.flatMap_singleton, List.count_append, List.count_append,
      Nat.add_comm]
  carried f := by
    have hfact : (fact :: frontier).count f = [fact].count f + frontier.count f := by
      rw [← List.count_append, List.singleton_append]
    rw [hfact, List.count_append, h'.carried, List.count_append, List.count_append]
    omega

variable (ctx becameQuiet)

theorem waveLoop_done : ∀ (fuel : Nat) (frontier : List F) (s : Scheduler P Run F)
    (changes : List (FactChange F)), frontier.length + Moves.unflipped becameQuiet s ≤ fuel →
    ∃ s' flips new carried,
      waveLoop ctx becameQuiet fuel ⟨s, changes, frontier⟩ = some (s', changes ++ new) ∧
        WaveDone ctx becameQuiet frontier s s' flips new carried := by
  intro fuel
  induction fuel with
  | zero =>
    intro frontier s changes hfuel
    cases frontier with
    | nil => exact ⟨s, [], [], [], by rw [List.append_nil]; rfl, .nil s⟩
    | cons fact frontier => exact absurd hfuel (by simp)
  | succ fuel ih =>
    intro frontier s changes hfuel
    cases frontier with
    | nil => exact ⟨s, [], [], [], by rw [List.append_nil]; rfl, .nil s⟩
    | cons fact frontier =>
      have hpop : Moves becameQuiet s { s with carried := fact :: s.carried } [] [] [] [fact] :=
        { Moves.refl becameQuiet s with carried := rfl }
      obtain ⟨flips, new, hchanges, hfrontier, hmoves⟩ := foldl_waveReader_moves becameQuiet
        (s.deps.readersOf ctx fact) ⟨{ s with carried := fact :: s.carried }, changes, frontier⟩
      have hturn : waveLoop ctx becameQuiet (fuel + 1) ⟨s, changes, fact :: frontier⟩ =
          waveLoop ctx becameQuiet fuel
            ((s.deps.readersOf ctx fact).foldl (waveReader becameQuiet)
              ⟨{ s with carried := fact :: s.carried }, changes, frontier⟩) := rfl
      generalize (s.deps.readersOf ctx fact).foldl (waveReader becameQuiet)
        ⟨{ s with carried := fact :: s.carried }, changes, frontier⟩ = wave at *
      obtain ⟨mid, changes', frontier'⟩ := wave
      obtain rfl : changes' = changes ++ new := hchanges
      obtain rfl : frontier' = flips ++ frontier := hfrontier
      have hstep : Moves becameQuiet s mid flips new (s.deps.readersOf ctx fact) [fact] := by
        simpa using hpop.trans hmoves
      have hleft := hstep.unflipped_add
      rw [List.length_cons] at hfuel
      obtain ⟨s', flips', new', carried', hrun, hdone⟩ := ih (flips ++ frontier) mid
        (changes ++ new) (by rw [List.length_append]; omega)
      exact ⟨s', _, _, _, by rw [hturn, hrun, List.append_assoc], hdone.cons hstep⟩

theorem propagateQuietWave_done (seeds : List F) (s : Scheduler P Run F)
    (changes : List (FactChange F)) :
    ∃ s' flips new carried, s.propagateQuietWave ctx seeds becameQuiet changes =
      some (s', changes ++ new) ∧ WaveDone ctx becameQuiet seeds s s' flips new carried := by
  have hfuel := Moves.unflipped_le becameQuiet s
  obtain ⟨s', flips, new, carried, hrun, hdone⟩ := waveLoop_done ctx becameQuiet
    (seeds.length + s.facts.slots.keys.card) seeds.reverse s changes
    (by rw [List.length_reverse]; omega)
  refine ⟨s', flips, new, carried, hrun, hdone.moves, fun f => ?_⟩
  rw [hdone.carried, List.count_reverse]

end Scheduler

end Fz.Facts
