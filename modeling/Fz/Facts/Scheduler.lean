import Fz.Facts.FactTable

/-!
# The scheduler

A completed job replaces what it reads and claims.  Facts that stop or start being quiet are carried
to their readers in waves: each reader counts its reads that are not quiet, and when the count
leaves or reaches zero the facts it claims may flip in turn.  What has moved is then drained: the
readers of a fact are put on the agenda and their claims marked dirty, which moves more.

The loops here have a number of turns they may take, read off the state when they start, and are
`none` if it does not suffice.  The scheduler also keeps the facts whose flips were carried to their
readers (`carried`), only to be spoken of.
-/

namespace Fz.Facts

/-! ## Read counts -/

inductive ReadFinality where
  | pending (count : Nat)
  | quiescent (count : Nat)
  deriving DecidableEq

namespace ReadFinality

def count : ReadFinality → Nat
  | .pending count => count
  | .quiescent count => count

def isPending : ReadFinality → Bool
  | .pending _ => true
  | .quiescent _ => false

def afterEdge (state : ReadFinality) (becameQuiet : Bool) : ReadFinality :=
  if !becameQuiet then .pending (state.count + 1)
  else
    match state with
    | .pending count => .pending (count - 1)
    | .quiescent count => .quiescent (count - 1)

end ReadFinality

variable {P Run F : Type} [DecidableEq P] [DecidableEq Run] [DecidableEq F]

inductive WakeDisposition where
  | enqueued
  | coalesced

structure Wake (Run F : Type) where
  cause : FactUse F
  job : Run
  disposition : WakeDisposition
  shift : Bool

structure Scheduler (P Run F : Type) where
  agenda : List Run
  facts : FactTable P F
  deps : DependencyIndex P Run F
  rebased : Finset P
  readFinality : P → Option ReadFinality
  carried : List F

namespace Scheduler

def isUnfinal (s : Scheduler P Run F) (publisher : P) : Bool :=
  (s.readFinality publisher).any ReadFinality.isPending

def dependencyState (ctx : SchedulerContext P Run F) (s : Scheduler P Run F) (key : F) :
    FactState :=
  (ctx.externalState key).getD (s.facts.state key)

def dependencyIsQuiet (ctx : SchedulerContext P Run F) (s : Scheduler P Run F) (key : F) : Bool :=
  match ctx.externalState key with
  | some state => state.settled
  | none => s.facts.isQuiet key

def dependencySatisfies (ctx : SchedulerContext P Run F) (s : Scheduler P Run F)
    (usage : FactUse F) : Bool :=
  let state := s.dependencyState ctx usage.fact
  match usage with
  | .current _ => state.revision.isSome
  | .settled _ => state.revision.isSome && state.settled

def countUnfinalReads (ctx : SchedulerContext P Run F) (s : Scheduler P Run F) (publisher : P) :
    Nat :=
  ((s.deps.reads publisher).filter fun read => !s.dependencyIsQuiet ctx read.fact).card

def setReadFinality (s : Scheduler P Run F) (publisher : P) (state : ReadFinality) :
    Scheduler P Run F :=
  { s with
    readFinality := Function.update s.readFinality publisher
      (if state.count = 0 then none else some state) }

def setUnfinalReads (s : Scheduler P Run F) (publisher : P) (count : Nat) : Scheduler P Run F :=
  s.setReadFinality publisher (.pending count)

def quietSnapshot (s : Scheduler P Run F) (keys : List F) : List Bool := keys.map s.facts.isQuiet

/-! ## Waves -/

/-- A scheduler in a wave, with the changes so far and the facts that are still to be carried. -/
structure Wave (P Run F : Type) where
  scheduler : Scheduler P Run F
  changes : List (FactChange F)
  frontier : List F

/-- One claim of a reader whose finality flipped. -/
def waveKey (reader : P) (isUnfinal : Bool) (wave : Wave P Run F) (key : F) : Wave P Run F :=
  let s := wave.scheduler
  let (facts, changed) := s.facts.setPublisherUnfinal key reader isUnfinal
  { scheduler := { s with facts := facts }
    changes := wave.changes ++ changed
    frontier :=
      if facts.isQuiet key ≠ s.facts.isQuiet key then key :: wave.frontier else wave.frontier }

/-- One read of a fact that flipped. -/
def waveReader (becameQuiet : Bool) (wave : Wave P Run F) (reader : P) : Wave P Run F :=
  let wasUnfinal := wave.scheduler.isUnfinal reader
  let previous := (wave.scheduler.readFinality reader).getD (.pending 0)
  let s := wave.scheduler.setReadFinality reader (previous.afterEdge becameQuiet)
  let isUnfinal := s.isUnfinal reader
  let wave := { wave with scheduler := s }
  if isUnfinal = wasUnfinal then wave
  else (s.deps.outputKeys reader).foldl (waveKey reader isUnfinal) wave

def waveLoop (ctx : SchedulerContext P Run F) (becameQuiet : Bool) :
    Nat → Wave P Run F → Option (Scheduler P Run F × List (FactChange F))
  | fuel, wave =>
    match wave.frontier, fuel with
    | [], _ => some (wave.scheduler, wave.changes)
    | _ :: _, 0 => none
    | fact :: frontier, fuel + 1 =>
      let s := { wave.scheduler with carried := fact :: wave.scheduler.carried }
      waveLoop ctx becameQuiet fuel
        ((s.deps.readersOf ctx fact).foldl (waveReader becameQuiet) ⟨s, wave.changes, frontier⟩)

def propagateQuietWave (ctx : SchedulerContext P Run F) (seeds : List F) (becameQuiet : Bool)
    (s : Scheduler P Run F) (changes : List (FactChange F)) :
    Option (Scheduler P Run F × List (FactChange F)) :=
  waveLoop ctx becameQuiet (seeds.length + s.facts.slots.keys.card) ⟨s, changes, seeds.reverse⟩

/-- The keys that flipped to `quiet` since a snapshot. -/
def flippedTo (s : Scheduler P Run F) (quiet : Bool) (keys : List F) (quietBefore : List Bool) :
    List F :=
  ((keys.zip quietBefore).filter fun (key, wasQuiet) =>
    wasQuiet ≠ quiet ∧ s.facts.isQuiet key = quiet).map Prod.fst

def propagateQuietFlips (ctx : SchedulerContext P Run F) (keys : List F) (quietBefore : List Bool)
    (s : Scheduler P Run F) (changes : List (FactChange F)) :
    Option (Scheduler P Run F × List (FactChange F)) := do
  let becameQuiet := s.flippedTo true keys quietBefore
  let becameUnquiet := s.flippedTo false keys quietBefore
  let (s, changes) ← s.propagateQuietWave ctx becameUnquiet false changes
  s.propagateQuietWave ctx becameQuiet true changes

/-- The claims of a publisher whose finality was counted anew. -/
def setClaimsUnfinal (publisher : P) (unfinal : Bool) :
    List F → Scheduler P Run F → List (FactChange F) → Scheduler P Run F × List (FactChange F)
  | [], s, changes => (s, changes)
  | key :: keys, s, changes =>
    let (facts, changed) := s.facts.setPublisherUnfinal key publisher unfinal
    setClaimsUnfinal publisher unfinal keys { s with facts := facts } (changes ++ changed)

def refreshFinality (ctx : SchedulerContext P Run F) (publisher : P) (s : Scheduler P Run F)
    (changes : List (FactChange F)) : Option (Scheduler P Run F × List (FactChange F)) :=
  let count := s.countUnfinalReads ctx publisher
  let wasUnfinal := s.isUnfinal publisher
  let s := s.setUnfinalReads publisher count
  if decide (0 < count) = wasUnfinal then some (s, changes)
  else
    let keys := s.deps.outputKeys publisher
    let quietBefore := s.quietSnapshot keys
    let (s, changes) := setClaimsUnfinal publisher (0 < count) keys s changes
    s.propagateQuietFlips ctx keys quietBefore changes

/-! ## Dispatch -/

def dirtyClaims (ctx : SchedulerContext P Run F) (publisher : P) (s : Scheduler P Run F)
    (changes : List (FactChange F)) : Option (Scheduler P Run F × List (FactChange F)) :=
  let keys := s.deps.outputKeys publisher
  let quietBefore := s.quietSnapshot keys
  let (facts, dirtied) := FactTable.markDirty publisher keys s.facts
  { s with facts := facts }.propagateQuietFlips ctx keys quietBefore (changes ++ dirtied)

/-- A scheduler in a drain, with the changes still to be dispatched and the wakes so far. -/
structure Drain (P Run F : Type) where
  scheduler : Scheduler P Run F
  changes : List (FactChange F)
  wakes : List (Wake Run F)

def enqueueStep (job : Run) (cause : FactUse F) (shift : Bool) (drain : Drain P Run F) :
    Drain P Run F :=
  let s := drain.scheduler
  if job ∈ s.agenda then
    { drain with wakes := drain.wakes ++ [⟨cause, job, .coalesced, shift⟩] }
  else
    { drain with
      scheduler := { s with agenda := s.agenda ++ [job] }
      wakes := drain.wakes ++ [⟨cause, job, .enqueued, shift⟩] }

/-- The claims of one publisher marked dirty, and the publisher rebased by a shift. -/
def reopen (ctx : SchedulerContext P Run F) (shift : Bool) (drain : Drain P Run F)
    (publisher : P) : Option (Drain P Run F) := do
  let s := drain.scheduler
  let s := if shift then { s with rebased := insert publisher s.rebased } else s
  let (s, changes) ← s.dirtyClaims ctx publisher drain.changes
  some { drain with scheduler := s, changes := changes }

def wakeWaiter (ctx : SchedulerContext P Run F) (factUse : FactUse F) (shift : Bool)
    (drain : Drain P Run F) (job : Run) : Option (Drain P Run F) :=
  if ∀ wait ∈ drain.scheduler.deps.waits job, drain.scheduler.dependencySatisfies ctx wait then do
    let drain ← reopen ctx shift drain (ctx.ofRun job)
    some (enqueueStep job factUse shift drain)
  else some drain

def wakeSatisfiedWaiters (ctx : SchedulerContext P Run F) (factUse : FactUse F) (shift : Bool)
    (drain : Drain P Run F) : Option (Drain P Run F) :=
  (drain.scheduler.deps.waitersOf ctx factUse).foldlM (wakeWaiter ctx factUse shift) drain

def enqueueDependents (ctx : SchedulerContext P Run F) (factUse : FactUse F) (shift : Bool)
    (drain : Drain P Run F) : Option (Drain P Run F) := do
  let subscribers := drain.scheduler.deps.subscribersOf ctx factUse
  let drain ← subscribers.foldlM (reopen ctx shift) drain
  let woken := (OrderedSet.ofList (subscribers.map ctx.run)).order
  let drain := woken.foldl (fun drain job => enqueueStep job factUse shift drain) drain
  wakeSatisfiedWaiters ctx factUse shift drain

/-- The change of the least key, and of these the newest. -/
def takeNextFactChange (ctx : SchedulerContext P Run F) (pending : List (FactChange F)) :
    Option (FactChange F × List (FactChange F)) :=
  match pending.zipIdx with
  | [] => none
  | first :: rest =>
    let next := rest.foldl (fun left right =>
      match (ctx.cmpFact left.1.key right.1.key).then (compare right.2 left.2) with
      | .gt => right
      | _ => left) first
    some (next.1, pending.eraseIdx next.2)

def dispatchChange (ctx : SchedulerContext P Run F) (change : FactChange F)
    (drain : Drain P Run F) : Option (Drain P Run F) :=
  match change.contentMovement with
  | some movement => do
    let shift : Bool := movement = .shift
    let drain ← enqueueDependents ctx (.current change.key) shift drain
    enqueueDependents ctx (.settled change.key) shift drain
  | none =>
    (if change.oldRevision.isNone && change.newRevision.isSome then
      wakeSatisfiedWaiters ctx (.current change.key) false drain
    else some drain).bind fun drain =>
      if change.readinessChanged then enqueueDependents ctx (.settled change.key) false drain
      else some drain

def dispatchLoop (ctx : SchedulerContext P Run F) :
    Nat → Drain P Run F → List F → Option (Drain P Run F × List F)
  | fuel, drain, movedKeys =>
    match takeNextFactChange ctx drain.changes, fuel with
    | none, _ => some (drain, movedKeys)
    | some _, 0 => none
    | some (change, pending), fuel + 1 => do
      let drain ← dispatchChange ctx change { drain with changes := pending }
      dispatchLoop ctx fuel drain (change.key :: movedKeys)

structure DispatchedWave (Run F : Type) where
  wakes : List (Wake Run F)
  movements : List (FactMovement F)

/-- Drains a wave of fact changes into wakes. -/
def dispatchChanges (ctx : SchedulerContext P Run F) (pending : List (FactChange F))
    (s : Scheduler P Run F) : Option (Scheduler P Run F × DispatchedWave Run F) := do
  let (drain, movedKeys) ←
    dispatchLoop ctx (pending.length + s.facts.slots.keys.card) ⟨s, pending, []⟩ []
  let movements := movedKeys.dedup.map fun key =>
    (⟨key, drain.scheduler.dependencyState ctx key⟩ : FactMovement F)
  some (drain.scheduler, ⟨drain.wakes,
    movements.mergeSort fun left right => (ctx.cmpFact left.key right.key).isLE⟩)

/-! ## Completion -/

/-- One answer: the reads it stands on and the facts it owns. -/
structure DerivationEffects (P F : Type) where
  publisher : P
  reads : Finset (FactUse F)
  outputs : List F
  changed : List F

/-- One run of a job: the answers it reached, and the waits that stopped it. -/
structure CompletionEffects (P F : Type) where
  derivations : List (DerivationEffects P F)
  waits : Finset (FactUse F)

structure AppliedStep (Run F : Type) where
  changed : List (FactChange F)
  movements : List (FactMovement F)
  wakes : List (Wake Run F)

/-- Why a completion does not return. -/
inductive Stop where
  | assertion
  | diverges

def asserted {α : Type} : Option α → Except Stop α
  | some a => .ok a
  | none => .error .assertion

def ends {α : Type} : Option α → Except Stop α
  | some a => .ok a
  | none => .error .diverges

/-- An answer whose reads have been replaced and counted. -/
structure Conclusion (P F : Type) where
  derivation : DerivationEffects P F
  concluding : Bool
  rebased : Bool
  unfinal : Bool

structure Reached (P Run F : Type) where
  scheduler : Scheduler P Run F
  pending : List (FactChange F)
  listed : OrderedSet P
  conclusions : List (Conclusion P F)

def reachDerivation (ctx : SchedulerContext P Run F) (waiting : Bool) (own : P)
    (reached : Reached P Run F) (derivation : DerivationEffects P F) :
    Option (Reached P Run F) := do
  let publisher := derivation.publisher
  let concluding : Bool := !(waiting && publisher = own)
  let sort := fun facts : List F => facts.mergeSort fun left right => (ctx.cmpFact left right).isLE
  let derivation :=
    { derivation with outputs := sort derivation.outputs, changed := sort derivation.changed }
  let s := reached.scheduler
  let s :=
    { s with
      deps :=
        if concluding then s.deps.replaceReads publisher derivation.reads
        else s.deps.unionReads publisher derivation.reads
      rebased := if concluding then s.rebased.erase publisher else s.rebased }
  let (s, pending) ← s.refreshFinality ctx publisher reached.pending
  some
    { scheduler := s
      pending := pending
      listed := reached.listed.insert publisher
      conclusions := reached.conclusions ++
        [⟨derivation, concluding, publisher ∈ reached.scheduler.rebased, s.isUnfinal publisher⟩] }

/-- The scheduler while outputs are replaced, what moved, and what is to be dispatched before. -/
structure Replaced (P Run F : Type) where
  scheduler : Scheduler P Run F
  changed : List (FactChange F)
  pending : List (FactChange F)

def concludeDerivation (ctx : SchedulerContext P Run F) (replaced : Replaced P Run F)
    (conclusion : Conclusion P F) : Option (Replaced P Run F) :=
  let s := replaced.scheduler
  let derivation := conclusion.derivation
  let publisher := derivation.publisher
  let previousKeys := s.deps.outputs publisher
  if conclusion.concluding then do
    let (facts, concluded) ← ctx.replaceOutputsAfterRun s.facts publisher previousKeys
      derivation.outputs derivation.changed conclusion.unfinal conclusion.rebased
    some
      { replaced with
        scheduler :=
          { s with
            facts := facts
            deps := s.deps.replaceOutputs publisher concluded.outputKeys }
        changed := replaced.changed ++ concluded.changed }
  else do
    let (facts, extended) ← ctx.extendOutputsAfterRun s.facts publisher
      derivation.outputs derivation.changed conclusion.unfinal conclusion.rebased
    let claims := previousKeys.extend extended.outputKeys.order
    let (facts, dirtied) := FactTable.markDirty publisher claims.order facts
    some
      { scheduler := { s with facts := facts, deps := s.deps.replaceOutputs publisher claims }
        changed := replaced.changed ++ extended.changed
        pending := replaced.pending ++ dirtied }

def retractUnreached (ctx : SchedulerContext P Run F) (waiting : Bool)
    (replaced : Replaced P Run F) (publisher : P) : Option (Replaced P Run F) :=
  let s := replaced.scheduler
  let previousKeys := s.deps.outputs publisher
  if waiting then
    let (facts, dirtied) := FactTable.markDirty publisher previousKeys.order s.facts
    some
      { replaced with
        scheduler := { s with facts := facts }
        pending := replaced.pending ++ dirtied }
  else do
    let (facts, retracted) ←
      ctx.replaceOutputsAfterRun s.facts publisher previousKeys [] [] false true
    some
      { replaced with
        scheduler :=
          { s with
            facts := facts
            deps := s.deps.forget publisher
            rebased := s.rebased.erase publisher
            readFinality := Function.update s.readFinality publisher none }
        changed := replaced.changed ++ retracted.changed }

/-- The facts that the answers claim, before and after. -/
def touchedKeys (reached : Reached P Run F) (unreached : List P) : OrderedSet F :=
  let outputKeys := reached.scheduler.deps.outputKeys
  (OrderedSet.ofList (reached.conclusions.flatMap fun conclusion =>
    conclusion.derivation.outputs ++ outputKeys conclusion.derivation.publisher)).extend
      (unreached.flatMap outputKeys)

def replaceClaims (ctx : SchedulerContext P Run F) (waiting : Bool) (reached : Reached P Run F)
    (unreached : List P) : Option (Replaced P Run F) := do
  let replaced ← reached.conclusions.foldlM (concludeDerivation ctx)
    ⟨reached.scheduler, [], reached.pending⟩
  unreached.foldlM (retractUnreached ctx waiting) replaced

/-- Concluding replaces reads and claims; waiting extends them and leaves every owned claim dirty.
One completion dispatches one wave. -/
def completeOrderedWithExternal (ctx : SchedulerContext P Run F) (job : Run)
    (effects : CompletionEffects P F) (s : Scheduler P Run F) :
    Except Stop (Scheduler P Run F × AppliedStep Run F) :=
  if effects.derivations.any fun derivation =>
      (derivation.outputs ++ derivation.changed).any fun key => (ctx.externalState key).isSome then
    .error .assertion
  else do
    let waiting : Bool := effects.waits ≠ ∅
    let own := ctx.ofRun job
    let s := { s with deps := s.deps.replaceWaits job effects.waits }
    let previouslyOwned := s.deps.derivations job
    let reached ← ends (effects.derivations.foldlM (reachDerivation ctx waiting own)
      ⟨s, [], .empty, []⟩)
    let unreached := previouslyOwned.order.filter fun publisher => publisher ∉ reached.listed.order
    let touched := touchedKeys reached unreached
    let quietBefore := reached.scheduler.quietSnapshot touched.order
    let replaced ← asserted (replaceClaims ctx waiting reached unreached)
    let s := replaced.scheduler
    let owned :=
      if waiting then previouslyOwned.extend reached.listed.order else reached.listed
    let s := { s with deps := s.deps.replaceDerivations job owned }
    let (s, pending) ← ends (s.propagateQuietFlips ctx touched.order quietBefore
      (replaced.pending ++ replaced.changed))
    let (s, wave) ← ends (s.dispatchChanges ctx pending)
    .ok (s, ⟨replaced.changed, wave.movements, wave.wakes⟩)

end Scheduler

end Fz.Facts
