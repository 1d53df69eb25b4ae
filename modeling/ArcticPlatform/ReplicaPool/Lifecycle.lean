import ArcticPlatform.Library.Runs
import Mathlib.Data.List.Basic

/-!
# Lifecycle calls of the replica pool

An embedding of the calls of `ReplicaPool` in `inference/server/replica_pool.py` that change
the lifecycle of its workers: `sleep`, `wake_up`, the weight syncs, `reset_prefix_cache`,
`send_router_replay`, `scale_up` and `scale_down`, with what they use of `InferenceWorker` and of
`Scheduler`.  The body of a call runs under the lock of the pool, so that a run is a sequence of
calls.  What the calls await is an argument: which remote calls fail, and whether the await is
cancelled.  A remote call that was sent before a cancellation takes effect on its worker before the
next call does, or not at all.

Main results:

- Theorem `lifecycle_calls_truthful`: the calls leave the scheduling as it was and their answers
  are true, in every run whose steps meet `Guarded`.
-/

namespace ArcticPlatform.ReplicaPool

open Runs List

/-! ## Workers -/

/-- `WorkerLifecycleState` of a worker that is initialized. -/
inductive WorkerLifecycleState where
  | ready
  | sleeping
  | weightsReady
  deriving DecidableEq

/-- A worker, with the flags the scheduler keeps for it. -/
structure Worker where
  state : WorkerLifecycleState
  available : Bool
  quarantined : Bool

/-- `WorkerState.schedulable` -/
def Worker.schedulable (w : Worker) : Bool := w.available && !w.quarantined

/-- `WorkerState.quarantine` -/
def Worker.quarantine (w : Worker) : Worker := { w with available := false, quarantined := true }

theorem Worker.quarantine_schedulable (w : Worker) : w.quarantine.schedulable = false := rfl

theorem Worker.schedulable_iff {w : Worker} :
    w.schedulable = true ↔ w.available = true ∧ w.quarantined = false := by
  simp [Worker.schedulable]

/-- The tags of a wake-up. -/
abbrev Tags := Option (List String)

/-- `_is_full_wake` -/
def isFullWake : Tags → Bool
  | none => true
  | some tags => tags.contains "weights" && tags.contains "kv_cache"

/-- `_is_weights_only_wake` -/
def isWeightsOnlyWake : Tags → Bool
  | none => false
  | some tags => tags.contains "weights" && tags.all (· == "weights")

/-- `_is_kv_only_wake` -/
def isKvOnlyWake : Tags → Bool
  | none => false
  | some tags => tags.contains "kv_cache" && tags.all (· == "kv_cache")

/-- `ReplicaPool._wake_finalize` -/
def wakeFinalize : Tags → Bool
  | none => true
  | some tags => tags.contains "kv_cache"

/-- `InferenceWorker.sleep`: the state after it, where it does not raise. -/
def workerSleep : WorkerLifecycleState → Option WorkerLifecycleState
  | .ready | .weightsReady => some .sleeping
  | .sleeping => none

/-- `InferenceWorker.wake_up`: the state after it, where it does not raise. -/
def workerWakeUp (tags : Tags) : WorkerLifecycleState → Option WorkerLifecycleState
  | .ready => some .ready
  | .weightsReady =>
    if isWeightsOnlyWake tags then
      some .weightsReady
    else if isKvOnlyWake tags || isFullWake tags then
      some .ready
    else
      none
  | .sleeping =>
    if isKvOnlyWake tags then
      none
    else if isFullWake tags then
      some .ready
    else
      some .weightsReady

/-! ## What a call awaits -/

/-- One remote call for each worker, gathered: the workers on which it fails in itself, or on which
it has no effect before a cancellation, and whether the await is cancelled. -/
structure Gather where
  fails : List Nat
  cancelled : Bool

/-- `Scheduler.abort_streams`: the workers it quarantines because the cleanup of one of their streams
is not confirmed, and whether it returns otherwise. -/
structure Cleanup where
  unconfirmed : List Nat
  returns : Bool

/-- The cleanup returns. -/
def Cleanup.ok (c : Cleanup) : Bool := c.unconfirmed.isEmpty && c.returns

/-- `strategy` of a weight sync; the calls check it. -/
inductive Strategy where
  | pause
  | drain
  | skip
  | hotswap
  | unknown
  deriving DecidableEq

/-- `pause_mode` -/
inductive PauseMode where
  | keep
  | abort
  deriving DecidableEq

/-- What a weight sync awaits. -/
structure SyncEvents where
  streams : Cleanup
  /-- `_pause_generation_for_weight_sync` returns. -/
  generationPaused : Bool
  /-- `Scheduler.drain` returns. -/
  drained : Bool
  /-- The remote calls that update the weights -/
  update : Gather
  /-- The await of the remote calls that reset the prefix cache is not cancelled. -/
  resetReturns : Bool
  /-- They all report success. -/
  resetOk : Bool
  /-- `_resume_generation_after_weight_sync` returns. -/
  generationResumed : Bool

/-! ## The pool -/

/-- The pool; `paused` is the flag of its scheduler. -/
structure Pool where
  paused : Bool
  sleeping : Bool
  weightsStaged : Bool
  workers : List Worker

/-- A worker that has just been added. -/
def newWorker : Worker := ⟨.ready, true, false⟩

/-- A pool that has just been initialized. -/
def new (n : Nat) : Pool := ⟨false, false, false, replicate n newWorker⟩

namespace Pool

/-- `Scheduler.pause` -/
def pause (p : Pool) : Pool := { p with paused := true }

/-- `Scheduler.resume` -/
def resume (p : Pool) : Pool := { p with paused := false }

/-- Resume the scheduler if it was not paused before. -/
def resumeUnless (p : Pool) (wasPaused : Bool) : Pool := if wasPaused then p else p.resume

/-- The indices of the workers for which `Scheduler.is_worker_available` -/
def availableWorkers (p : Pool) : List Nat :=
  (range p.workers.length).filter fun i => p.workers[i]?.any Worker.schedulable

/-- `Scheduler.mark_worker_unavailable` for every worker -/
def markWorkersUnavailable (p : Pool) : Pool :=
  { p with workers := p.workers.map fun w => { w with available := false } }

/-- `Scheduler.mark_worker_available` for the workers of a list -/
def markWorkersAvailable (p : Pool) (indices : List Nat) : Pool :=
  { p with
    workers := p.workers.mapIdx fun i w =>
      if i ∈ indices then { w with available := !w.quarantined } else w }

/-- What `Scheduler.abort_streams` does to the workers -/
def abortStreams (p : Pool) (c : Cleanup) : Pool :=
  { p with
    workers := p.workers.mapIdx fun i w => if i ∈ c.unconfirmed then w.quarantine else w }

/-- A remote call for each worker that changes its state, where it does not raise. -/
def remote (p : Pool) (f : WorkerLifecycleState → Option WorkerLifecycleState) (g : Gather) : Pool :=
  { p with
    workers := p.workers.mapIdx fun i w =>
      if i ∈ g.fails then w else { w with state := (f w.state).getD w.state } }

/-- A remote call raises on a worker. -/
def remoteFails (p : Pool) (f : WorkerLifecycleState → Option WorkerLifecycleState) (g : Gather) :
    Bool :=
  (range p.workers.length).any fun i =>
    i ∈ g.fails || p.workers[i]?.any fun w => (f w.state).isNone

/-- A gather over no worker returns at once. -/
def gathered (p : Pool) (ok : Bool) : Bool := p.workers.isEmpty || ok

end Pool

/-! ## The calls -/

/-- `status` of an answer; `ok` stands for the answers without one of the others. -/
inductive Status where
  | alreadySleeping
  | sleeping
  | alreadyReady
  | ready
  | weightsReady
  | ok
  deriving DecidableEq

/-- A call returns, or it raises; a weight sync may raise after an update of the weights has
started. -/
inductive Outcome where
  | returned (status : Status)
  | raised (updateStarted : Bool)
  deriving DecidableEq

namespace Pool

/-- `ReplicaPool.sleep` -/
def sleep (p : Pool) (streams : Cleanup) (drained : Bool) (sent : Gather) : Pool × Outcome :=
  if p.sleeping && !p.weightsStaged then
    (p, .returned .alreadySleeping)
  else
    let q := p.pause.abortStreams streams
    if !(streams.ok && drained) then
      (q.resumeUnless p.paused, .raised false)
    else
      let slept := q.remote workerSleep sent
      if !p.gathered (!sent.cancelled) then
        (slept, .raised false)
      else
        -- The pool sleeps whatever the workers answer.
        ({ slept with sleeping := true, weightsStaged := false }, .returned .sleeping)

/-- `ReplicaPool.wake_up` -/
def wakeUp (p : Pool) (tags : Tags) (sent : Gather) : Pool × Outcome :=
  if !p.sleeping then
    (p, .returned .alreadyReady)
  else
    let woken := p.remote (workerWakeUp tags) sent
    if !p.gathered (!sent.cancelled) || p.remoteFails (workerWakeUp tags) sent then
      (woken, .raised false)
    else if wakeFinalize tags then
      ({ woken with sleeping := false, weightsStaged := false, paused := false }, .returned .ready)
    else
      ({ woken with weightsStaged := true }, .returned .weightsReady)

/-- `ReplicaPool.reset_prefix_cache` -/
def resetPrefixCache (p : Pool) (drain drained cancelled : Bool) : Pool × Outcome :=
  let outcome := if p.gathered (!cancelled) then .returned .ok else .raised false
  if !drain then
    (p, outcome)
  else if !drained then
    (p.pause, .raised false)
  else
    (p.pause.resume, outcome)

/-- `ReplicaPool.send_router_replay` -/
def sendRouterReplay (p : Pool) (drained cancelled : Bool) : Pool × Outcome :=
  -- A cancelled await is kept until the remote calls are done, so that the `finally` finds them so.
  (p.pause.resumeUnless p.paused, if drained && !cancelled then .returned .ok else .raised false)

/-- What a strategy does to the scheduler before the update -/
def enter (p : Pool) : Strategy → Pool
  | .pause | .drain => p.pause
  | .skip => p.markWorkersUnavailable
  | .hotswap | .unknown => p

/-- How a strategy restores what there was before -/
def restore (q p : Pool) : Strategy → Pool
  | .pause | .drain => q.resumeUnless p.paused
  | .skip => q.markWorkersAvailable p.availableWorkers
  | .hotswap | .unknown => q

/-- The replicas a weight sync goes to: those of its groups, or by broadcast every one. -/
inductive Targets where
  | groups (replicaIds : List Nat)
  | broadcast
  deriving DecidableEq

/-- No remote call fails and the await is not cancelled. -/
def updated (p : Pool) (g : Gather) : Bool :=
  p.gathered (!g.cancelled && (range p.workers.length).all fun i => i ∉ g.fails)

/-- The awaits before the update: whether `generation_paused` is set, and whether they all return. -/
def prepare (p : Pool) (strategy : Strategy) (mode : PauseMode) (e : SyncEvents) : Bool × Bool :=
  if !e.streams.ok then
    (false, false)
  else
    match strategy with
    | .pause =>
      if p.gathered e.generationPaused then (true, mode == .keep || e.drained) else (false, false)
    | .drain => (false, e.drained)
    | .skip | .hotswap | .unknown => (false, true)

/-- The update: whether `weight_update_started` is set, and whether the update succeeds. -/
def update (p : Pool) (targets : Targets) (g : Gather) : Bool × Bool :=
  match targets with
  | .broadcast => (true, p.updated g)
  | .groups ids =>
    -- The loop over the workers raises at the first that is in no group.
    if p.workers.isEmpty then
      (false, true)
    else if 0 ∉ ids then
      (false, false)
    else
      (true, (range p.workers.length).all (fun i => i ∈ ids) && p.updated g)

/-- The `finally` of a weight sync -/
def settleSync (q p : Pool) (strategy : Strategy) (generationPaused started succeeded : Bool)
    (e : SyncEvents) : Pool × Outcome :=
  let outcome := if succeeded then .returned .ok else .raised started
  match strategy with
  | .pause =>
    if generationPaused && succeeded && !p.gathered e.generationResumed then
      (q, .raised started)
    else if succeeded || !generationPaused then
      (q.restore p .pause, outcome)
    else
      (q, outcome)
  | strategy => (if succeeded || !started then q.restore p strategy else q, outcome)

/-- `ReplicaPool.sync_weights`, and `_run_broadcast_weight_sync` for a broadcast -/
def syncWeights (p : Pool) (targets : Targets) (strategy : Strategy) (mode : PauseMode)
    (engineOnly : Bool) (e : SyncEvents) : Pool × Outcome :=
  if strategy = .unknown then
    (p, .raised false)
  else
    let strategy := if engineOnly then .hotswap else strategy
    let q := (p.enter strategy).abortStreams e.streams
    let prepared := p.prepare strategy mode e
    let update := if prepared.2 then p.update targets e.update else (false, false)
    let reset := strategy != .pause ||
      p.gathered (e.resetReturns && (mode == .keep || e.resetOk))
    q.settleSync p strategy prepared.1 update.1 (update.2 && reset) e

/-- `ReplicaPool.sync_spec_weights` -/
def syncSpecWeights (p : Pool) (replicaIds : List Nat) (strategy : Strategy) (streams : Cleanup)
    (drained : Bool) (sent : Gather) : Pool × Outcome :=
  if strategy = .unknown ∨ strategy = .pause then
    (p, .raised false)
  else
    let q := (p.enter strategy).abortStreams streams
    if !(streams.ok && (strategy != .drain || drained)) then
      (q.restore p strategy, .raised false)
    else
      match (range p.workers.length).find? fun i => i ∉ replicaIds with
      | some i => (q, .raised (i != 0))
      | none =>
        if p.gathered (!sent.cancelled) then
          (q.restore p strategy, .returned .ok)
        else
          (q, .raised true)

/-- The loop of `ReplicaPool.scale_up`; `fails` are the indices at which a worker cannot be
placed or initialized. -/
def addWorkers (fails : List Nat) : Nat → Pool → Pool × Outcome
  | 0, p => (p, .returned .ok)
  | k + 1, p =>
    if p.workers.length ∈ fails then
      (p, .raised false)
    else
      addWorkers fails k { p with workers := p.workers ++ [newWorker] }

/-- `ReplicaPool.scale_up` -/
def scaleUp (p : Pool) (targetCount : Nat) (fails : List Nat) : Pool × Outcome :=
  addWorkers fails (targetCount - p.workers.length) p

/-- The loop of `ReplicaPool.scale_down`; `fails` are the indices at which the streams are not
aborted or the drain is cancelled. -/
def removeWorkers (fails : List Nat) : Nat → Pool → Pool × Outcome
  | 0, p => (p, .returned .ok)
  | k + 1, p =>
    -- The worker is removed in any case, with the flags that were set for it.
    let q := { p with workers := p.workers.dropLast }
    if p.workers.length - 1 ∈ fails then (q, .raised false) else removeWorkers fails k q

/-- `ReplicaPool.scale_down` -/
def scaleDown (p : Pool) (targetCount : Nat) (fails : List Nat) : Pool × Outcome :=
  removeWorkers fails (p.workers.length - targetCount) p

end Pool

/-- A call of the pool with what its awaits bring; a call is refused that raises or is cancelled
before its body has the lock. -/
inductive Call where
  | refused
  | sleep (streams : Cleanup) (drained : Bool) (sent : Gather)
  | wakeUp (tags : Tags) (sent : Gather)
  | resetPrefixCache (drain drained cancelled : Bool)
  | sendRouterReplay (drained cancelled : Bool)
  | syncWeights (targets : Pool.Targets) (strategy : Strategy) (mode : PauseMode)
      (engineOnly : Bool) (e : SyncEvents)
  | syncSpecWeights (replicaIds : List Nat) (strategy : Strategy) (streams : Cleanup)
      (drained : Bool) (sent : Gather)
  | scaleUp (targetCount : Nat) (fails : List Nat)
  | scaleDown (targetCount : Nat) (fails : List Nat)

/-- The pool after a call, and how the call ends -/
def Pool.run (p : Pool) : Call → Pool × Outcome
  | .refused => (p, .raised false)
  | .sleep streams drained sent => p.sleep streams drained sent
  | .wakeUp tags sent => p.wakeUp tags sent
  | .resetPrefixCache drain drained cancelled => p.resetPrefixCache drain drained cancelled
  | .sendRouterReplay drained cancelled => p.sendRouterReplay drained cancelled
  | .syncWeights targets strategy mode engineOnly e =>
    p.syncWeights targets strategy mode engineOnly e
  | .syncSpecWeights ids strategy streams drained sent =>
    p.syncSpecWeights ids strategy streams drained sent
  | .scaleUp targetCount fails => p.scaleUp targetCount fails
  | .scaleDown targetCount fails => p.scaleDown targetCount fails

/-- A step: a call, or a stream whose cleanup is not confirmed between two calls. -/
inductive Act where
  | call (c : Call)
  | unconfirmed (i : Nat)

/-- One step of the pool -/
def step (p : Pool) : Act → Option Pool
  | .call c => some (p.run c).1
  | .unconfirmed i => some (p.abortStreams ⟨[i], true⟩)

/-! ## The condition -/

namespace Pool

/-- A worker that takes requests has no stream whose cleanup fails. -/
abbrev Confirmed (p : Pool) (streams : Cleanup) : Prop :=
  ∀ i ∈ streams.unconfirmed, ¬p.workers[i]?.any Worker.schedulable

/-- The workers sleep when `sleep` returns; where it is cancelled while they go to sleep, the pool
is asleep already, or its scheduler is paused and no worker goes to sleep. -/
abbrev SleepGuard (p : Pool) (streams : Cleanup) (drained : Bool) (sent : Gather) : Prop :=
  (p.sleeping ∧ ¬p.weightsStaged) ∨ (p.Confirmed streams ∧ (streams.ok → drained →
        if p.gathered (!sent.cancelled) then
          ∀ i < p.workers.length, i ∈ sent.fails → p.workers[i]?.any (fun w => w.state = .sleeping)
        else
          p.sleeping ∨ (p.paused ∧ ∀ i < p.workers.length, i ∈ sent.fails)))

/-- `wake_up` of a sleeping pool has no remote call that wakes a worker beside one that fails; where
it restores the KV cache, its tags wake the workers in full or nothing else, or no worker sleeps. -/
abbrev WakeGuard (p : Pool) (tags : Tags) (sent : Gather) : Prop :=
  p.sleeping → if !p.gathered (!sent.cancelled) || p.remoteFails (workerWakeUp tags) sent then
      p.weightsStaged ∨ isKvOnlyWake tags ∨ ∀ i < p.workers.length, i ∈ sent.fails
    else
      wakeFinalize tags → isFullWake tags ∨ isKvOnlyWake tags ∨ ∀ w ∈ p.workers, w.state ≠ .sleeping

/-- `reset_prefix_cache` resumes a scheduler that was not paused, and fails in its drain where the
scheduler was paused. -/
abbrev ResetGuard (p : Pool) (drain drained : Bool) : Prop := drain → p.paused = !drained

/-- A sync that pauses the generation does not fail between that and the update, unless the
scheduler was paused before. -/
abbrev SyncGuard (p : Pool) (targets : Targets) (strategy : Strategy) (mode : PauseMode)
    (engineOnly : Bool) (e : SyncEvents) : Prop :=
  strategy = .unknown ∨ p.Confirmed e.streams ∧
    (strategy = .pause → ¬engineOnly → e.streams.ok → p.gathered e.generationPaused → p.paused ∨
        ((mode = .keep ∨ e.drained) ∧ match targets with
          | .broadcast => True
          | .groups ids => p.workers.isEmpty ∨ 0 ∈ ids))

/-- A spec sync has a group for the first replica, unless its strategy changes nothing. -/
abbrev SpecGuard (p : Pool) (replicaIds : List Nat) (strategy : Strategy) (streams : Cleanup)
    (drained : Bool) : Prop :=
  match strategy with
  | .drain =>
    p.Confirmed streams ∧ (streams.ok → drained → p.workers.isEmpty ∨ 0 ∈ replicaIds ∨ p.paused)
  | .skip =>
    p.Confirmed streams ∧
      (streams.ok → p.workers.isEmpty ∨ 0 ∈ replicaIds ∨ p.availableWorkers = [])
  | .hotswap => p.Confirmed streams
  | .pause | .unknown => True

/-- `scale_up` adds no worker to a pool that sleeps. -/
abbrev ScaleUpGuard (p : Pool) (targetCount : Nat) (fails : List Nat) : Prop :=
  p.sleeping → ¬p.weightsStaged → targetCount ≤ p.workers.length ∨ p.workers.length ∈ fails

/-- The condition on a call -/
def CallGuarded (p : Pool) : Call → Prop
  | .sleep streams drained sent => p.SleepGuard streams drained sent
  | .wakeUp tags sent => p.WakeGuard tags sent
  | .resetPrefixCache drain drained _ => p.ResetGuard drain drained
  | .syncWeights targets strategy mode engineOnly e =>
    p.SyncGuard targets strategy mode engineOnly e
  | .syncSpecWeights ids strategy streams drained _ => p.SpecGuard ids strategy streams drained
  | .scaleUp targetCount fails => p.ScaleUpGuard targetCount fails
  | .refused | .sendRouterReplay _ _ | .scaleDown _ _ => True

instance (p : Pool) (c : Call) : Decidable (p.CallGuarded c) :=
  match c with
  | .sleep streams drained sent => inferInstanceAs (Decidable (p.SleepGuard streams drained sent))
  | .wakeUp tags sent => inferInstanceAs (Decidable (p.WakeGuard tags sent))
  | .resetPrefixCache drain drained _ => inferInstanceAs (Decidable (p.ResetGuard drain drained))
  | .syncWeights (.groups ids) strategy mode engineOnly e =>
    inferInstanceAs (Decidable (p.SyncGuard (.groups ids) strategy mode engineOnly e))
  | .syncWeights .broadcast strategy mode engineOnly e =>
    inferInstanceAs (Decidable (p.SyncGuard .broadcast strategy mode engineOnly e))
  | .syncSpecWeights ids .drain streams drained _ =>
    inferInstanceAs (Decidable (p.SpecGuard ids .drain streams drained))
  | .syncSpecWeights ids .skip streams drained _ =>
    inferInstanceAs (Decidable (p.SpecGuard ids .skip streams drained))
  | .syncSpecWeights ids .hotswap streams drained _ =>
    inferInstanceAs (Decidable (p.SpecGuard ids .hotswap streams drained))
  | .syncSpecWeights ids .pause streams drained _ =>
    inferInstanceAs (Decidable (p.SpecGuard ids .pause streams drained))
  | .syncSpecWeights ids .unknown streams drained _ =>
    inferInstanceAs (Decidable (p.SpecGuard ids .unknown streams drained))
  | .scaleUp targetCount fails => inferInstanceAs (Decidable (p.ScaleUpGuard targetCount fails))
  | .refused | .sendRouterReplay _ _ | .scaleDown _ _ => inferInstanceAs (Decidable True)

end Pool

/-- The condition on a step -/
def Guarded (p : Pool) : Act → Prop
  | .call c => p.CallGuarded c
  | .unconfirmed _ => True

instance (p : Pool) (a : Act) : Decidable (Guarded p a) :=
  match a with
  | .call c => inferInstanceAs (Decidable (p.CallGuarded c))
  | .unconfirmed _ => inferInstanceAs (Decidable True)

/-! ## What the scheduler says of the workers -/

/-- The calls that may leave the scheduler otherwise: a successful `sleep`, a successful `wake_up`
that restores the KV cache, and a weight sync that failed after the update started. -/
def Outcome.Excepted (o : Outcome) : Prop :=
  o = .returned .sleeping ∨ o = .returned .ready ∨ o = .raised true

/-- An answer that is no claim about the workers -/
def Outcome.Plain (o : Outcome) : Prop :=
  o ≠ .returned .alreadySleeping ∧ o ≠ .returned .alreadyReady

namespace Pool

/-- The scheduler is paused as before, and each worker that is still there is as available as
before. -/
def Unchanged (p q : Pool) : Prop :=
  q.paused = p.paused ∧
    ∀ (i : Nat) (w w' : Worker), p.workers[i]? = some w → q.workers[i]? = some w' →
      w'.schedulable = w.schedulable

/-- What a call promises: it leaves the scheduling as it was, and its answer is true. -/
structure Truthful (p : Pool) (c : Call) : Prop where
  unchanged : ¬(p.run c).2.Excepted → p.Unchanged (p.run c).1
  asleep : (p.run c).2 = .returned .alreadySleeping → ∀ w ∈ p.workers, w.state = .sleeping
  awake : (p.run c).2 = .returned .alreadyReady → ∀ w ∈ p.workers, w.state = .ready

/-- The flags of a pool agree with the states of its workers. -/
structure Valid (p : Pool) : Prop where
  paused : p.sleeping → p.paused
  asleep : p.sleeping → ¬p.weightsStaged → ∀ w ∈ p.workers, w.state = .sleeping
  awake : ¬p.sleeping → ∀ w ∈ p.workers, w.state = .ready

theorem valid_new (n : Nat) : (new n).Valid where
  paused h := by simp [new] at h
  asleep h := by simp [new] at h
  awake _ w hw := by
    rw [eq_of_mem_replicate hw]
    rfl

/-! ## What a call keeps of the pool -/

/-- The states of the workers -/
def states (p : Pool) : List WorkerLifecycleState := p.workers.map Worker.state

/-- Whether the workers take requests -/
def availability (p : Pool) : List Bool := p.workers.map Worker.schedulable

/-- The flags of the pool and the states of its workers are as before, and the scheduler is not
resumed. -/
structure Frame (p q : Pool) : Prop where
  sleeping : q.sleeping = p.sleeping
  weightsStaged : q.weightsStaged = p.weightsStaged
  states : q.states = p.states
  paused : p.paused → q.paused

/-- The scheduling is as before, too. -/
structure Restored (p q : Pool) : Prop extends Frame p q where
  paused_eq : q.paused = p.paused
  availability : q.availability = p.availability

variable {p q : Pool} {streams : Cleanup} {strategy : Strategy}

theorem forall_state_of_states {x : WorkerLifecycleState} (hstates : q.states = p.states)
    (h : ∀ w ∈ p.workers, w.state = x) : ∀ w ∈ q.workers, w.state = x := by
  intro w hw
  have hmem : w.state ∈ p.states := hstates ▸ mem_map_of_mem hw
  obtain ⟨v, hv, hstate⟩ := mem_map.mp hmem
  rw [← hstate]
  exact h v hv

theorem Frame.valid (hframe : Frame p q) (hvalid : p.Valid) : q.Valid where
  paused h := hframe.paused (hvalid.paused (hframe.sleeping ▸ h))
  asleep h hstaged :=
    forall_state_of_states hframe.states
      (hvalid.asleep (hframe.sleeping ▸ h) (hframe.weightsStaged ▸ hstaged))
  awake h := forall_state_of_states hframe.states (hvalid.awake (hframe.sleeping ▸ h))

theorem Restored.refl (p : Pool) : Restored p p := ⟨⟨rfl, rfl, rfl, id⟩, rfl, rfl⟩

theorem unchanged_of_eq (hpaused : q.paused = p.paused) (havail : q.availability = p.availability) :
    p.Unchanged q := by
  refine ⟨hpaused, ?_⟩
  intro i w w' hw hw'
  have hi := congrArg (fun l => l[i]?) havail
  simpa [availability, hw, hw'] using hi

theorem Restored.unchanged (h : Restored p q) : p.Unchanged q :=
  unchanged_of_eq h.paused_eq h.availability

theorem abortStreams_states (p : Pool) (c : Cleanup) : (p.abortStreams c).states = p.states := by
  apply ext_getElem?
  intro i
  cases hw : p.workers[i]? with
  | none => simp [states, abortStreams, hw]
  | some w =>
    by_cases hi : i ∈ c.unconfirmed <;> simp [states, abortStreams, hw, hi, Worker.quarantine]

theorem enter_frame (p : Pool) (strategy : Strategy) (c : Cleanup) :
    Frame p ((p.enter strategy).abortStreams c) := by
  have hstates : (p.enter strategy).states = p.states := by
    cases strategy <;> simp [enter, states, pause, markWorkersUnavailable]
  refine ⟨?_, ?_, (abortStreams_states _ c).trans hstates, ?_⟩
  · cases strategy <;> rfl
  · cases strategy <;> rfl
  · intro hpaused
    cases strategy <;> first | rfl | exact hpaused

theorem abortStreams_availability (hconf : p.Confirmed streams) :
    (p.abortStreams streams).availability = p.availability := by
  apply ext_getElem?
  intro i
  cases hw : p.workers[i]? with
  | none => simp [availability, abortStreams, hw]
  | some w =>
    by_cases hi : i ∈ streams.unconfirmed
    · have hoff := hconf i hi
      simp only [hw, Option.any_some, Bool.not_eq_true] at hoff
      simp [availability, abortStreams, hw, hi, Worker.quarantine_schedulable, hoff]
    · simp [availability, abortStreams, hw, hi]

theorem mem_availableWorkers {i : Nat} :
    i ∈ p.availableWorkers ↔ p.workers[i]?.any Worker.schedulable := by
  cases hw : p.workers[i]? with
  | none => simp [availableWorkers, hw]
  | some w =>
    obtain ⟨hi, hget⟩ := List.getElem?_eq_some_iff.mp hw
    simp [availableWorkers, hi, hget]

theorem markWorkersAvailable_availability (hconf : p.Confirmed streams) :
    ((p.markWorkersUnavailable.abortStreams streams).markWorkersAvailable
      p.availableWorkers).availability = p.availability := by
  apply ext_getElem?
  intro i
  cases hw : p.workers[i]? with
  | none => simp [availability, markWorkersAvailable, abortStreams, markWorkersUnavailable, hw]
  | some w =>
    have hconfi := hconf i
    rw [hw] at hconfi
    by_cases hon : w.schedulable
    · have hi : i ∈ p.availableWorkers := by simp [mem_availableWorkers, hw, hon]
      have hout : i ∉ streams.unconfirmed := fun h => hconfi h (by simpa using hon)
      have hflags := Worker.schedulable_iff.mp hon
      simp [availability, markWorkersAvailable, abortStreams, markWorkersUnavailable, hw, hi, hout,
        hflags, Worker.schedulable]
    · have hi : i ∉ p.availableWorkers := by simp [mem_availableWorkers, hw, hon]
      have hoff : w.schedulable = false := Bool.eq_false_iff.mpr hon
      by_cases hout : i ∈ streams.unconfirmed
      · simp [availability, markWorkersAvailable, abortStreams, markWorkersUnavailable, hw, hi,
          hout, hoff, Worker.quarantine_schedulable]
      · simp only [availability, markWorkersAvailable, abortStreams, markWorkersUnavailable,
          getElem?_map, getElem?_mapIdx, hw, hi, hout, hoff, Option.map_some, if_false]
        rfl

theorem resumeUnless_restored (hq : Frame p q) (hpaused : q.paused = true)
    (havail : q.availability = p.availability) : Restored p (q.resumeUnless p.paused) := by
  cases hp : p.paused with
  | true => exact ⟨hq, hpaused.trans hp.symm, havail⟩
  | false =>
    exact ⟨⟨hq.sleeping, hq.weightsStaged, hq.states, fun h => absurd (hp ▸ h) (by decide)⟩,
      hp.symm, havail⟩

theorem restore_restored (strategy : Strategy) (hconf : p.Confirmed streams) :
    Restored p (((p.enter strategy).abortStreams streams).restore p strategy) := by
  have hframe := enter_frame p strategy streams
  have hstreams : ((p.pause).abortStreams streams).availability = p.availability :=
    abortStreams_availability (p := p.pause) hconf
  cases strategy with
  | pause => exact resumeUnless_restored hframe rfl hstreams
  | drain => exact resumeUnless_restored hframe rfl hstreams
  | skip =>
    have hstates : ((p.markWorkersUnavailable.abortStreams streams).markWorkersAvailable
        p.availableWorkers).states = p.states := by
      rw [← hframe.states]
      apply ext_getElem?
      intro i
      simp only [states, markWorkersAvailable, getElem?_map, getElem?_mapIdx, enter]
      cases (p.markWorkersUnavailable.abortStreams streams).workers[i]? with
      | none => rfl
      | some w => by_cases hi : i ∈ p.availableWorkers <;> simp [hi]
    exact ⟨⟨rfl, rfl, hstates, id⟩, rfl, markWorkersAvailable_availability hconf⟩
  | hotswap => exact ⟨hframe, rfl, abortStreams_availability hconf⟩
  | unknown => exact ⟨hframe, rfl, abortStreams_availability hconf⟩

/-! ## Each call -/

/-- A call keeps the flags and the states, and the scheduling unless it is excepted. -/
structure Keeps (p : Pool) (r : Pool × Outcome) : Prop where
  frame : Frame p r.1
  unchanged : ¬r.2.Excepted → p.Unchanged r.1

theorem Restored.keeps (h : Restored p q) (o : Outcome) : Keeps p (q, o) :=
  ⟨h.toFrame, fun _ => h.unchanged⟩

theorem Frame.keeps_raised (h : Frame p q) : Keeps p (q, .raised true) :=
  ⟨h, fun hnot => absurd (.inr (.inr rfl)) hnot⟩

theorem pause_eq_self (h : p.paused = true) : p.pause = p := by
  cases p
  cases h
  rfl

theorem resume_eq_self (h : p.paused = false) : p.resume = p := by
  cases p
  cases h
  rfl

theorem resetPrefixCache_keeps {drain drained : Bool} (cancelled : Bool)
    (hguard : p.ResetGuard drain drained) :
    Keeps p (p.resetPrefixCache drain drained cancelled) := by
  unfold resetPrefixCache
  cases drain with
  | false => exact (Restored.refl p).keeps _
  | true =>
    have hpaused : p.paused = !drained := hguard rfl
    cases drained with
    | false =>
      simp only [pause_eq_self hpaused]
      exact (Restored.refl p).keeps _
    | true =>
      have hsame : p.pause.resume = p := resume_eq_self hpaused
      simp only [hsame]
      exact (Restored.refl p).keeps _

theorem sendRouterReplay_keeps (p : Pool) (drained cancelled : Bool) :
    Keeps p (p.sendRouterReplay drained cancelled) := by
  have hframe : Frame p p.pause := ⟨rfl, rfl, rfl, fun _ => rfl⟩
  exact (resumeUnless_restored hframe rfl rfl).keeps _

theorem enter_pause_restored (hconf : p.Confirmed streams) (hpaused : p.paused = true) :
    Restored p ((p.enter .pause).abortStreams streams) :=
  ⟨enter_frame p .pause streams, hpaused.symm, abortStreams_availability (p := p.pause) hconf⟩

/-- What the `finally` of a weight sync leaves; with the strategy `pause` the scheduler was paused
before, or generation is not, or the update has started, or all went well. -/
theorem settleSync_keeps (strategy : Strategy) (generationPaused started succeeded : Bool)
    (e : SyncEvents) (hconf : p.Confirmed streams)
    (hpause : strategy = .pause → p.paused ∨ ¬generationPaused ∨ started ∨
      (succeeded ∧ p.gathered e.generationResumed)) :
    Keeps p (((p.enter strategy).abortStreams streams).settleSync p strategy generationPaused
      started succeeded e) := by
  have hframe := enter_frame p strategy streams
  have hrestored := restore_restored strategy hconf
  by_cases hs : strategy = .pause
  · subst hs
    -- A sync that leaves the scheduler paused found it so, or is excepted.
    have hleft : p.paused ∨ started →
        Keeps p ((p.enter .pause).abortStreams streams, .raised started) := by
      rintro (hp | hstarted)
      · exact (enter_pause_restored hconf hp).keeps _
      · rw [hstarted]
        exact hframe.keeps_raised
    unfold settleSync
    by_cases hresumed : generationPaused && succeeded && !p.gathered e.generationResumed
    · simp only [hresumed, if_true]
      apply hleft
      grind
    · by_cases hfull : succeeded || !generationPaused
      · simp only [hresumed, hfull, if_true]
        exact hrestored.keeps _
      · simp only [hresumed, hfull]
        have hfail : succeeded = false := by grind
        simp only [hfail]
        apply hleft
        grind
  · have hsettle : ((p.enter strategy).abortStreams streams).settleSync p strategy generationPaused
        started succeeded e = (if succeeded || !started then
          ((p.enter strategy).abortStreams streams).restore p strategy
        else
          (p.enter strategy).abortStreams streams,
          if succeeded then .returned .ok else .raised started) := by
      cases strategy <;> first | rfl | exact absurd rfl hs
    rw [hsettle]
    by_cases hrestore : succeeded || !started
    · simp only [hrestore, if_true]
      exact hrestored.keeps _
    · have hfail : succeeded = false := by grind
      have hstarted : started = true := by grind
      simp only [hfail, hstarted]
      exact hframe.keeps_raised

theorem gathered_of_isEmpty (h : p.workers.isEmpty) (ok : Bool) : p.gathered ok = true := by
  simp [gathered, h]

theorem update_started {targets : Targets} (g : Gather)
    (htargets : ∀ ids, targets = .groups ids → p.workers.isEmpty ∨ 0 ∈ ids) :
    (p.update targets g).1 = true ∨ (p.workers.isEmpty ∧ (p.update targets g).2 = true) := by
  cases targets with
  | broadcast => exact .inl rfl
  | groups ids =>
    cases hempty : p.workers.isEmpty with
    | true => exact .inr ⟨rfl, by simp [update, hempty]⟩
    | false =>
      have hfirst : 0 ∈ ids := (htargets ids rfl).resolve_left (by simp [hempty])
      exact .inl (by simp [update, hempty, hfirst])

theorem syncWeights_keeps (targets : Targets) (strategy : Strategy) (mode : PauseMode)
    (engineOnly : Bool) (e : SyncEvents) (hguard : p.SyncGuard targets strategy mode engineOnly e) :
    Keeps p (p.syncWeights targets strategy mode engineOnly e) := by
  unfold syncWeights
  by_cases hunknown : strategy = .unknown
  · simp only [hunknown, if_true]
    exact (Restored.refl p).keeps _
  simp only [hunknown, if_false]
  obtain ⟨hconf, hready⟩ := hguard.resolve_left hunknown
  apply settleSync_keeps _ _ _ _ _ hconf
  intro hpause
  have hstrategy : strategy = .pause ∧ engineOnly = false := by
    cases engineOnly <;> simp_all
  obtain ⟨hs, hengine⟩ := hstrategy
  subst hs hengine
  by_cases hpaused : (p.prepare .pause mode e).1 = true
  · have hreturned : e.streams.ok = true ∧ p.gathered e.generationPaused = true := by
      unfold prepare at hpaused
      grind
    rcases hready rfl (by decide) hreturned.1 hreturned.2 with hp | ⟨hdrained, htargets⟩
    · exact .inl hp
    · have hprepared : (p.prepare .pause mode e).2 = true := by
        unfold prepare
        grind
      have hupdate := @update_started p targets e.update (by grind)
      simp only [Bool.false_eq_true, if_false, hprepared, if_true]
      rcases hupdate with hstarted | ⟨hempty, hdone⟩
      · exact .inr (.inr (.inl hstarted))
      · refine .inr (.inr (.inr ⟨?_, gathered_of_isEmpty hempty _⟩))
        rw [hdone, gathered_of_isEmpty hempty]
        rfl
  · exact .inr (.inl hpaused)

theorem markWorkersAvailable_nil (q : Pool) : q.markWorkersAvailable [] = q := by
  have hworkers : (q.markWorkersAvailable []).workers = q.workers := by
    apply ext_getElem?
    intro i
    simp [markWorkersAvailable]
  cases q
  simp only [markWorkersAvailable, Pool.mk.injEq, true_and] at hworkers ⊢
  exact hworkers

theorem enter_skip_restored (hconf : p.Confirmed streams) (hnone : p.availableWorkers = []) :
    Restored p ((p.enter .skip).abortStreams streams) := by
  have hrestored := restore_restored .skip hconf
  have hsame : ((p.enter .skip).abortStreams streams).restore p .skip =
      (p.enter .skip).abortStreams streams := by
    rw [restore, hnone, markWorkersAvailable_nil]
  rw [hsame] at hrestored
  exact hrestored

theorem syncSpecWeights_keeps (replicaIds : List Nat) (strategy : Strategy) (streams : Cleanup)
    (drained : Bool) (sent : Gather) (hguard : p.SpecGuard replicaIds strategy streams drained) :
    Keeps p (p.syncSpecWeights replicaIds strategy streams drained sent) := by
  unfold syncSpecWeights
  by_cases hunknown : strategy = .unknown ∨ strategy = .pause
  · simp only [hunknown, if_true]
    exact (Restored.refl p).keeps _
  simp only [hunknown, if_false]
  have hconf : p.Confirmed streams := by
    cases strategy with
    | drain => exact hguard.1
    | skip => exact hguard.1
    | hotswap => exact hguard
    | pause => exact absurd (.inr rfl) hunknown
    | unknown => exact absurd (.inl rfl) hunknown
  have hframe := enter_frame p strategy streams
  have hrestored := restore_restored strategy hconf
  by_cases hready : !(streams.ok && (strategy != .drain || drained))
  · simp only [hready, if_true]
    exact hrestored.keeps _
  simp only [hready]
  cases hfind : (range p.workers.length).find? fun i => i ∉ replicaIds with
  | none =>
    by_cases hsent : p.gathered (!sent.cancelled)
    · simp only [hsent, if_true]
      exact hrestored.keeps _
    · simp only [hsent]
      exact hframe.keeps_raised
  | some i =>
    by_cases hi : i = 0
    · -- The first replica is in no group, so that no update has started.
      subst hi
      have hout : 0 ∉ replicaIds := by simpa using find?_some hfind
      have hempty : p.workers.isEmpty = false := by
        have hmem := mem_range.mp (mem_of_find?_eq_some hfind)
        rw [isEmpty_eq_false_iff, ← length_pos_iff]
        exact hmem
      cases strategy with
      | drain =>
        have hp : p.paused = true := by grind
        exact (enter_pause_restored hconf hp).keeps _
      | skip =>
        have hnone : p.availableWorkers = [] := by grind
        exact (enter_skip_restored hconf hnone).keeps _
      | hotswap => exact hrestored.keeps _
      | pause => exact absurd (.inr rfl) hunknown
      | unknown => exact absurd (.inl rfl) hunknown
    · have hstarted : (i != 0) = true := by simpa using hi
      simp only [hstarted]
      exact hframe.keeps_raised

theorem remote_getElem? (p : Pool) (f : WorkerLifecycleState → Option WorkerLifecycleState)
    (g : Gather) (i : Nat) :
    (p.remote f g).workers[i]? = p.workers[i]?.map fun w =>
      if i ∈ g.fails then w else { w with state := (f w.state).getD w.state } := by
  simp [remote]

theorem remote_availability (p : Pool) (f : WorkerLifecycleState → Option WorkerLifecycleState)
    (g : Gather) : (p.remote f g).availability = p.availability := by
  apply ext_getElem?
  intro i
  simp only [availability, getElem?_map, remote_getElem?]
  cases p.workers[i]? with
  | none => rfl
  | some w => by_cases hi : i ∈ g.fails <;> simp [hi, Worker.schedulable]

variable {f : WorkerLifecycleState → Option WorkerLifecycleState} {g : Gather}

theorem remote_states
    (h : ∀ i < p.workers.length, i ∈ g.fails ∨ ∀ w ∈ p.workers, f w.state = none) :
    (p.remote f g).states = p.states := by
  apply ext_getElem?
  intro i
  simp only [states, getElem?_map, remote_getElem?]
  cases hw : p.workers[i]? with
  | none => rfl
  | some w =>
    obtain ⟨hi, hget⟩ := List.getElem?_eq_some_iff.mp hw
    rcases h i hi with hfail | hnone
    · simp [hfail]
    · have hstate := hnone w (mem_of_getElem? hw)
      by_cases hfail : i ∈ g.fails <;> simp [hfail, hstate]

theorem exists_remote {w : Worker} (hw : w ∈ (p.remote f g).workers) :
    ∃ i v, p.workers[i]? = some v ∧
      w.state = if i ∈ g.fails then v.state else (f v.state).getD v.state := by
  obtain ⟨i, hi⟩ := mem_iff_getElem?.mp hw
  rw [remote_getElem?] at hi
  obtain ⟨v, hv, hvw⟩ := Option.map_eq_some_iff.mp hi
  refine ⟨i, v, hv, ?_⟩
  rw [← hvw]
  split <;> rfl

theorem valid_of_staged (hpaused : p.paused) (hsleeping : p.sleeping) (hstaged : p.weightsStaged) :
    p.Valid where
  paused _ := hpaused
  asleep _ h := absurd hstaged h
  awake h := absurd hsleeping h

theorem valid_of_awake (hsleeping : p.sleeping = false) (h : ∀ w ∈ p.workers, w.state = .ready) :
    p.Valid where
  paused hs := by simp [hsleeping] at hs
  asleep hs := by simp [hsleeping] at hs
  awake _ := h

/-- A call leaves a pool with true flags, and the scheduling as it was unless it is excepted. -/
structure Sound (p : Pool) (r : Pool × Outcome) : Prop where
  valid : r.1.Valid
  unchanged : ¬r.2.Excepted → p.Unchanged r.1

theorem Keeps.sound {r : Pool × Outcome} (h : Keeps p r) (hvalid : p.Valid) : Sound p r :=
  ⟨h.frame.valid hvalid, h.unchanged⟩

theorem sleep_sound (hvalid : p.Valid) (streams : Cleanup) (drained : Bool) (sent : Gather)
    (hguard : p.SleepGuard streams drained sent) : Sound p (p.sleep streams drained sent) := by
  unfold sleep
  by_cases halready : p.sleeping && !p.weightsStaged
  · simp only [halready, if_true]
    exact ((Restored.refl p).keeps _).sound hvalid
  simp only [halready]
  obtain ⟨hconf, hsent⟩ := hguard.resolve_left (by simpa using halready)
  have hframe := enter_frame p .pause streams
  have havail : ((p.pause.abortStreams streams).remote workerSleep sent).availability =
      p.availability := by
    rw [remote_availability]
    exact abortStreams_availability (p := p.pause) hconf
  by_cases hready : !(streams.ok && drained)
  · simp only [hready, if_true]
    exact ((restore_restored .pause hconf).keeps _).sound hvalid
  have hok : streams.ok = true ∧ drained = true := by simpa using hready
  specialize hsent hok.1 hok.2
  simp only [hready]
  by_cases hgather : p.gathered (!sent.cancelled)
  · -- The call returns, with every worker asleep.
    simp only [hgather, Bool.not_true]
    rw [if_pos hgather] at hsent
    refine ⟨⟨fun _ => rfl, fun _ _ => ?_, fun h => absurd rfl h⟩, fun h => absurd (.inl rfl) h⟩
    intro w hw
    obtain ⟨i, v, hv, hstate⟩ := exists_remote hw
    rw [hstate]
    split
    · next hfail =>
      have hv' : p.states[i]? = some v.state := by
        rw [← hframe.states]
        simp only [states, getElem?_map]
        exact congrArg (Option.map Worker.state) hv
      rw [states, getElem?_map] at hv'
      obtain ⟨u, hu, huv⟩ := Option.map_eq_some_iff.mp hv'
      have hi : i < p.workers.length := (List.getElem?_eq_some_iff.mp hu).1
      have hasleep := hsent i hi hfail
      rw [hu] at hasleep
      rw [← huv]
      simpa using hasleep
    · cases v.state <;> rfl
  · simp only [hgather, Bool.not_false, if_true]
    rw [if_neg hgather] at hsent
    rcases hsent with hsleeping | ⟨hpaused, hfails⟩
    · have hstaged : p.weightsStaged = true := by simpa [hsleeping] using halready
      refine ⟨valid_of_staged rfl hsleeping hstaged, fun _ => unchanged_of_eq ?_ havail⟩
      exact (hvalid.paused hsleeping).symm
    · have hstates : ((p.pause.abortStreams streams).remote workerSleep sent).states = p.states := by
        refine (remote_states ?_).trans hframe.states
        intro i hi
        exact .inl (hfails i (by simpa [abortStreams, pause] using hi))
      have hkept : Restored p ((p.pause.abortStreams streams).remote workerSleep sent) :=
        ⟨⟨rfl, rfl, hstates, fun _ => rfl⟩, hpaused.symm, havail⟩
      exact (hkept.keeps _).sound hvalid

/-- A wake-up that restores the KV cache leaves a worker ready where it does not raise, unless the
worker sleeps and gets its weights only. -/
theorem workerWakeUp_ready {tags : Tags} {x y : WorkerLifecycleState} (hfinal : wakeFinalize tags)
    (htags : isFullWake tags ∨ isKvOnlyWake tags ∨ x ≠ .sleeping) (h : workerWakeUp tags x = some y) :
    y = .ready := by
  have hweights : isWeightsOnlyWake tags = false := by
    cases tags with
    | none => rfl
    | some tags =>
      have hkv : "kv_cache" ∈ tags := by simpa [wakeFinalize] using hfinal
      simp only [isWeightsOnlyWake, Bool.and_eq_false_iff, all_eq_false]
      exact .inr ⟨"kv_cache", hkv, by decide⟩
  cases x <;> simp only [workerWakeUp] at h <;> grind

theorem not_remoteFails (h : p.remoteFails f g = false) {i : Nat} {w : Worker}
    (hw : p.workers[i]? = some w) : i ∉ g.fails ∧ ∃ y, f w.state = some y := by
  obtain ⟨hi, -⟩ := List.getElem?_eq_some_iff.mp hw
  rw [remoteFails, any_eq_false] at h
  have hnot := h i (mem_range.mpr hi)
  rw [hw] at hnot
  simp only [Option.any_some, Bool.or_eq_true, decide_eq_true_eq, not_or, Option.isNone_iff_eq_none]
    at hnot
  exact ⟨hnot.1, Option.ne_none_iff_exists'.mp hnot.2⟩

theorem wakeUp_sound (hvalid : p.Valid) (tags : Tags) (sent : Gather)
    (hguard : p.WakeGuard tags sent) : Sound p (p.wakeUp tags sent) := by
  unfold wakeUp
  cases hsleeping : p.sleeping with
  | false => exact ((Restored.refl p).keeps _).sound hvalid
  | true =>
    have hpaused := hvalid.paused hsleeping
    have havail := remote_availability p (workerWakeUp tags) sent
    specialize hguard hsleeping
    simp only [Bool.not_true, Bool.false_eq_true, if_false]
    split_ifs at hguard ⊢ with hraises hfinal
    · refine ⟨?_, fun _ => unchanged_of_eq rfl havail⟩
      cases hstaged : p.weightsStaged with
      | true => exact valid_of_staged hpaused hsleeping hstaged
      | false =>
        -- No worker has been woken.
        have hasleep := hvalid.asleep hsleeping (by simp [hstaged])
        have hstates : (p.remote (workerWakeUp tags) sent).states = p.states := by
          apply remote_states
          intro i hi
          rcases hguard with hs | hkv | hfails
          · simp [hstaged] at hs
          · refine .inr fun w hw => ?_
            rw [hasleep w hw]
            simp [workerWakeUp, hkv]
          · exact .inl (hfails i hi)
        have hframe : Frame p (p.remote (workerWakeUp tags) sent) := ⟨rfl, rfl, hstates, id⟩
        exact hframe.valid hvalid
    · refine ⟨valid_of_awake rfl ?_, fun h => absurd (.inr (.inl rfl)) h⟩
      intro w hw
      obtain ⟨i, v, hv, hstate⟩ := exists_remote hw
      have hok : p.remoteFails (workerWakeUp tags) sent = false := by grind
      obtain ⟨hfail, y, hy⟩ := not_remoteFails hok hv
      rw [hstate, if_neg hfail, hy]
      have htags := (hguard hfinal).imp_right fun h =>
        h.imp_right fun hnone => hnone v (mem_of_getElem? hv)
      exact workerWakeUp_ready hfinal htags hy
    · exact ⟨valid_of_staged hpaused hsleeping rfl, fun _ => unchanged_of_eq rfl havail⟩

/-! ## The number of workers -/

variable (fails : List Nat)

theorem addWorkers_eq (k : Nat) (p : Pool) :
    ∃ m, (addWorkers fails k p).1 = { p with workers := p.workers ++ replicate m newWorker } := by
  induction k generalizing p with
  | zero => exact ⟨0, by simp [addWorkers]⟩
  | succ k ih =>
    rw [addWorkers]
    split
    · exact ⟨0, by simp⟩
    · obtain ⟨m, hm⟩ := ih { p with workers := p.workers ++ [newWorker] }
      refine ⟨m + 1, ?_⟩
      rw [hm]
      simp [replicate_succ]

theorem removeWorkers_eq (k : Nat) (p : Pool) :
    ∃ m, (removeWorkers fails k p).1 = { p with workers := p.workers.take m } := by
  induction k generalizing p with
  | zero => exact ⟨p.workers.length, by simp [removeWorkers]⟩
  | succ k ih =>
    rw [removeWorkers]
    split
    · exact ⟨p.workers.length - 1, by rw [dropLast_eq_take]⟩
    · obtain ⟨m, hm⟩ := ih { p with workers := p.workers.dropLast }
      refine ⟨min m (p.workers.length - 1), ?_⟩
      rw [hm]
      simp [dropLast_eq_take, take_take]

theorem scaleUp_none {targetCount : Nat} {fails : List Nat}
    (h : targetCount ≤ p.workers.length ∨ p.workers.length ∈ fails) :
    (p.scaleUp targetCount fails).1 = p := by
  unfold scaleUp
  rcases h with hcount | hfails
  · rw [Nat.sub_eq_zero_of_le hcount]
    rfl
  · cases targetCount - p.workers.length with
    | zero => rfl
    | succ k => rw [addWorkers, if_pos hfails]

theorem scaleUp_sound (hvalid : p.Valid) (targetCount : Nat) (fails : List Nat)
    (hguard : p.ScaleUpGuard targetCount fails) : Sound p (p.scaleUp targetCount fails) := by
  obtain ⟨m, hm⟩ := addWorkers_eq fails (targetCount - p.workers.length) p
  rw [← scaleUp] at hm
  refine ⟨⟨?_, ?_, ?_⟩, fun _ => ⟨by rw [hm], ?_⟩⟩
  · rw [hm]
    exact hvalid.paused
  · intro hs hstaged
    rw [hm] at hs hstaged
    rw [scaleUp_none (hguard hs hstaged)]
    exact hvalid.asleep hs hstaged
  · intro hs w hw
    rw [hm] at hs hw
    rcases mem_append.mp hw with hold | hnew
    · exact hvalid.awake hs w hold
    · rw [eq_of_mem_replicate hnew]
      rfl
  · intro i w w' hw hw'
    obtain ⟨hi, -⟩ := List.getElem?_eq_some_iff.mp hw
    rw [hm, getElem?_append_left hi, hw] at hw'
    cases hw'
    rfl

theorem scaleDown_sound (hvalid : p.Valid) (targetCount : Nat) (fails : List Nat) :
    Sound p (p.scaleDown targetCount fails) := by
  obtain ⟨m, hm⟩ := removeWorkers_eq fails (p.workers.length - targetCount) p
  rw [← scaleDown] at hm
  have hmem : ∀ w ∈ (p.scaleDown targetCount fails).1.workers, w ∈ p.workers := by
    intro w hw
    rw [hm] at hw
    exact mem_of_mem_take hw
  refine ⟨⟨?_, ?_, ?_⟩, fun _ => ⟨by rw [hm], ?_⟩⟩
  · rw [hm]
    exact hvalid.paused
  · rw [hm] at hmem ⊢
    exact fun hs hstaged w hw => hvalid.asleep hs hstaged w (hmem w hw)
  · rw [hm] at hmem ⊢
    exact fun hs w hw => hvalid.awake hs w (hmem w hw)
  · intro i w w' hw hw'
    rw [hm, getElem?_take] at hw'
    split at hw'
    · rw [hw] at hw'
      cases hw'
      rfl
    · cases hw'

/-! ## Whole runs -/

theorem run_sound (hvalid : p.Valid) {c : Call} (hguard : p.CallGuarded c) : Sound p (p.run c) := by
  cases c with
  | refused => exact ((Restored.refl p).keeps _).sound hvalid
  | sleep streams drained sent => exact sleep_sound hvalid streams drained sent hguard
  | wakeUp tags sent => exact wakeUp_sound hvalid tags sent hguard
  | resetPrefixCache drain drained cancelled =>
    exact (resetPrefixCache_keeps cancelled hguard).sound hvalid
  | sendRouterReplay drained cancelled =>
    exact (sendRouterReplay_keeps p drained cancelled).sound hvalid
  | syncWeights targets strategy mode engineOnly e =>
    exact (syncWeights_keeps targets strategy mode engineOnly e hguard).sound hvalid
  | syncSpecWeights ids strategy streams drained sent =>
    exact (syncSpecWeights_keeps ids strategy streams drained sent hguard).sound hvalid
  | scaleUp targetCount fails => exact scaleUp_sound hvalid targetCount fails hguard
  | scaleDown targetCount fails => exact scaleDown_sound hvalid targetCount fails

theorem plain_ok : Outcome.Plain (.returned .ok) := ⟨by decide, by decide⟩

theorem plain_raised (started : Bool) : Outcome.Plain (.raised started) := ⟨nofun, nofun⟩

theorem settleSync_plain (q p : Pool) (strategy : Strategy)
    (generationPaused started succeeded : Bool) (e : SyncEvents) :
    Outcome.Plain (q.settleSync p strategy generationPaused started succeeded e).2 := by
  unfold settleSync
  cases strategy <;> dsimp only <;> split_ifs <;> first | exact plain_ok | exact plain_raised _

theorem addWorkers_plain (k : Nat) (p : Pool) : Outcome.Plain (addWorkers fails k p).2 := by
  induction k generalizing p with
  | zero => exact plain_ok
  | succ k ih =>
    rw [addWorkers]
    split
    · exact plain_raised _
    · exact ih _

theorem removeWorkers_plain (k : Nat) (p : Pool) : Outcome.Plain (removeWorkers fails k p).2 := by
  induction k generalizing p with
  | zero => exact plain_ok
  | succ k ih =>
    rw [removeWorkers]
    split
    · exact plain_raised _
    · exact ih _

theorem syncSpecWeights_plain (p : Pool) (replicaIds : List Nat) (strategy : Strategy)
    (streams : Cleanup) (drained : Bool) (sent : Gather) :
    Outcome.Plain (p.syncSpecWeights replicaIds strategy streams drained sent).2 := by
  unfold syncSpecWeights
  dsimp only
  split
  · exact plain_raised _
  · split
    · exact plain_raised _
    · cases (range p.workers.length).find? fun i => i ∉ replicaIds with
      | some i => exact plain_raised _
      | none =>
        by_cases hsent : p.gathered (!sent.cancelled) = true
        · simp only [hsent, if_true]
          exact plain_ok
        · simp only [hsent]
          exact plain_raised _

/-- The calls that answer that there is nothing to do are those of a pool whose flags say so. -/
theorem run_already (p : Pool) (c : Call) :
    ((p.run c).2 = .returned .alreadySleeping → p.sleeping ∧ ¬p.weightsStaged) ∧
      ((p.run c).2 = .returned .alreadyReady → ¬p.sleeping) := by
  have hplain : Outcome.Plain (p.run c).2 →
      ((p.run c).2 = .returned .alreadySleeping → p.sleeping ∧ ¬p.weightsStaged) ∧
        ((p.run c).2 = .returned .alreadyReady → ¬p.sleeping) := by
    intro h
    exact ⟨fun ho => absurd ho h.1, fun ho => absurd ho h.2⟩
  cases c with
  | refused => exact hplain (plain_raised _)
  | sleep streams drained sent =>
    simp only [run, sleep]
    split_ifs with halready <;> simp_all
  | wakeUp tags sent =>
    simp only [run, wakeUp]
    split_ifs with hready <;> simp_all
  | resetPrefixCache drain drained cancelled =>
    apply hplain
    simp only [run, resetPrefixCache]
    split_ifs <;> first | exact plain_ok | exact plain_raised _
  | sendRouterReplay drained cancelled =>
    apply hplain
    simp only [run, sendRouterReplay]
    split_ifs
    · exact plain_ok
    · exact plain_raised _
  | syncWeights targets strategy mode engineOnly e =>
    apply hplain
    simp only [run, syncWeights]
    split
    · exact plain_raised _
    · exact settleSync_plain _ _ _ _ _ _ _
  | syncSpecWeights ids strategy streams drained sent =>
    exact hplain (syncSpecWeights_plain p ids strategy streams drained sent)
  | scaleUp targetCount fails => exact hplain (addWorkers_plain _ _ p)
  | scaleDown targetCount fails => exact hplain (removeWorkers_plain _ _ p)

end Pool

theorem valid_step {p p' : Pool} {a : Act} (hvalid : p.Valid) (hguard : Guarded p a)
    (hstep : step p a = some p') : p'.Valid := by
  cases a with
  | call c =>
    cases hstep
    exact (Pool.run_sound hvalid hguard).valid
  | unconfirmed i =>
    cases hstep
    have hframe : Pool.Frame p (p.abortStreams ⟨[i], true⟩) :=
      ⟨rfl, rfl, Pool.abortStreams_states p _, id⟩
    exact hframe.valid hvalid

theorem valid_reaches {n : Nat} {p : Pool} (hp : Reaches step Guarded (new n) p) : p.Valid :=
  hp.invariant (Pool.valid_new n) fun _ _ _ hvalid hguard hstep => valid_step hvalid hguard hstep

end ArcticPlatform.ReplicaPool
