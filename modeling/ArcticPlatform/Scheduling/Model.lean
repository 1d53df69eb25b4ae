import ArcticPlatform.Library.Runs
import ArcticPlatform.Scheduling.Affinity

/-!
# The scheduler of generation requests

An embedding of `Scheduler` in `inference/server/scheduler.py` and of what
`ClientStream` in `inference/server/streaming.py` does to it.  A run is a sequence of the
segments that tasks execute between two awaits, in any order: the turns of the admission
loops of requests and of streams, the ends of requests and streams, and the calls on workers.

The objects `WorkerState` keep their identity: a removed worker is still referred to by the
requests that run on it.
-/

namespace ArcticPlatform.Scheduling

open Dicts

/-- `MAX_WORKER_STREAMS`. -/
def maxWorkerStreams : Int := 128

/-- What routing reads of a request. -/
structure Request (κ : Type) where
  routingKey : Option κ
  prefixHash : Option Int
  strict : Bool

/-- Where `_process_request` is. -/
inductive Phase where
  /-- In the admission loop; `ws` is the worker that refused it last, if one has. -/
  | waiting (ws : Option Nat)
  /-- Admitted to a worker, at this index. -/
  | running (ws : Nat) (workerIdx : Nat)
  | finished

/-- `ClientStream`: its worker, and whether it has an error or is closed. -/
structure ClientStream (κ : Type) where
  request : Request κ
  worker : Option Nat
  error : Bool
  closed : Bool

/-- The state of the scheduler. -/
structure Scheduler (κ τ : Type) where
  /-- Every `WorkerState` there has been; a position is its identity. -/
  objects : List WorkerState
  /-- `_workers` -/
  workers : List Nat
  /-- The keys of `_inflight_tasks`. -/
  inflight : List Nat
  paused : Bool
  stopped : Bool
  affinity : Affinity κ τ
  requests : List (Request κ × Phase)
  streams : List (ClientStream κ)

/-- How requests are routed: `_group_affinity_enabled` with its constants, and the functions for
the other requests; an error of a function is no worker. -/
structure RoutingConfig (κ τ : Type) where
  affinityEnabled : Bool
  affinity : AffinityConfig τ
  /-- `strict_affinity_routing` or `self._routing_fn`, by the request. -/
  routingFn : Request κ → List WorkerState → Option Nat

/-- What happens next. -/
inductive Act (κ τ : Type) where
  | submit (request : Request κ)
  /-- A turn of the admission loop of a request. -/
  | turn (id : Nat) (now : τ)
  /-- `generate` returns, fails or is cancelled. -/
  | done (id : Nat)
  | openStream (request : Request κ)
  /-- A turn of the admission loop of a stream. -/
  | streamTurn (id : Nat) (now : τ)
  | abortStream (id : Nat)
  /-- `finish`, after an abort or at the last event. -/
  | closeStream (id : Nat) (cleanupUnconfirmed : Bool)
  | addWorker (limit : Int)
  | removeLastWorker
  | markWorkerUnavailable (idx : Nat)
  | markWorkerAvailable (idx : Nat)
  | updateWorkerHandle (idx : Nat)
  /-- `_concurrency_adjust_loop`, with the limits that `_concurrency_fn` gives. -/
  | adjustLimits (limits : List Int)
  | pause
  | resume
  | shutdown

section Model

variable {κ τ : Type} [DecidableEq κ] [LinearOrder τ] [Sub τ]

namespace Scheduler

/-- `Scheduler(workers, initial_concurrency)`. -/
def init (numWorkers : Nat) (initialConcurrency : Int) (now : τ) : Scheduler κ τ where
  objects := List.replicate numWorkers (WorkerState.new initialConcurrency)
  workers := List.range numWorkers
  inflight := List.range numWorkers
  paused := false
  stopped := false
  affinity := ⟨Dict.empty, now, 0⟩
  requests := []
  streams := []

/-- A worker object. -/
def object (s : Scheduler κ τ) (ws : Nat) : WorkerState := s.objects.getD ws (WorkerState.new 0)

/-- The workers, as routing sees them. -/
def states (s : Scheduler κ τ) : List WorkerState := s.workers.map s.object

/-- Change a worker object. -/
def modify (s : Scheduler κ τ) (ws : Nat) (f : WorkerState → WorkerState) : Scheduler κ τ :=
  { s with objects := s.objects.modify ws f }

end Scheduler

/-- Admission: `active_requests += 1`. -/
def WorkerState.acquire (ws : WorkerState) : WorkerState :=
  { ws with activeRequests := ws.activeRequests + 1 }

/-- The `finally` of a request: `active_requests = max(0, active_requests - 1)`. -/
def WorkerState.release (ws : WorkerState) : WorkerState :=
  { ws with activeRequests := max 0 (ws.activeRequests - 1) }

/-- Admission of a stream. -/
def WorkerState.admitStream (ws : WorkerState) : WorkerState :=
  { ws with
    activeRequests := ws.activeRequests + 1
    streamingRequests := ws.streamingRequests + 1 }

/-- `finish` of a stream. -/
def WorkerState.releaseStream (ws : WorkerState) : WorkerState :=
  { ws with
    activeRequests := max 0 (ws.activeRequests - 1)
    streamingRequests := max 0 (ws.streamingRequests - 1) }

/-- A request may be admitted. -/
def WorkerState.admits (ws : WorkerState) : Bool :=
  ws.schedulable && ws.activeRequests < ws.concurrencyLimit

/-- The end of a request that has not been admitted: the `finally` decrements the counter of the
worker that refused it last. -/
def leaveRequest (s : Scheduler κ τ) (id : Nat) (request : Request κ) (refused : Option Nat) :
    Scheduler κ τ :=
  let s := { s with requests := s.requests.set id (request, .finished) }
  match refused with
  | none => s
  | some ws => s.modify ws WorkerState.release

section Routing

variable (ρ : Type) [LoadRatio ρ] (config : RoutingConfig κ τ)

/-- The routing at the start of a turn: what is remembered then, and the index of a worker, if no
error is raised. -/
def route (s : Scheduler κ τ) (request : Request κ) (now : τ) : Affinity κ τ × Option Nat :=
  match config.affinityEnabled, request.routingKey with
  | true, some key => groupAffinityRouting ρ config.affinity s.states s.affinity key now
  | _, _ => (s.affinity, config.routingFn request s.states)

/-- `_select_stream_worker`. -/
def selectStreamWorker (s : Scheduler κ τ) (request : Request κ) (now : τ) :
    Affinity κ τ × Option Nat :=
  match config.affinityEnabled, request.routingKey with
  | true, some key => groupAffinityRouting ρ config.affinity s.states s.affinity key now
  | _, _ =>
    let fallback (idx : Nat) (ws : WorkerState) : Nat :=
      if request.strict then idx
      else if maxWorkerStreams ≤ ws.streamingRequests then
        let candidates := (List.range s.workers.length).filter fun i =>
          let ws := s.states.getD i (WorkerState.new 0)
          ws.admits && ws.streamingRequests < maxWorkerStreams
        let active i := (s.states.getD i (WorkerState.new 0)).activeRequests
        (firstMin (fun i j => active i < active j) candidates).getD idx
      else idx
    match config.routingFn request s.states with
    | none => (s.affinity, none)
    | some idx => (s.affinity, s.states[idx]?.map (fallback idx))

/-- A turn of the admission loop of `_process_request`; it ends at a stop and by an error. -/
def takeTurn (s : Scheduler κ τ) (id : Nat) (request : Request κ) (refused : Option Nat)
    (now : τ) : Option (Scheduler κ τ) :=
  if s.stopped then some (leaveRequest s id request refused)
  else if s.paused then none
  else
    let routed := route ρ config s request now
    let s := { s with affinity := routed.1 }
    match routed.2.bind fun idx => s.workers[idx]?.map fun ws => (idx, ws) with
    | none => some (leaveRequest s id request refused)
    | some (idx, ws) =>
      if (s.object ws).admits then
        if idx ∈ s.inflight then
          some ({ s with requests := s.requests.set id (request, .running ws idx) }.modify ws
            WorkerState.acquire)
        else
          -- `KeyError`, and again in the `finally`
          some ({ s with requests := s.requests.set id (request, .finished) }.modify ws
            WorkerState.acquire)
      else some { s with requests := s.requests.set id (request, .waiting (some ws)) }

/-- A turn of the admission loop of `_fetch_batch`. -/
def takeStreamTurn (s : Scheduler κ τ) (id : Nat) (stream : ClientStream κ) (now : τ) :
    Scheduler κ τ :=
  -- An error that the loop raises aborts the stream.
  let fail (s : Scheduler κ τ) : Scheduler κ τ :=
    { s with streams := s.streams.set id { stream with error := true } }
  if stream.error then s
  else if s.stopped then fail s
  else if s.paused ∨ s.workers = [] then s
  else
    let routed := selectStreamWorker ρ config s stream.request now
    let s := { s with affinity := routed.1 }
    match routed.2.bind fun idx => s.workers[idx]? with
    | none => fail s
    | some ws =>
      if (s.object ws).admits ∧ (s.object ws).streamingRequests < maxWorkerStreams then
        { s with streams := s.streams.set id { stream with worker := some ws } }.modify ws
          WorkerState.admitStream
      else s

end Routing

/-- The end of a request that has been admitted. -/
def finishRequest (s : Scheduler κ τ) (id : Nat) (request : Request κ) (ws workerIdx : Nat) :
    Scheduler κ τ :=
  let s := { s with requests := s.requests.set id (request, .finished) }
  -- The entry is gone with its worker: `KeyError` before the counter is decremented.
  if workerIdx ∈ s.inflight then s.modify ws WorkerState.release else s

/-- `finish`, with the quarantine of `_abort` before it. -/
def finishStream (s : Scheduler κ τ) (id : Nat) (stream : ClientStream κ)
    (cleanupUnconfirmed : Bool) : Scheduler κ τ :=
  let s := { s with streams := s.streams.set id { stream with closed := true } }
  match stream.worker with
  | none => s
  | some ws =>
    if cleanupUnconfirmed then (s.modify ws WorkerState.quarantine).modify ws WorkerState.releaseStream
    else s.modify ws WorkerState.releaseStream

/-- `add_worker`. -/
def addWorker (s : Scheduler κ τ) (limit : Int) : Scheduler κ τ :=
  { s with
    objects := s.objects ++ [WorkerState.new limit]
    workers := s.workers ++ [s.objects.length]
    inflight := s.inflight ++ [s.workers.length] }

/-- `remove_last_worker`, when there is a worker. -/
def removeLastWorker (s : Scheduler κ τ) : Scheduler κ τ :=
  { s with
    inflight := s.inflight.erase (s.workers.length - 1)
    workers := s.workers.dropLast
    affinity := forgetWorkers s.affinity (s.workers.length - 1) }

/-- The flag of a worker is changed, if there is such a worker. -/
def modifyAt (s : Scheduler κ τ) (idx : Nat) (f : WorkerState → WorkerState) :
    Option (Scheduler κ τ) := s.workers[idx]?.map fun ws => s.modify ws f

/-- `_concurrency_adjust_loop`. -/
def adjustLimits (s : Scheduler κ τ) (limits : List Int) : Scheduler κ τ :=
  (s.workers.zip limits).foldl
    (fun s p => s.modify p.1 fun ws => { ws with concurrencyLimit := max 1 p.2 }) s

variable (ρ : Type) [LoadRatio ρ] (config : RoutingConfig κ τ)

/-- The scheduler after an action that can happen. -/
def step (s : Scheduler κ τ) : Act κ τ → Option (Scheduler κ τ)
  | .submit request =>
    if s.stopped then none else some { s with requests := s.requests ++ [(request, .waiting none)] }
  | .turn id now =>
    match s.requests[id]? with
    | some (request, .waiting refused) => takeTurn ρ config s id request refused now
    | _ => none
  | .done id =>
    match s.requests[id]? with
    | some (request, .running ws workerIdx) => some (finishRequest s id request ws workerIdx)
    | _ => none
  | .openStream request =>
    if s.stopped then none
    else some { s with streams := s.streams ++ [⟨request, none, false, false⟩] }
  | .streamTurn id now =>
    match s.streams[id]? with
    | some stream =>
      if stream.worker = none then some (takeStreamTurn ρ config s id stream now) else none
    | none => none
  | .abortStream id =>
    match s.streams[id]? with
    | some stream =>
      if stream.closed then none
      else some { s with streams := s.streams.set id { stream with error := true } }
    | none => none
  | .closeStream id cleanupUnconfirmed =>
    match s.streams[id]? with
    | some stream =>
      -- Without a worker only an abort closes a stream.
      if stream.closed ∨ (stream.worker = none ∧ ¬stream.error) then none
      else some (finishStream s id stream cleanupUnconfirmed)
    | none => none
  | .addWorker limit => some (addWorker s limit)
  | .removeLastWorker => if s.workers = [] then none else some (removeLastWorker s)
  | .markWorkerUnavailable idx => modifyAt s idx fun ws => { ws with available := false }
  | .markWorkerAvailable idx => modifyAt s idx fun ws => { ws with available := !ws.quarantined }
  | .updateWorkerHandle idx => modifyAt s idx fun ws => { ws with quarantined := false }
  | .adjustLimits limits => some (adjustLimits s limits)
  | .pause => some { s with paused := true }
  | .resume => some { s with paused := false }
  | .shutdown => some { s with stopped := true }

/-! ## What a turn can do -/

/-- All that a turn of a request can do. -/
inductive Turn (s : Scheduler κ τ) (id : Nat) (request : Request κ) (refused : Option Nat)
    (now : τ) : Scheduler κ τ → Prop where
  | stopped (hstopped : s.stopped = true) : Turn s id request refused now
      (leaveRequest s id request refused)
  | noWorker (hgoes : s.stopped = false ∧ s.paused = false)
      (hnone : ∀ idx, (route ρ config s request now).2 = some idx → s.workers[idx]? = none) :
      Turn s id request refused now
        (leaveRequest { s with affinity := (route ρ config s request now).1 } id request refused)
  | admitted (hgoes : s.stopped = false ∧ s.paused = false) (idx ws : Nat)
      (hws : s.workers[idx]? = some ws) (hadmits : (s.object ws).admits = true)
      (hinflight : idx ∈ s.inflight) :
      Turn s id request refused now ({ s with
        affinity := (route ρ config s request now).1
        requests := s.requests.set id (request, .running ws idx) }.modify ws WorkerState.acquire)
  | untracked (hgoes : s.stopped = false ∧ s.paused = false) (idx ws : Nat)
      (hws : s.workers[idx]? = some ws) (hadmits : (s.object ws).admits = true)
      (hinflight : idx ∉ s.inflight) :
      Turn s id request refused now ({ s with
        affinity := (route ρ config s request now).1
        requests := s.requests.set id (request, .finished) }.modify ws WorkerState.acquire)
  | refused (hgoes : s.stopped = false ∧ s.paused = false) (ws : Nat) :
      Turn s id request refused now { s with
        affinity := (route ρ config s request now).1
        requests := s.requests.set id (request, .waiting (some ws)) }

theorem takeTurn_turn {s s' : Scheduler κ τ} {id : Nat} {request : Request κ}
    {refused : Option Nat} {now : τ} (h : takeTurn ρ config s id request refused now = some s') :
    Turn ρ config s id request refused now s' := by
  unfold takeTurn at h
  dsimp only at h
  split_ifs at h with hstopped hpaused
  · cases h
    exact .stopped hstopped
  · have hgoes : s.stopped = false ∧ s.paused = false := by simp [hstopped, hpaused]
    split at h
    · rename_i hnone
      cases h
      apply Turn.noWorker hgoes
      intro idx hidx
      rw [hidx] at hnone
      simpa using hnone
    · rename_i idx ws hfound
      obtain ⟨idx', -, hws⟩ := Option.bind_eq_some_iff.mp hfound
      obtain ⟨ws', hws', heq⟩ := Option.map_eq_some_iff.mp hws
      cases heq
      split_ifs at h with hadmits hinflight
      · cases h
        exact .admitted hgoes idx ws hws' hadmits hinflight
      · cases h
        exact .untracked hgoes idx ws hws' hadmits hinflight
      · cases h
        exact .refused hgoes ws

/-- All that a turn of a stream can do. -/
inductive StreamTurn (s : Scheduler κ τ) (id : Nat) (stream : ClientStream κ) (now : τ) :
    Scheduler κ τ → Prop where
  | idle (hidle : stream.error = true ∨ s.paused = true ∨ s.workers = []) :
      StreamTurn s id stream now s
  | stopped (hstopped : s.stopped = true) : StreamTurn s id stream now
      { s with streams := s.streams.set id { stream with error := true } }
  | failed (hgoes : stream.error = false ∧ s.stopped = false ∧ s.paused = false ∧ s.workers ≠ []) :
      StreamTurn s id stream now { s with
        affinity := (selectStreamWorker ρ config s stream.request now).1
        streams := s.streams.set id { stream with error := true } }
  | admitted (hgoes : stream.error = false ∧ s.stopped = false ∧ s.paused = false ∧ s.workers ≠ [])
      (ws : Nat) (hws : ws ∈ s.workers) (hadmits : (s.object ws).admits = true) :
      StreamTurn s id stream now ({ s with
        affinity := (selectStreamWorker ρ config s stream.request now).1
        streams := s.streams.set id { stream with worker := some ws } }.modify ws
          WorkerState.admitStream)
  | refused (hgoes : stream.error = false ∧ s.stopped = false ∧ s.paused = false ∧ s.workers ≠ []) :
      StreamTurn s id stream now { s with
        affinity := (selectStreamWorker ρ config s stream.request now).1 }

theorem takeStreamTurn_turn (s : Scheduler κ τ) (id : Nat) (stream : ClientStream κ) (now : τ) :
    StreamTurn ρ config s id stream now (takeStreamTurn ρ config s id stream now) := by
  unfold takeStreamTurn
  dsimp only
  split_ifs with herror hstopped hpaused
  · exact .idle (.inl herror)
  · exact .stopped hstopped
  · exact .idle (.inr hpaused)
  · have hgoes : stream.error = false ∧ s.stopped = false ∧ s.paused = false ∧ s.workers ≠ [] := by
      simp only [not_or, Bool.not_eq_true] at herror hstopped hpaused
      exact ⟨herror, hstopped, hpaused⟩
    split
    · exact .failed hgoes
    · rename_i ws hfound
      obtain ⟨idx, -, hws⟩ := Option.bind_eq_some_iff.mp hfound
      split_ifs with hadmits
      · exact .admitted hgoes ws (List.mem_of_getElem? hws) hadmits.1
      · exact .refused hgoes

end Model

end ArcticPlatform.Scheduling
