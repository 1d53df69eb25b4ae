import ArcticPlatform.Scheduling.Model

/-!
# The counters of the workers

When the counters that admission reads are the numbers of the requests and the streams of a
worker.  A request that leaves the admission loop unadmitted decrements the counter of the
worker that refused it last.

Main results:

- Theorem `counters_paired`: the counters are right in every run in which no request that a
  worker has refused leaves while the worker is busy.
-/

namespace ArcticPlatform.Scheduling

open Dicts Runs List

variable {κ τ : Type}

/-- The request has been admitted to a worker and is not finished. -/
def Phase.runsOn (phase : Phase) (ws : Nat) : Bool :=
  match phase with
  | .running ws' _ => ws' = ws
  | _ => false

/-- The stream is open on a worker. -/
def ClientStream.openOn (stream : ClientStream κ) (ws : Nat) : Bool :=
  !stream.closed && stream.worker = some ws

/-- The number of requests on a worker. -/
def runningOn (s : Scheduler κ τ) (ws : Nat) : Nat := s.requests.countP (·.2.runsOn ws)

/-- The number of streams open on a worker. -/
def openOn (s : Scheduler κ τ) (ws : Nat) : Nat := s.streams.countP (·.openOn ws)

/-- The counters of the workers are right, and the references to workers are good. -/
structure Balanced (s : Scheduler κ τ) : Prop where
  nodup : s.workers.Nodup
  lt_objects : ∀ ws ∈ s.workers, ws < s.objects.length
  inflight_eq : s.inflight = List.range s.workers.length
  running : ∀ r ∈ s.requests, ∀ ws idx, r.2 = .running ws idx →
    ws < s.objects.length ∧ (ws ∈ s.workers → s.workers[idx]? = some ws)
  opened : ∀ stream ∈ s.streams, ∀ ws, stream.worker = some ws → ws < s.objects.length
  closed : ∀ stream ∈ s.streams, stream.closed = true → stream.worker = none → stream.error = true
  active : ∀ ws ∈ s.workers, (s.object ws).activeRequests = runningOn s ws + openOn s ws
  streaming : ∀ ws ∈ s.workers, (s.object ws).streamingRequests = openOn s ws

/-! ## Worker objects -/

section Objects

variable {s s' : Scheduler κ τ} {ws : Nat} {f : WorkerState → WorkerState}

section

variable (hobjects : s'.objects = s.objects.modify ws f)
include hobjects

theorem object_self (h : ws < s.objects.length) : s'.object ws = f (s.object ws) := by
  simp [Scheduler.object, hobjects, h]

theorem object_ne {ws' : Nat} (h : ws' ≠ ws) : s'.object ws' = s.object ws' := by
  simp [Scheduler.object, hobjects, Ne.symm h]

theorem object_keeps {β : Type} {g : WorkerState → β} (hf : ∀ w, g (f w) = g w) (ws' : Nat) :
    g (s'.object ws') = g (s.object ws') := by
  by_cases heq : ws' = ws
  · subst heq
    by_cases hlt : ws' < s.objects.length
    · rw [object_self hobjects hlt, hf]
    · simp [Scheduler.object, hobjects, hlt]
  · rw [object_ne hobjects heq]

end

end Objects

/-! ## Changes of one request or one stream -/

theorem countP_set_add {α : Type} {l : List α} {i : Nat} {a : α} (h : l[i]? = some a) (b : α)
    (p : α → Bool) :
    (l.set i b).countP p + (if p a then 1 else 0) = l.countP p + (if p b then 1 else 0) := by
  obtain ⟨hlt, rfl⟩ := List.getElem?_eq_some_iff.mp h
  rw [countP_set hlt]
  have hpos : (if p l[i] then 1 else 0) ≤ l.countP p := by
    split_ifs with hp
    · exact countP_pos_iff.mpr ⟨_, getElem_mem hlt, hp⟩
    · exact zero_le
  omega

section Changes

variable {s s' : Scheduler κ τ}

theorem Balanced.setRequest (h : Balanced s) (ws : Nat) {id : Nat} {request : Request κ} {phase phase' : Phase}
    (hget : s.requests[id]? = some (request, phase)) (hworkers : s'.workers = s.workers)
    (hinflight : s'.inflight = s.inflight) (hstreams : s'.streams = s.streams)
    (hrequests : s'.requests = s.requests.set id (request, phase'))
    {f : WorkerState → WorkerState} (hobjects : s'.objects = s.objects.modify ws f)
    (hindex : ∀ ws idx, phase' = .running ws idx → s.workers[idx]? = some ws)
    (hother : ∀ ws', ws' ≠ ws → phase'.runsOn ws' = phase.runsOn ws') (hactive : ws ∈ s.workers →
      (f (s.object ws)).activeRequests + (if phase.runsOn ws then 1 else 0) =
        (s.object ws).activeRequests + (if phase'.runsOn ws then 1 else 0))
    (hstreaming : ∀ w, (f w).streamingRequests = w.streamingRequests) : Balanced s' := by
  have hlength : s'.objects.length = s.objects.length := by rw [hobjects, length_modify]
  refine ⟨hworkers ▸ h.nodup, ?_, ?_, ?_, ?_, hstreams ▸ h.closed, ?_, ?_⟩
  · rw [hworkers, hlength]
    exact h.lt_objects
  · rw [hworkers, hinflight]
    exact h.inflight_eq
  · rw [hworkers, hlength, hrequests]
    intro r hr ws idx hphase
    rcases mem_or_eq_of_mem_set hr with hold | rfl
    · exact h.running r hold ws idx hphase
    · have hws := hindex ws idx hphase
      exact ⟨h.lt_objects ws (mem_of_getElem? hws), fun _ => hws⟩
  · rw [hlength, hstreams]
    exact h.opened
  · rw [hworkers]
    intro ws' hws'
    have hcount := countP_set_add hget (request, phase') (·.2.runsOn ws')
    have hold := h.active ws' hws'
    simp only [runningOn, openOn, hrequests, hstreams] at hold ⊢
    by_cases heq : ws' = ws
    · subst heq
      have hnew := hactive hws'
      rw [object_self hobjects (h.lt_objects ws' hws')]
      split_ifs at hcount hnew <;> omega
    · rw [object_ne hobjects heq]
      simp only [hother ws' heq] at hcount
      omega
  · rw [hworkers]
    intro ws' hws'
    rw [object_keeps hobjects hstreaming, h.streaming ws' hws', openOn, openOn, hstreams]

/-- A stream moves on, and the object of its worker changes. -/
theorem Balanced.setStream (h : Balanced s) (ws : Nat) {id : Nat} {stream stream' : ClientStream κ}
    (hget : s.streams[id]? = some stream) (hworkers : s'.workers = s.workers)
    (hinflight : s'.inflight = s.inflight) (hrequests : s'.requests = s.requests)
    (hstreams : s'.streams = s.streams.set id stream')
    {f : WorkerState → WorkerState} (hobjects : s'.objects = s.objects.modify ws f)
    (hindex : ∀ ws, stream'.worker = some ws → ws < s.objects.length)
    (hclosed : stream'.closed = true → stream'.worker = none → stream'.error = true)
    (hother : ∀ ws', ws' ≠ ws → stream'.openOn ws' = stream.openOn ws') (hactive : ws ∈ s.workers →
      (f (s.object ws)).activeRequests + (if stream.openOn ws then 1 else 0) =
        (s.object ws).activeRequests + (if stream'.openOn ws then 1 else 0))
    (hstreaming : ws ∈ s.workers →
      (f (s.object ws)).streamingRequests + (if stream.openOn ws then 1 else 0) =
        (s.object ws).streamingRequests + (if stream'.openOn ws then 1 else 0)) : Balanced s' := by
  have hlength : s'.objects.length = s.objects.length := by rw [hobjects, length_modify]
  have hcount : ∀ ws, openOn s' ws + (if stream.openOn ws then 1 else 0) =
      openOn s ws + (if stream'.openOn ws then 1 else 0) := by
    intro ws
    rw [openOn, openOn, hstreams]
    exact countP_set_add hget stream' (·.openOn ws)
  refine ⟨hworkers ▸ h.nodup, ?_, ?_, ?_, ?_, ?_, ?_, ?_⟩
  · rw [hworkers, hlength]
    exact h.lt_objects
  · rw [hworkers, hinflight]
    exact h.inflight_eq
  · rw [hworkers, hlength, hrequests]
    exact h.running
  · rw [hlength, hstreams]
    intro other hold ws hws
    rcases mem_or_eq_of_mem_set hold with hold | rfl
    · exact h.opened other hold ws hws
    · exact hindex ws hws
  · rw [hstreams]
    intro other hmem
    rcases mem_or_eq_of_mem_set hmem with hold | rfl
    · exact h.closed other hold
    · exact hclosed
  · rw [hworkers]
    intro ws' hws'
    have hopen := hcount ws'
    have hold := h.active ws' hws'
    rw [runningOn] at hold ⊢
    rw [hrequests]
    by_cases heq : ws' = ws
    · subst heq
      have hnew := hactive hws'
      rw [object_self hobjects (h.lt_objects ws' hws')]
      split_ifs at hopen hnew <;> omega
    · rw [hother ws' heq] at hopen
      rw [object_ne hobjects heq]
      omega
  · rw [hworkers]
    intro ws' hws'
    have hopen := hcount ws'
    have hold := h.streaming ws' hws'
    by_cases heq : ws' = ws
    · subst heq
      have hnew := hstreaming hws'
      rw [object_self hobjects (h.lt_objects ws' hws')]
      split_ifs at hopen hnew <;> omega
    · rw [hother ws' heq] at hopen
      rw [object_ne hobjects heq]
      omega

theorem Balanced.frame (h : Balanced s) (hworkers : s'.workers = s.workers)
    (hinflight : s'.inflight = s.inflight) (hrequests : s'.requests = s.requests)
    (hstreams : s'.streams = s.streams) (hlength : s'.objects.length = s.objects.length)
    (hactive : ∀ ws, (s'.object ws).activeRequests = (s.object ws).activeRequests)
    (hstreaming : ∀ ws, (s'.object ws).streamingRequests = (s.object ws).streamingRequests) :
    Balanced s' := by
  refine ⟨hworkers ▸ h.nodup, ?_, ?_, ?_, ?_, hstreams ▸ h.closed, ?_, ?_⟩
  · rw [hworkers, hlength]
    exact h.lt_objects
  · rw [hworkers, hinflight]
    exact h.inflight_eq
  · rw [hworkers, hlength, hrequests]
    exact h.running
  · rw [hlength, hstreams]
    exact h.opened
  · intro ws hws
    rw [hactive, runningOn, openOn, hrequests, hstreams]
    exact h.active ws (hworkers ▸ hws)
  · intro ws hws
    rw [hstreaming, openOn, hstreams]
    exact h.streaming ws (hworkers ▸ hws)

end Changes

/-! ## Steps -/

section Steps

variable {s : Scheduler κ τ}

variable {ws idx : Nat}

theorem runsOn_running (ws' : Nat) :
    (Phase.running ws idx).runsOn ws' = decide (ws = ws') := rfl

variable {id : Nat} {request : Request κ}

/-- A request leaves unadmitted, and no worker of the scheduler is busy that has refused it. -/
theorem Balanced.leave (h : Balanced s) {refused : Option Nat}
    (hget : s.requests[id]? = some (request, .waiting refused))
    (hidle : ∀ ws, refused = some ws → ws ∈ s.workers → (s.object ws).activeRequests ≤ 0) :
    Balanced (leaveRequest s id request refused) := by
  cases refused with
  | none =>
    exact h.setRequest 0 hget rfl rfl rfl rfl (modify_id _ _).symm
      (fun _ _ hphase => nomatch hphase) (fun _ _ => rfl) (fun _ => rfl) fun _ => rfl
  | some ws =>
    refine h.setRequest _ hget rfl rfl rfl rfl rfl (fun _ _ hphase => nomatch hphase)
      (fun _ _ => rfl) ?_ fun _ => rfl
    intro hws
    -- The counter is zero and stays so.
    have hactive := h.active ws hws
    have hle := hidle ws rfl hws
    have hzero : (s.object ws).activeRequests = 0 := by omega
    simp [WorkerState.release, Phase.runsOn, hzero]

theorem Balanced.acquire (h : Balanced s) {refused : Option Nat}
    (hget : s.requests[id]? = some (request, .waiting refused)) (hws : s.workers[idx]? = some ws)
    (affinity : Affinity κ τ) :
    Balanced ({ s with
      affinity := affinity
      requests := s.requests.set id (request, .running ws idx) }.modify ws WorkerState.acquire) := by
  refine h.setRequest _ hget rfl rfl rfl rfl rfl ?_ ?_ ?_ fun _ => rfl
  · intro ws' idx' hphase
    cases hphase
    exact hws
  · intro ws' hne
    rw [runsOn_running, decide_eq_false (Ne.symm hne)]
    rfl
  · intro _
    simp [Phase.runsOn, WorkerState.acquire]

theorem Balanced.finishRequest (h : Balanced s)
    (hget : s.requests[id]? = some (request, .running ws idx)) :
    Balanced (finishRequest s id request ws idx) := by
  obtain ⟨-, hplace⟩ := h.running _ (mem_of_getElem? hget) ws idx rfl
  have hcount : 0 < runningOn s ws :=
    countP_pos_iff.mpr ⟨_, mem_of_getElem? hget, by simp [runsOn_running]⟩
  have hother : ∀ ws', ws' ≠ ws → Phase.finished.runsOn ws' = (Phase.running ws idx).runsOn ws' := by
    intro ws' hne
    rw [runsOn_running, decide_eq_false (Ne.symm hne)]
    rfl
  unfold Scheduling.finishRequest
  dsimp only
  split_ifs with hinflight
  · refine h.setRequest _ hget rfl rfl rfl rfl rfl (fun _ _ hphase => nomatch hphase) hother ?_
      fun _ => rfl
    intro hws
    have hactive := h.active ws hws
    simp only [WorkerState.release, Phase.runsOn, decide_true, if_true,
      Bool.false_eq_true, if_false]
    omega
  · refine h.setRequest _ hget rfl rfl rfl rfl (modify_id ws _).symm
      (fun _ _ hphase => nomatch hphase) hother ?_ fun _ => rfl
    -- The worker has been removed.
    intro hws
    refine absurd ?_ hinflight
    rw [h.inflight_eq, mem_range]
    exact (List.getElem?_eq_some_iff.mp (hplace hws)).1

variable {stream : ClientStream κ}

theorem openOn_of_worker_none (h : stream.worker = none) (ws : Nat) : stream.openOn ws = false := by
  simp [ClientStream.openOn, h]

theorem Balanced.admitStream (h : Balanced s) (hget : s.streams[id]? = some stream)
    (hnone : stream.worker = none) (herror : stream.error = false) {ws : Nat} (hws : ws ∈ s.workers)
    (affinity : Affinity κ τ) :
    Balanced ({ s with
      affinity := affinity
      streams := s.streams.set id { stream with worker := some ws } }.modify ws
        WorkerState.admitStream) := by
  have hopen : stream.closed = false := by
    by_contra hclosed
    have hfails := h.closed stream (mem_of_getElem? hget) (by simpa using hclosed) hnone
    rw [herror] at hfails
    cases hfails
  refine h.setStream _ hget rfl rfl rfl rfl rfl ?_ (fun _ h => nomatch h) ?_ ?_ ?_
  · intro ws' hws'
    cases hws'
    exact h.lt_objects ws hws
  · intro ws' hne
    rw [openOn_of_worker_none hnone]
    simp [ClientStream.openOn, Ne.symm hne]
  · intro _
    rw [openOn_of_worker_none hnone]
    simp [ClientStream.openOn, hopen, WorkerState.admitStream]
  · intro _
    rw [openOn_of_worker_none hnone]
    simp [ClientStream.openOn, hopen, WorkerState.admitStream]

theorem Balanced.failStream (h : Balanced s) (hget : s.streams[id]? = some stream)
    (affinity : Affinity κ τ) :
    Balanced { s with
      affinity := affinity
      streams := s.streams.set id { stream with error := true } } :=
  h.setStream 0 hget rfl rfl rfl rfl (modify_id _ _).symm
    (fun ws hws => h.opened stream (mem_of_getElem? hget) ws hws) (fun _ _ => rfl)
    (fun _ _ => rfl) (fun _ => rfl) fun _ => rfl

/-- A stream is closed. -/
theorem Balanced.finishStream (h : Balanced s) (hget : s.streams[id]? = some stream)
    (hopen : stream.closed = false) (herror : stream.worker = none → stream.error = true)
    (unconfirmed : Bool) : Balanced (finishStream s id stream unconfirmed) := by
  have hclosed : ∀ ws, ({ stream with closed := true } : ClientStream κ).openOn ws = false :=
    fun _ => rfl
  unfold Scheduling.finishStream
  dsimp only
  split
  · rename_i hnone
    refine h.setStream 0 hget rfl rfl rfl rfl (modify_id _ _).symm ?_
      (fun _ => herror) ?_ ?_ ?_
    · exact fun ws hws => absurd hws (by rw [hnone]; exact fun h => nomatch h)
    · exact fun ws _ => by rw [hclosed, openOn_of_worker_none hnone]
    · exact fun _ => by rw [hclosed, openOn_of_worker_none hnone]; rfl
    · exact fun _ => by rw [hclosed, openOn_of_worker_none hnone]; rfl
  · rename_i ws hworker
    have hon : stream.openOn ws = true := by simp [ClientStream.openOn, hopen, hworker]
    have hother : ∀ ws', ws' ≠ ws → stream.openOn ws' = false := by
      intro ws' hne
      simp [ClientStream.openOn, hworker, Ne.symm hne]
    have hcount : 0 < openOn s ws := countP_pos_iff.mpr ⟨stream, mem_of_getElem? hget, hon⟩
    -- The quarantine leaves the counters.
    have hrelease : ∀ s' : Scheduler κ τ, s'.workers = s.workers → s'.inflight = s.inflight →
        s'.requests = s.requests → s'.streams = s.streams.set id { stream with closed := true } →
        ∀ f : WorkerState → WorkerState, s'.objects = s.objects.modify ws f →
        (∀ w, (f w).activeRequests = max 0 (w.activeRequests - 1)) →
        (∀ w, (f w).streamingRequests = max 0 (w.streamingRequests - 1)) → Balanced s' := by
      intro s' hworkers hinflight hrequests hstreams f hobjects hactive hstreaming
      refine h.setStream _ hget hworkers hinflight hrequests hstreams hobjects ?_ (fun _ => herror) ?_ ?_
        ?_
      · exact fun ws' hws' => h.opened stream (mem_of_getElem? hget) ws' hws'
      · exact fun ws' hne => by rw [hclosed, hother ws' hne]
      · intro hws
        have hnow := h.active ws hws
        rw [hactive, hclosed, hon]
        simp only [if_true, Bool.false_eq_true, if_false]
        omega
      · intro hws
        have hnow := h.streaming ws hws
        rw [hstreaming, hclosed, hon]
        simp only [if_true, Bool.false_eq_true, if_false]
        omega
    split_ifs
    · refine hrelease _ rfl rfl rfl rfl (fun w => w.quarantine.releaseStream) ?_ (fun _ => rfl)
        fun _ => rfl
      exact modify_modify_eq _ _ _ _
    · exact hrelease _ rfl rfl rfl rfl WorkerState.releaseStream rfl (fun _ => rfl) fun _ => rfl

/-- A worker is added. -/
theorem Balanced.addWorker (h : Balanced s) (limit : Int) : Balanced (addWorker s limit) := by
  have hold : ∀ ws, ws < s.objects.length →
      (Scheduling.addWorker s limit).object ws = s.object ws := by
    intro ws hws
    simp [Scheduling.addWorker, Scheduler.object, getElem?_append_left hws]
  have hnew : (Scheduling.addWorker s limit).object s.objects.length = WorkerState.new limit := by
    simp [Scheduling.addWorker, Scheduler.object]
  have hfresh : s.objects.length ∉ s.workers := fun hmem => absurd (h.lt_objects _ hmem) (lt_irrefl _)
  -- Nothing refers to the new object.
  have hidle : runningOn s s.objects.length = 0 ∧ openOn s s.objects.length = 0 := by
    constructor
    · apply countP_eq_zero.mpr
      intro r hr hruns
      unfold Phase.runsOn at hruns
      split at hruns
      · rename_i ws idx hphase
        have hlt := (h.running r hr ws idx hphase).1
        rw [of_decide_eq_true hruns] at hlt
        exact absurd hlt (lt_irrefl _)
      · cases hruns
    · apply countP_eq_zero.mpr
      intro stream hstream hopen
      simp only [ClientStream.openOn, Bool.and_eq_true, decide_eq_true_eq] at hopen
      exact absurd (h.opened stream hstream _ hopen.2) (lt_irrefl _)
  have hlength : (Scheduling.addWorker s limit).objects.length = s.objects.length + 1 := by
    simp [Scheduling.addWorker]
  have hmem : ∀ ws ∈ (Scheduling.addWorker s limit).workers,
      ws ∈ s.workers ∨ ws = s.objects.length := by
    intro ws hws
    simpa [Scheduling.addWorker] using hws
  refine ⟨?_, ?_, ?_, ?_, ?_, h.closed, ?_, ?_⟩
  · rw [show (Scheduling.addWorker s limit).workers = s.workers ++ [s.objects.length] from rfl]
    exact nodup_append.mpr ⟨h.nodup, nodup_singleton _, by
      intro a ha b hb heq
      rw [mem_singleton.mp hb] at heq
      exact hfresh (heq ▸ ha)⟩
  · rw [hlength]
    intro ws hws
    rcases hmem ws hws with hws | rfl
    · exact Nat.lt_succ_of_lt (h.lt_objects ws hws)
    · exact Nat.lt_succ_self _
  · rw [Scheduling.addWorker, h.inflight_eq]
    simp [range_succ]
  · rw [hlength]
    intro r hr ws idx hphase
    obtain ⟨hlt, hplace⟩ := h.running r hr ws idx hphase
    refine ⟨Nat.lt_succ_of_lt hlt, ?_⟩
    intro hws
    have hws' : ws ∈ s.workers := (hmem ws hws).resolve_right hlt.ne
    have hget := hplace hws'
    exact getElem?_append_left (List.getElem?_eq_some_iff.mp hget).1 ▸ hget
  · rw [hlength]
    exact fun stream hstream ws hws => Nat.lt_succ_of_lt (h.opened stream hstream ws hws)
  · intro ws hws
    rcases hmem ws hws with hws | rfl
    · rw [hold ws (h.lt_objects ws hws)]
      exact h.active ws hws
    · rw [hnew]
      change (0 : Int) = runningOn s _ + openOn s _
      rw [hidle.1, hidle.2]
      rfl
  · intro ws hws
    rcases hmem ws hws with hws | rfl
    · rw [hold ws (h.lt_objects ws hws)]
      exact h.streaming ws hws
    · rw [hnew]
      change (0 : Int) = openOn s _
      rw [hidle.2]
      rfl

theorem Balanced.removeLastWorker [DecidableEq κ] (h : Balanced s) :
    Balanced (removeLastWorker s) := by
  have hsublist : s.workers.dropLast.Sublist s.workers := dropLast_sublist _
  refine ⟨h.nodup.sublist hsublist, ?_, ?_, ?_, h.opened, h.closed, ?_, ?_⟩
  · exact fun ws hws => h.lt_objects ws (hsublist.mem hws)
  · change s.inflight.erase (s.workers.length - 1) = List.range s.workers.dropLast.length
    rw [h.inflight_eq, length_dropLast]
    cases s.workers.length with
    | zero => rfl
    | succ n =>
      rw [Nat.add_sub_cancel, range_succ, erase_append_right _ not_mem_range_self]
      simp
  · intro r hr ws idx hphase
    obtain ⟨hlt, hplace⟩ := h.running r hr ws idx hphase
    refine ⟨hlt, ?_⟩
    -- Its place is the same, for it is there only once.
    intro hws
    have hget := hplace (hsublist.mem hws)
    obtain ⟨j, hj, hjws⟩ := mem_iff_getElem.mp (show ws ∈ s.workers.dropLast from hws)
    obtain ⟨hidx, hidxws⟩ := List.getElem?_eq_some_iff.mp hget
    rw [getElem_dropLast] at hjws
    have hsame : idx = j := (h.nodup.getElem_inj_iff).mp (hidxws.trans hjws.symm)
    subst hsame
    change s.workers.dropLast[idx]? = some ws
    rw [getElem?_eq_getElem hj, getElem_dropLast, hjws]
  · exact fun ws hws => h.active ws (hsublist.mem hws)
  · exact fun ws hws => h.streaming ws (hsublist.mem hws)

theorem adjustLimits_frame (s : Scheduler κ τ) (limits : List Int) :
    (adjustLimits s limits).workers = s.workers ∧ (adjustLimits s limits).inflight = s.inflight ∧
      (adjustLimits s limits).requests = s.requests ∧ (adjustLimits s limits).streams = s.streams ∧
      (adjustLimits s limits).objects.length = s.objects.length ∧
      (∀ ws, ((adjustLimits s limits).object ws).activeRequests = (s.object ws).activeRequests) ∧
      ∀ ws, ((adjustLimits s limits).object ws).streamingRequests =
        (s.object ws).streamingRequests := by
  unfold adjustLimits
  generalize s.workers.zip limits = pairs
  induction pairs generalizing s with
  | nil => exact ⟨rfl, rfl, rfl, rfl, rfl, fun _ => rfl, fun _ => rfl⟩
  | cons p pairs ih =>
    rw [foldl_cons]
    obtain ⟨hworkers, hinflight, hrequests, hstreams, hlength, hactive, hstreaming⟩ :=
      ih (s.modify p.1 fun ws => { ws with concurrencyLimit := max 1 p.2 })
    refine ⟨hworkers, hinflight, hrequests, hstreams, hlength.trans (length_modify _ _ _), ?_, ?_⟩
    · intro ws
      rw [hactive]
      refine object_keeps rfl ?_ ws
      exact fun _ => rfl
    · intro ws
      rw [hstreaming]
      refine object_keeps rfl ?_ ws
      exact fun _ => rfl

theorem Balanced.modifyAt (h : Balanced s) {s' : Scheduler κ τ} {idx : Nat}
    {f : WorkerState → WorkerState} (hstep : modifyAt s idx f = some s')
    (hactive : ∀ w, (f w).activeRequests = w.activeRequests)
    (hstreaming : ∀ w, (f w).streamingRequests = w.streamingRequests) : Balanced s' := by
  obtain ⟨ws, -, rfl⟩ := Option.map_eq_some_iff.mp hstep
  exact h.frame rfl rfl rfl rfl (length_modify _ _ _) (object_keeps rfl hactive)
    (object_keeps rfl hstreaming)

end Steps

section Runs

variable [DecidableEq κ] [LinearOrder τ] [Sub τ] {ρ : Type} [LoadRatio ρ]
variable {config : RoutingConfig κ τ} {s : Scheduler κ τ}

/-- A turn of a request ends it: at a stop, or because the routing gives no worker. -/
def Leaves (ρ : Type) [LoadRatio ρ] (config : RoutingConfig κ τ) (s : Scheduler κ τ)
    (request : Request κ) (now : τ) : Prop :=
  s.stopped = true ∨ ((route ρ config s request now).2.bind fun idx => s.workers[idx]?) = none

/-- No request that a worker has refused leaves while the worker is busy. -/
def Paired (ρ : Type) [LoadRatio ρ] (config : RoutingConfig κ τ) (s : Scheduler κ τ) :
    Act κ τ → Prop
  | .turn id now =>
    match s.requests[id]? with
    | some (request, .waiting (some ws)) =>
      ws ∈ s.workers → 0 < (s.object ws).activeRequests → ¬Leaves ρ config s request now
    | _ => True
  | _ => True

instance (request : Request κ) (now : τ) : Decidable (Leaves ρ config s request now) :=
  inferInstanceAs (Decidable (_ ∨ _))

instance (a : Act κ τ) : Decidable (Paired ρ config s a) :=
  match a with
  | .turn id now =>
    match h : s.requests[id]? with
    | some (request, .waiting (some ws)) =>
      decidable_of_iff (ws ∈ s.workers → 0 < (s.object ws).activeRequests →
        ¬Leaves ρ config s request now) (by simp [Paired, h])
    | none => isTrue (by simp [Paired, h])
    | some (_, .waiting none) => isTrue (by simp [Paired, h])
    | some (_, .running _ _) => isTrue (by simp [Paired, h])
    | some (_, .finished) => isTrue (by simp [Paired, h])
  | .submit _ | .done _ | .openStream _ | .streamTurn _ _ | .abortStream _ | .closeStream _ _
  | .addWorker _ | .removeLastWorker | .markWorkerUnavailable _ | .markWorkerAvailable _
  | .updateWorkerHandle _ | .adjustLimits _ | .pause | .resume | .shutdown => isTrue trivial


variable {s' : Scheduler κ τ}

/-- A turn of a request keeps the counters right, unless a refused one leaves a busy worker. -/
theorem Balanced.turn (h : Balanced s) {id : Nat} {request : Request κ} {refused : Option Nat}
    {now : τ} (hget : s.requests[id]? = some (request, .waiting refused))
    (hpaired : Paired ρ config s (.turn id now))
    (hturn : Turn ρ config s id request refused now s') : Balanced s' := by
  have hidle : Leaves ρ config s request now → ∀ ws, refused = some ws → ws ∈ s.workers →
      (s.object ws).activeRequests ≤ 0 := by
    rintro hleaves ws rfl hws
    by_contra hbusy
    simp only [Paired, hget] at hpaired
    exact hpaired hws (not_le.mp hbusy) hleaves
  cases hturn with
  | stopped hstopped => exact h.leave hget (hidle (.inl hstopped))
  | noWorker hgoes hnone =>
    have hleaves : Leaves ρ config s request now := by
      refine .inr (Option.bind_eq_none_iff.mpr ?_)
      exact fun idx hidx => hnone idx hidx
    have hrouted : Balanced { s with affinity := (route ρ config s request now).1 } :=
      h.frame rfl rfl rfl rfl rfl (fun _ => rfl) fun _ => rfl
    exact hrouted.leave hget (hidle hleaves)
  | admitted _ idx ws hws => exact h.acquire hget hws _
  | untracked _ idx ws hws _ hinflight =>
    refine absurd ?_ hinflight
    rw [h.inflight_eq, mem_range]
    exact (List.getElem?_eq_some_iff.mp hws).1
  | refused _ ws =>
    exact h.setRequest 0 hget rfl rfl rfl rfl (modify_id _ _).symm
      (fun _ _ hphase => nomatch hphase) (fun _ _ => rfl) (fun _ => rfl) fun _ => rfl

theorem Balanced.streamTurn (h : Balanced s) {id : Nat} {stream : ClientStream κ} {now : τ}
    (hget : s.streams[id]? = some stream) (hnone : stream.worker = none)
    (hturn : StreamTurn ρ config s id stream now s') : Balanced s' := by
  cases hturn with
  | idle => exact h
  | stopped => exact h.failStream hget s.affinity
  | failed => exact h.failStream hget _
  | admitted hgoes ws hws => exact h.admitStream hget hnone hgoes.1 hws _
  | refused => exact h.frame rfl rfl rfl rfl rfl (fun _ => rfl) fun _ => rfl

/-- Every step keeps the counters right that is no refused request's leave of a busy worker. -/
theorem step_balanced (h : Balanced s) {a : Act κ τ} (hpaired : Paired ρ config s a)
    (hstep : step ρ config s a = some s') : Balanced s' := by
  cases a with
  | submit request =>
    simp only [step] at hstep
    split_ifs at hstep
    cases hstep
    refine ⟨h.nodup, h.lt_objects, h.inflight_eq, ?_, h.opened, h.closed, ?_, h.streaming⟩
    · intro r hr ws idx hphase
      rcases mem_append.mp hr with hold | hnew
      · exact h.running r hold ws idx hphase
      · cases mem_singleton.mp hnew
        cases hphase
    · intro ws hws
      have hactive := h.active ws hws
      simpa [runningOn, openOn, Scheduler.object, Phase.runsOn] using hactive
  | turn id now =>
    simp only [step] at hstep
    split at hstep
    · rename_i request refused hget
      exact h.turn hget hpaired (takeTurn_turn ρ config hstep)
    · cases hstep
  | done id =>
    simp only [step] at hstep
    split at hstep
    · rename_i request ws idx hget
      cases hstep
      exact h.finishRequest hget
    · cases hstep
  | openStream request =>
    simp only [step] at hstep
    split_ifs at hstep
    cases hstep
    refine ⟨h.nodup, h.lt_objects, h.inflight_eq, h.running, ?_, ?_, ?_, ?_⟩
    · intro stream hstream ws hws
      rcases mem_append.mp hstream with hold | hnew
      · exact h.opened stream hold ws hws
      · cases mem_singleton.mp hnew
        cases hws
    · intro stream hstream hclosed
      rcases mem_append.mp hstream with hold | hnew
      · exact h.closed stream hold hclosed
      · cases mem_singleton.mp hnew
        cases hclosed
    · intro ws hws
      have hactive := h.active ws hws
      simpa [runningOn, openOn, Scheduler.object, ClientStream.openOn] using hactive
    · intro ws hws
      have hstreaming := h.streaming ws hws
      simpa [openOn, Scheduler.object, ClientStream.openOn] using hstreaming
  | streamTurn id now =>
    simp only [step] at hstep
    split at hstep
    · rename_i stream hget
      split_ifs at hstep with hnone
      cases hstep
      exact h.streamTurn hget hnone (takeStreamTurn_turn ρ config s id stream now)
    · cases hstep
  | abortStream id =>
    simp only [step] at hstep
    split at hstep
    · rename_i stream hget
      split_ifs at hstep
      cases hstep
      exact h.failStream hget s.affinity
    · cases hstep
  | closeStream id unconfirmed =>
    simp only [step] at hstep
    split at hstep
    · rename_i stream hget
      split_ifs at hstep with hnot
      cases hstep
      push Not at hnot
      exact h.finishStream hget (by simpa using hnot.1) hnot.2 unconfirmed
    · cases hstep
  | addWorker limit =>
    cases hstep
    exact h.addWorker limit
  | removeLastWorker =>
    simp only [step] at hstep
    split_ifs at hstep
    cases hstep
    exact h.removeLastWorker
  | markWorkerUnavailable idx => exact h.modifyAt hstep (fun _ => rfl) fun _ => rfl
  | markWorkerAvailable idx => exact h.modifyAt hstep (fun _ => rfl) fun _ => rfl
  | updateWorkerHandle idx => exact h.modifyAt hstep (fun _ => rfl) fun _ => rfl
  | adjustLimits limits =>
    cases hstep
    obtain ⟨hworkers, hinflight, hrequests, hstreams, hlength, hactive, hstreaming⟩ :=
      adjustLimits_frame s limits
    exact h.frame hworkers hinflight hrequests hstreams hlength hactive hstreaming
  | pause =>
    cases hstep
    exact h.frame rfl rfl rfl rfl rfl (fun _ => rfl) fun _ => rfl
  | resume =>
    cases hstep
    exact h.frame rfl rfl rfl rfl rfl (fun _ => rfl) fun _ => rfl
  | shutdown =>
    cases hstep
    exact h.frame rfl rfl rfl rfl rfl (fun _ => rfl) fun _ => rfl

/-! ## Admission -/

/-- A counter that goes up stays within the limit of its worker. -/
def WithinLimits (s s' : Scheduler κ τ) : Prop :=
  ∀ ws ∈ s.workers, (s.object ws).activeRequests < (s'.object ws).activeRequests →
    (s'.object ws).activeRequests ≤ (s'.object ws).concurrencyLimit

section

omit [DecidableEq κ] [LinearOrder τ] [Sub τ]

theorem withinLimits_of_same
    (hactive : ∀ ws ∈ s.workers, (s'.object ws).activeRequests = (s.object ws).activeRequests) :
    WithinLimits s s' := by
  intro ws hws hlt
  rw [hactive ws hws] at hlt
  exact absurd hlt (lt_irrefl _)

theorem withinLimits_of_modify (h : Balanced s) {ws : Nat}
    {f : WorkerState → WorkerState} (hobjects : s'.objects = s.objects.modify ws f)
    (hf : ws ∈ s.workers → 0 ≤ (s.object ws).activeRequests → (f (s.object ws)).activeRequests ≤
        max (s.object ws).activeRequests (f (s.object ws)).concurrencyLimit) :
    WithinLimits s s' := by
  intro ws' hws' hlt
  by_cases heq : ws' = ws
  · subst heq
    have hactive := h.active ws' hws'
    have hle := hf hws' (by omega)
    rw [object_self hobjects (h.lt_objects ws' hws')] at hlt ⊢
    omega
  · rw [object_ne hobjects heq] at hlt
    exact absurd hlt (lt_irrefl _)

theorem modifyAt_withinLimits {idx : Nat} {f : WorkerState → WorkerState}
    (hstep : modifyAt s idx f = some s') (hf : ∀ w, (f w).activeRequests = w.activeRequests) :
    WithinLimits s s' := by
  obtain ⟨ws, -, rfl⟩ := Option.map_eq_some_iff.mp hstep
  exact withinLimits_of_same fun ws' _ => object_keeps rfl hf ws'

end

theorem WorkerState.admits_lt {w : WorkerState} (h : w.admits = true) :
    w.activeRequests < w.concurrencyLimit := by
  simp only [WorkerState.admits, Bool.and_eq_true, decide_eq_true_eq] at h
  exact h.2

omit [DecidableEq κ] [LinearOrder τ] [Sub τ] in
theorem leaveRequest_withinLimits (h : Balanced s) (id : Nat) (request : Request κ)
    (refused : Option Nat) : WithinLimits s (leaveRequest s id request refused) := by
  cases refused with
  | none => exact withinLimits_of_same fun _ _ => rfl
  | some ws =>
    refine withinLimits_of_modify h rfl fun _ hpos => ?_
    simp only [WorkerState.release]
    omega

/-- Admission never takes a counter above the limit of its worker. -/
theorem step_withinLimits (h : Balanced s) {a : Act κ τ} (hstep : step ρ config s a = some s') :
    WithinLimits s s' := by
  cases a with
  | submit request =>
    simp only [step] at hstep
    split_ifs at hstep
    cases hstep
    exact withinLimits_of_same fun _ _ => rfl
  | turn id now =>
    simp only [step] at hstep
    split at hstep
    · rename_i request refused hget
      cases takeTurn_turn ρ config hstep with
      | stopped => exact leaveRequest_withinLimits h id request refused
      | noWorker =>
        have hrouted : Balanced { s with affinity := (route ρ config s request now).1 } :=
          h.frame rfl rfl rfl rfl rfl (fun _ => rfl) fun _ => rfl
        exact leaveRequest_withinLimits hrouted id request refused
      | admitted _ idx ws _ hadmits =>
        refine withinLimits_of_modify h rfl fun _ _ => ?_
        have hlt := WorkerState.admits_lt hadmits
        simp only [WorkerState.acquire]
        omega
      | untracked _ idx ws _ hadmits =>
        refine withinLimits_of_modify h rfl fun _ _ => ?_
        have hlt := WorkerState.admits_lt hadmits
        simp only [WorkerState.acquire]
        omega
      | refused => exact withinLimits_of_same fun _ _ => rfl
    · cases hstep
  | done id =>
    simp only [step] at hstep
    split at hstep
    · cases hstep
      unfold finishRequest
      dsimp only
      split_ifs
      · refine withinLimits_of_modify h rfl fun _ hpos => ?_
        simp only [WorkerState.release]
        omega
      · exact withinLimits_of_same fun _ _ => rfl
    · cases hstep
  | openStream request =>
    simp only [step] at hstep
    split_ifs at hstep
    cases hstep
    exact withinLimits_of_same fun _ _ => rfl
  | streamTurn id now =>
    simp only [step] at hstep
    split at hstep
    · rename_i stream hget
      split_ifs at hstep with hnone
      cases hstep
      have hturn := takeStreamTurn_turn ρ config s id stream now
      generalize takeStreamTurn ρ config s id stream now = s' at hturn
      cases hturn with
      | idle => exact withinLimits_of_same fun _ _ => rfl
      | stopped => exact withinLimits_of_same fun _ _ => rfl
      | failed => exact withinLimits_of_same fun _ _ => rfl
      | admitted _ ws _ hadmits =>
        refine withinLimits_of_modify h rfl fun _ _ => ?_
        have hlt := WorkerState.admits_lt hadmits
        simp only [WorkerState.admitStream]
        omega
      | refused => exact withinLimits_of_same fun _ _ => rfl
    · cases hstep
  | abortStream id =>
    simp only [step] at hstep
    split at hstep
    · split_ifs at hstep
      cases hstep
      exact withinLimits_of_same fun _ _ => rfl
    · cases hstep
  | closeStream id unconfirmed =>
    simp only [step] at hstep
    split at hstep
    · split_ifs at hstep
      cases hstep
      unfold finishStream
      dsimp only
      split
      · exact withinLimits_of_same fun _ _ => rfl
      · split_ifs
        · refine withinLimits_of_modify h (modify_modify_eq _ _ _ _) fun _ hpos => ?_
          simp only [Function.comp_apply, WorkerState.releaseStream, WorkerState.quarantine]
          omega
        · refine withinLimits_of_modify h rfl fun _ hpos => ?_
          simp only [WorkerState.releaseStream]
          omega
    · cases hstep
  | addWorker limit =>
    cases hstep
    refine withinLimits_of_same fun ws hws => ?_
    simp [addWorker, Scheduler.object, getElem?_append_left (h.lt_objects ws hws)]
  | removeLastWorker =>
    simp only [step] at hstep
    split_ifs at hstep
    cases hstep
    exact withinLimits_of_same fun _ _ => rfl
  | markWorkerUnavailable idx => exact modifyAt_withinLimits hstep fun _ => rfl
  | markWorkerAvailable idx => exact modifyAt_withinLimits hstep fun _ => rfl
  | updateWorkerHandle idx => exact modifyAt_withinLimits hstep fun _ => rfl
  | adjustLimits limits =>
    cases hstep
    exact withinLimits_of_same fun ws _ => (adjustLimits_frame s limits).2.2.2.2.2.1 ws
  | pause =>
    cases hstep
    exact withinLimits_of_same fun _ _ => rfl
  | resume =>
    cases hstep
    exact withinLimits_of_same fun _ _ => rfl
  | shutdown =>
    cases hstep
    exact withinLimits_of_same fun _ _ => rfl

omit [DecidableEq κ] [LinearOrder τ] [Sub τ] in
theorem balanced_init (numWorkers : Nat) (initialConcurrency : Int) (start : τ) :
    Balanced (Scheduler.init numWorkers initialConcurrency start : Scheduler κ τ) := by
  have hobject : ∀ ws ∈ (Scheduler.init numWorkers initialConcurrency start : Scheduler κ τ).workers,
      (Scheduler.init numWorkers initialConcurrency start : Scheduler κ τ).object ws =
        WorkerState.new initialConcurrency := by
    intro ws hws
    have hlt : ws < numWorkers := mem_range.mp hws
    simp [Scheduler.init, Scheduler.object, hlt]
  refine ⟨nodup_range, ?_, ?_, ?_, ?_, ?_, ?_, ?_⟩
  · intro ws hws
    simpa [Scheduler.init] using hws
  · simp [Scheduler.init]
  · exact fun r hr => absurd hr not_mem_nil
  · exact fun stream hstream => absurd hstream not_mem_nil
  · exact fun stream hstream => absurd hstream not_mem_nil
  · intro ws hws
    rw [hobject ws hws]
    rfl
  · intro ws hws
    rw [hobject ws hws]
    rfl

/-- In every run in which no refused request leaves while the worker that refused it is busy, each
worker's counters are the numbers of its requests and streams, and admission keeps to the limits. -/
theorem counters_paired (ρ : Type) [LoadRatio ρ] (config : RoutingConfig κ τ) (numWorkers : Nat)
    (initialConcurrency : Int) (start : τ) {s : Scheduler κ τ}
    (hs : Reaches (step ρ config) (Paired ρ config)
      (Scheduler.init numWorkers initialConcurrency start) s) :
    (∀ ws ∈ s.workers, (s.object ws).activeRequests = runningOn s ws + openOn s ws ∧
      (s.object ws).streamingRequests = openOn s ws ∧ 0 ≤ (s.object ws).activeRequests ∧
      0 ≤ (s.object ws).streamingRequests) ∧
    ∀ a s', step ρ config s a = some s' → WithinLimits s s' := by
  have hbalanced : Balanced s :=
    hs.invariant (balanced_init _ _ _) fun s a s' h hok hstep => step_balanced h hok hstep
  constructor
  · intro ws hws
    have hactive := hbalanced.active ws hws
    have hstreaming := hbalanced.streaming ws hws
    exact ⟨hactive, hstreaming, by omega, by omega⟩
  · exact fun a s' hstep => step_withinLimits hbalanced hstep

end Runs

/-- A request that ends. -/
theorem counters_paired_one :
    ∃ s, Reaches (step ℚ ⟨false, ⟨(30 : Int), 3600, 2⟩, fun _ _ => some 0⟩)
        (Paired ℚ ⟨false, ⟨(30 : Int), 3600, 2⟩, fun _ _ => some 0⟩)
        (Scheduler.init 1 1 0 : Scheduler String Int) s ∧
      s.workers = [0] ∧ (s.object 0).activeRequests = runningOn s 0 + openOn s 0 := by
  obtain ⟨s, hs, hworkers⟩ : ∃ s, Reaches (step ℚ ⟨false, ⟨(30 : Int), 3600, 2⟩, fun _ _ => some 0⟩)
        (Paired ℚ ⟨false, ⟨(30 : Int), 3600, 2⟩, fun _ _ => some 0⟩)
        (Scheduler.init 1 1 0 : Scheduler String Int) s ∧ s.workers = [0] :=
    exists_reaches [.submit ⟨none, none, false⟩, .submit ⟨none, none, false⟩, .turn 0 5, .turn 1 5,
      .done 0, .turn 1 6] (by decide)
  exact ⟨s, hs, hworkers, ((counters_paired ℚ _ 1 1 0 hs).1 0 (by simp [hworkers])).1⟩

/-- A request that waits for a worker leaves at the shutdown, and the worker counts a request less
than it runs. -/
theorem refused_request_leaves :
    ∃ s, Reaches (step ℚ ⟨false, ⟨(30 : Int), 3600, 2⟩, fun _ _ => some 0⟩) Always
        (Scheduler.init 1 1 0 : Scheduler String Int) s ∧
      s.workers = [0] ∧ runningOn s 0 = 1 ∧ (s.object 0).activeRequests = 0 :=
  exists_reaches [.submit ⟨none, none, false⟩, .submit ⟨none, none, false⟩, .turn 0 5, .turn 1 5,
    .shutdown, .turn 1 6] (by decide)

end ArcticPlatform.Scheduling
