import ArcticPlatform.Scheduling.Model

/-!
# Keys stay with their workers

What the scheduler remembers of keys in any run: there are not too many, their workers exist,
and a key is routed to the worker it was routed to before as long as that worker can receive
requests and the key is not dropped.

Main results:

- Theorem `step_affinity`: all that a step does to the keys.
- Theorem `group_affinity`: what holds of the keys in every run.
-/

namespace ArcticPlatform.Scheduling

open Dicts Runs List Option

section Stickiness

variable {κ τ : Type} [DecidableEq κ] [LinearOrder τ] [Sub τ]
variable {ρ : Type} [LoadRatio ρ] {config : RoutingConfig κ τ}

/-- The key by which an action routes, and the time. -/
def routedKey (config : RoutingConfig κ τ) (s : Scheduler κ τ) : Act κ τ → Option (κ × τ)
  | .turn id now =>
    match s.requests[id]? with
    | some (request, .waiting _) =>
      if s.stopped ∨ s.paused ∨ ¬config.affinityEnabled then none
      else request.routingKey.map (·, now)
    | _ => none
  | .streamTurn id now =>
    match s.streams[id]? with
    | some stream =>
      if stream.worker ≠ none ∨ stream.error ∨ s.stopped ∨ s.paused ∨ s.workers = [] ∨
          ¬config.affinityEnabled then none
      else stream.request.routingKey.map (·, now)
    | none => none
  | _ => none

/-- The index of the worker an action routes to. -/
def routedTo (ρ : Type) [LoadRatio ρ] (config : RoutingConfig κ τ) (s : Scheduler κ τ) :
    Act κ τ → Option Nat
  | .turn id now =>
    (s.requests[id]?).bind fun r => (route ρ config s r.1 now).2
  | .streamTurn id now =>
    (s.streams[id]?).bind fun stream => (selectStreamWorker ρ config s stream.request now).2
  | _ => none

/-- The worker can receive requests, and the action does not drop the key. -/
def Stays (config : RoutingConfig κ τ) (key : κ) (w : Nat) (s : Scheduler κ τ) (a : Act κ τ) :
    Prop :=
  workerCanReceive s.states w = true ∧ ∀ key' now, routedKey config s a = some (key', now) →
      ¬expires config.affinity s.affinity key now ∧
        ¬evicts config.affinity s.states s.affinity key now

omit [DecidableEq κ] [LinearOrder τ] [Sub τ] in
@[simp] theorem length_states (s : Scheduler κ τ) : s.states.length = s.workers.length :=
  length_map _

variable {a : Act κ τ} {now : τ}

theorem routedTo_eq {s : Scheduler κ τ} {key : κ} (h : routedKey config s a = some (key, now)) :
    routedTo ρ config s a =
      (groupAffinityRouting ρ config.affinity s.states s.affinity key now).2 := by
  cases a with
  | turn id time =>
    simp only [routedKey] at h
    split at h
    · rename_i request refused hrequest
      split_ifs at h with hoff
      push Not at hoff
      obtain ⟨key', hkey, heq⟩ := map_eq_some_iff.mp h
      cases heq
      simp [routedTo, hrequest, route, hoff.2.2, hkey]
    · cases h
  | streamTurn id time =>
    simp only [routedKey] at h
    split at h
    · rename_i stream hstream
      split_ifs at h with hoff
      push Not at hoff
      obtain ⟨key', hkey, heq⟩ := map_eq_some_iff.mp h
      cases heq
      simp [routedTo, hstream, selectStreamWorker, hoff.2.2.2.2.2, hkey]
    · cases h
  | _ => cases h

/-- A request that a turn admits runs on the worker that the turn routes to. -/
theorem routedTo_of_running {id ws w : Nat} {request request' : Request κ} {refused : Option Nat}
    (hrequest : s.requests[id]? = some (request, .waiting refused))
    (hstep : step ρ config s (.turn id now) = some s')
    (hrun : s'.requests[id]? = some (request', .running ws w)) :
    routedTo ρ config s (.turn id now) = some w ∧ s.workers[w]? = some ws := by
  have hleft : ∀ t : Scheduler κ τ, t.requests = s.requests →
      (leaveRequest t id request refused).requests[id]? ≠ some (request', .running ws w) := by
    intro t ht
    cases refused <;> simp [leaveRequest, Scheduler.modify, ht, getElem?_set]
  simp only [step, hrequest, takeTurn] at hstep
  split_ifs at hstep
  · cases hstep
    exact absurd hrun (hleft s rfl)
  · split at hstep
    · cases hstep
      exact absurd hrun (hleft _ rfl)
    · rename_i idx ws' hfound
      obtain ⟨idx', hrouted, hws⟩ := bind_eq_some_iff.mp hfound
      obtain ⟨ws'', hws', heq⟩ := map_eq_some_iff.mp hws
      cases heq
      have hlt : id < s.requests.length := (List.getElem?_eq_some_iff.mp hrequest).1
      split_ifs at hstep <;> cases hstep <;>
        simp [Scheduler.modify, getElem?_set_self hlt] at hrun
      obtain ⟨-, rfl, rfl⟩ := hrun
      exact ⟨by simp [routedTo, hrequest, hrouted], hws'⟩

/-- A stream is opened on the worker that its turn routes to. -/
theorem routedTo_of_stream {id ws : Nat} {stream stream' : ClientStream κ}
    (hstream : s.streams[id]? = some stream) (hstep : step ρ config s (.streamTurn id now) = some s')
    (hopen : s'.streams[id]? = some stream') (hworker : stream'.worker = some ws) :
    ∃ w, routedTo ρ config s (.streamTurn id now) = some w ∧ s.workers[w]? = some ws := by
  have hlt : id < s.streams.length := (List.getElem?_eq_some_iff.mp hstream).1
  simp only [step, hstream] at hstep
  split_ifs at hstep with hnone
  have hidle : stream' ≠ stream := by
    rintro rfl
    rw [hnone] at hworker
    cases hworker
  have herror : stream' ≠ { stream with error := true } := by
    rintro rfl
    rw [hnone] at hworker
    cases hworker
  cases hstep
  unfold takeStreamTurn at hopen
  dsimp only at hopen
  split_ifs at hopen
  · exact absurd (some.inj (hopen.symm.trans hstream)) hidle
  · rw [getElem?_set_self hlt] at hopen
    exact absurd (some.inj hopen).symm herror
  · exact absurd (some.inj (hopen.symm.trans hstream)) hidle
  · split at hopen
    · rw [getElem?_set_self hlt] at hopen
      exact absurd (some.inj hopen).symm herror
    · rename_i ws' hfound
      obtain ⟨w, hrouted, hws⟩ := bind_eq_some_iff.mp hfound
      split_ifs at hopen
      · simp only [Scheduler.modify, getElem?_set_self hlt] at hopen
        cases hopen
        cases hworker
        exact ⟨w, by simp [routedTo, hstream, hrouted], hws⟩
      · exact absurd (some.inj (hopen.symm.trans hstream)) hidle

/-- What a step does to the keys: nothing, the routing of a key, or the removal of a worker. -/
inductive AffinityStep (ρ : Type) [LoadRatio ρ] (config : RoutingConfig κ τ) (s : Scheduler κ τ)
    (a : Act κ τ) (s' : Scheduler κ τ) : Prop where
  | unchanged (hkey : routedKey config s a = none) (haffinity : s'.affinity = s.affinity)
      (hworkers : s.workers <+: s'.workers)
  | routed (key : κ) (now : τ) (hkey : routedKey config s a = some (key, now))
      (haffinity : s'.affinity =
        (groupAffinityRouting ρ config.affinity s.states s.affinity key now).1)
      (hworkers : s'.workers = s.workers)
  | removed (hkey : routedKey config s a = none)
      (haffinity : s'.affinity = forgetWorkers s.affinity (s.workers.length - 1))
      (hworkers : s'.workers = s.workers.dropLast)

variable {s s' : Scheduler κ τ}

theorem AffinityStep.of_same (hkey : routedKey config s a = none)
    (haffinity : s'.affinity = s.affinity) (hworkers : s'.workers = s.workers) :
    AffinityStep ρ config s a s' := .unchanged hkey haffinity (hworkers ▸ prefix_refl _)

omit [DecidableEq κ] [LinearOrder τ] [Sub τ] in
theorem leaveRequest_same (s : Scheduler κ τ) (id : Nat) (request : Request κ)
    (refused : Option Nat) : (leaveRequest s id request refused).affinity = s.affinity ∧
      (leaveRequest s id request refused).workers = s.workers := by
  cases refused <;> exact ⟨rfl, rfl⟩

variable {id : Nat}

theorem affinityStep_of_route {request : Request κ} {refused : Option Nat}
    (hrequest : s.requests[id]? = some (request, .waiting refused))
    (hgoes : s.stopped = false ∧ s.paused = false)
    (haffinity : s'.affinity = (route ρ config s request now).1) (hworkers : s'.workers = s.workers) :
    AffinityStep ρ config s (.turn id now) s' := by
  unfold route at haffinity
  split at haffinity
  · rename_i key henabled hkey
    refine .routed key now ?_ haffinity hworkers
    simp [routedKey, hrequest, hgoes, henabled, hkey]
  · rename_i hoff
    refine .of_same ?_ haffinity hworkers
    simp only [routedKey, hrequest]
    split_ifs with hnot
    · rfl
    · push Not at hnot
      cases hkey : request.routingKey with
      | none => rfl
      | some key => exact absurd hkey (hoff key hnot.2.2)

theorem affinityStep_of_selectStreamWorker {stream : ClientStream κ}
    (hstream : s.streams[id]? = some stream) (hnone : stream.worker = none)
    (hgoes : stream.error = false ∧ s.stopped = false ∧ s.paused = false ∧ s.workers ≠ [])
    (haffinity : s'.affinity = (selectStreamWorker ρ config s stream.request now).1)
    (hworkers : s'.workers = s.workers) : AffinityStep ρ config s (.streamTurn id now) s' := by
  unfold selectStreamWorker at haffinity
  split at haffinity
  · rename_i key henabled hkey
    refine .routed key now ?_ haffinity hworkers
    simp [routedKey, hstream, hnone, hgoes, henabled, hkey]
  · rename_i hoff
    have hkey : routedKey config s (.streamTurn id now) = none := by
      simp only [routedKey, hstream]
      split_ifs with hnot
      · rfl
      · push Not at hnot
        cases hkey : stream.request.routingKey with
        | none => rfl
        | some key => exact absurd hkey (hoff key hnot.2.2.2.2.2)
    dsimp only at haffinity
    split at haffinity
    · exact .of_same hkey haffinity hworkers
    · exact .of_same hkey haffinity hworkers

section

omit [DecidableEq κ] [LinearOrder τ] [Sub τ]

theorem routedKey_of_idle {s : Scheduler κ τ} {stream : ClientStream κ}
    (hstream : s.streams[id]? = some stream)
    (hidle : stream.error = true ∨ s.paused = true ∨ s.workers = []) :
    routedKey config s (.streamTurn id now) = none := by
  rcases hidle with herror | hpaused | hworkers
  · simp [routedKey, hstream, herror]
  · simp [routedKey, hstream, hpaused]
  · simp [routedKey, hstream, hworkers]

theorem adjustLimits_same (s : Scheduler κ τ) (limits : List Int) :
    (adjustLimits s limits).affinity = s.affinity ∧
      (adjustLimits s limits).workers = s.workers := by
  unfold adjustLimits
  generalize s.workers.zip limits = pairs
  induction pairs generalizing s with
  | nil => exact ⟨rfl, rfl⟩
  | cons p pairs ih =>
    rw [foldl_cons]
    exact ih _

theorem modifyAt_same {idx : Nat} {f : WorkerState → WorkerState} (h : modifyAt s idx f = some s') :
    s'.affinity = s.affinity ∧ s'.workers = s.workers := by
  obtain ⟨ws, -, rfl⟩ := map_eq_some_iff.mp h
  exact ⟨rfl, rfl⟩

end

/-- All that a step does to the keys. -/
theorem step_affinity (h : step ρ config s a = some s') : AffinityStep ρ config s a s' := by
  cases a with
  | submit request =>
    simp only [step] at h
    split_ifs at h
    cases h
    exact .of_same rfl rfl rfl
  | turn id now =>
    simp only [step] at h
    split at h
    · rename_i request refused hrequest
      cases takeTurn_turn ρ config h with
      | stopped hstopped =>
        obtain ⟨haffinity, hworkers⟩ := leaveRequest_same s id request refused
        exact .of_same (by simp [routedKey, hrequest, hstopped]) haffinity hworkers
      | noWorker hgoes =>
        obtain ⟨haffinity, hworkers⟩ := leaveRequest_same
          { s with affinity := (route ρ config s request now).1 } id request refused
        exact affinityStep_of_route hrequest hgoes haffinity hworkers
      | admitted hgoes => exact affinityStep_of_route hrequest hgoes rfl rfl
      | untracked hgoes => exact affinityStep_of_route hrequest hgoes rfl rfl
      | refused hgoes => exact affinityStep_of_route hrequest hgoes rfl rfl
    · cases h
  | done id =>
    simp only [step] at h
    split at h
    · cases h
      unfold finishRequest
      dsimp only
      split_ifs
      · exact .of_same rfl rfl rfl
      · exact .of_same rfl rfl rfl
    · cases h
  | openStream request =>
    simp only [step] at h
    split_ifs at h
    cases h
    exact .of_same rfl rfl rfl
  | streamTurn id now =>
    simp only [step] at h
    split at h
    · rename_i stream hstream
      split_ifs at h with hnone
      cases h
      have hturn := takeStreamTurn_turn ρ config s id stream now
      generalize takeStreamTurn ρ config s id stream now = s' at hturn
      cases hturn with
      | idle hidle => exact .of_same (routedKey_of_idle hstream hidle) rfl rfl
      | stopped hstopped => exact .of_same (by simp [routedKey, hstream, hstopped]) rfl rfl
      | failed hgoes => exact affinityStep_of_selectStreamWorker hstream hnone hgoes rfl rfl
      | admitted hgoes => exact affinityStep_of_selectStreamWorker hstream hnone hgoes rfl rfl
      | refused hgoes => exact affinityStep_of_selectStreamWorker hstream hnone hgoes rfl rfl
    · cases h
  | abortStream id =>
    simp only [step] at h
    split at h
    · split_ifs at h
      cases h
      exact .of_same rfl rfl rfl
    · cases h
  | closeStream id cleanupUnconfirmed =>
    simp only [step] at h
    split at h
    · split_ifs at h
      cases h
      unfold finishStream
      dsimp only
      split
      · exact .of_same rfl rfl rfl
      · split_ifs
        · exact .of_same rfl rfl rfl
        · exact .of_same rfl rfl rfl
    · cases h
  | addWorker limit =>
    cases h
    exact .unchanged rfl rfl (prefix_append _ _)
  | removeLastWorker =>
    simp only [step] at h
    split_ifs at h
    cases h
    exact .removed rfl rfl rfl
  | markWorkerUnavailable idx => exact .of_same rfl (modifyAt_same h).1 (modifyAt_same h).2
  | markWorkerAvailable idx => exact .of_same rfl (modifyAt_same h).1 (modifyAt_same h).2
  | updateWorkerHandle idx => exact .of_same rfl (modifyAt_same h).1 (modifyAt_same h).2
  | adjustLimits limits =>
    cases h
    exact .of_same rfl (adjustLimits_same s limits).1 (adjustLimits_same s limits).2
  | pause =>
    cases h
    exact .of_same rfl rfl rfl
  | resume =>
    cases h
    exact .of_same rfl rfl rfl
  | shutdown =>
    cases h
    exact .of_same rfl rfl rfl

theorem step_remembers (h : Remembers config.affinity s.workers.length s.affinity)
    (hstep : step ρ config s a = some s') :
    Remembers config.affinity s'.workers.length s'.affinity := by
  rw [← length_states] at h
  cases step_affinity hstep with
  | unchanged _ haffinity hworkers =>
    rw [haffinity]
    refine ⟨h.length_le, ?_⟩
    intro key assignment hget
    have hlt := h.exists_worker key assignment hget
    rw [length_states] at hlt
    exact hlt.trans_le hworkers.length_le
  | routed key now _ haffinity hworkers =>
    rw [haffinity, hworkers, ← length_states]
    exact h.route key now
  | removed _ haffinity hworkers =>
    rw [haffinity, hworkers, length_dropLast]
    exact h.forget _

/-- A key of a worker that can receive requests is remembered for it. -/
def Assigned (key : κ) (w : Nat) (s : Scheduler κ τ) : Prop :=
  workerCanReceive s.states w = true →
    ∃ assignment, s.affinity.assignments.get? key = some assignment ∧ assignment.workerIdx = w

/-- A step keeps a key that stays. -/
theorem step_assigned {key : κ} {w : Nat} (h : Assigned key w s) (hstays : Stays config key w s a)
    (hstep : step ρ config s a = some s') : Assigned key w s' := by
  obtain ⟨hcan, hkept⟩ := hstays
  obtain ⟨assignment, hget, rfl⟩ := h hcan
  intro hcan'
  cases step_affinity hstep with
  | unchanged _ haffinity => exact ⟨assignment, by rw [haffinity, hget], rfl⟩
  | routed key' now hkey haffinity =>
    obtain ⟨hexpires, hevicts⟩ := hkept key' now hkey
    have hrouted := groupAffinityRouting_routed ρ config.affinity s.states s.affinity key' now
    rw [haffinity]
    by_cases heq : key = key'
    · subst heq
      have hknown := groupAffinityRouting_known (ρ := ρ) hget hcan hexpires hevicts
      exact ⟨_, hrouted.remembers hknown, rfl⟩
    · refine ⟨assignment, ?_, rfl⟩
      rw [hrouted.other heq]
      exact get?_cleanup_kept hget hcan hexpires hevicts
  | removed _ haffinity hworkers =>
    refine ⟨assignment, ?_, rfl⟩
    have hlt := lt_of_workerCanReceive hcan'
    rw [length_states, hworkers, length_dropLast] at hlt
    rw [haffinity]
    exact get?_forgetWorkers.mpr ⟨hget, hlt⟩

/-- In every run, there is one key more than the bound at most, the workers of keys exist, and after
a request with a key has been routed to a worker, each later request with the key is routed to it,
as long as the worker can receive requests and the key neither expires nor is evicted. -/
theorem group_affinity (ρ : Type) [LoadRatio ρ] (config : RoutingConfig κ τ) (numWorkers : Nat)
    (initialConcurrency : Int) (start : τ) {s : Scheduler κ τ}
    (hs : Reaches (step ρ config) Always (Scheduler.init numWorkers initialConcurrency start) s) :
    s.affinity.assignments.entries.length ≤ config.affinity.maxKeys + 1 ∧
    (∀ key assignment, s.affinity.assignments.get? key = some assignment →
      assignment.workerIdx < s.workers.length) ∧
    (∀ a s₁ key now w, routedKey config s a = some (key, now) →
      routedTo ρ config s a = some w → step ρ config s a = some s₁ →
      ∀ s₂, Reaches (step ρ config) (Stays config key w) s₁ s₂ →
        ∀ a' now', routedKey config s₂ a' = some (key, now') → Stays config key w s₂ a' →
          routedTo ρ config s₂ a' = some w) := by
  have hremembers : Remembers config.affinity s.workers.length s.affinity := by
    refine hs.invariant ⟨zero_le, ?_⟩ fun s a s' h _ hstep => step_remembers h hstep
    intro key assignment hget
    cases hget
  refine ⟨hremembers.length_le, hremembers.exists_worker, ?_⟩
  intro a s₁ key now w hkey hw hstep s₂ hs₂ a' now' hkey' hstays
  have hassigned₁ : Assigned key w s₁ := by
    intro _
    cases step_affinity hstep with
    | unchanged hnone => rw [hnone] at hkey; cases hkey
    | removed hnone => rw [hnone] at hkey; cases hkey
    | routed key' now' hkey' haffinity =>
      rw [hkey'] at hkey
      cases hkey
      rw [routedTo_eq hkey'] at hw
      have hrouted := groupAffinityRouting_routed ρ config.affinity s.states s.affinity key now
      exact ⟨_, by rw [haffinity, hrouted.remembers hw], rfl⟩
  have hassigned : Assigned key w s₂ :=
    hs₂.invariant hassigned₁ fun s a s' h hok hstep => step_assigned h hok hstep
  obtain ⟨assignment, hget, rfl⟩ := hassigned hstays.1
  obtain ⟨hexpires, hevicts⟩ := hstays.2 key now' hkey'
  rw [routedTo_eq hkey']
  exact groupAffinityRouting_known hget hstays.1 hexpires hevicts

end Stickiness

/-- Two requests with a key go to one of two workers. -/
theorem group_affinity_two :
    let config : RoutingConfig String Int := ⟨true, ⟨30, 3600, 2⟩, fun _ _ => none⟩
    ∃ s s₁, Reaches (step ℚ config) Always (Scheduler.init 2 1 0) s ∧
      step ℚ config s (.turn 0 5) = some s₁ ∧ routedTo ℚ config s (.turn 0 5) = some 0 ∧
      routedTo ℚ config s₁ (.turn 1 6) = some 0 ∧ s₁.affinity.assignments.entries.length ≤ 3 ∧
      ∀ key assignment, s₁.affinity.assignments.get? key = some assignment →
        assignment.workerIdx < s₁.workers.length := by
  intro config
  obtain ⟨s, hs, hturns⟩ : ∃ s, Reaches (step ℚ config) Always (Scheduler.init 2 1 0) s ∧
      ((step ℚ config s (.turn 0 5)).any fun s₁ =>
        decide (routedKey config s (.turn 0 5) = some ("key", 5) ∧
          routedTo ℚ config s (.turn 0 5) = some 0 ∧
          routedKey config s₁ (.turn 1 6) = some ("key", 6) ∧
          workerCanReceive s₁.states 0 = true ∧ ¬cleanupDue config.affinity s₁.affinity 6)) = true :=
    exists_reaches [.submit ⟨some "key", none, false⟩, .submit ⟨some "key", none, false⟩]
      (by decide +kernel)
  obtain ⟨s₁, hstep, hfacts⟩ := (Option.any_eq_true _ _).mp hturns
  obtain ⟨hkey, hrouted, hkey₁, hcan, hdue⟩ := of_decide_eq_true hfacts
  have hstays : Stays config "key" 0 s₁ (.turn 1 6) := by
    refine ⟨hcan, fun key now h => ?_⟩
    rw [hkey₁] at h
    cases h
    exact ⟨fun h => hdue h.1, fun h => hdue h.1⟩
  obtain ⟨hlength, hworkers, -⟩ := group_affinity ℚ config 2 1 0 (.next hs trivial hstep)
  exact ⟨s, s₁, hs, hstep, hrouted, (group_affinity ℚ config 2 1 0 hs).2.2 _ _ _ _ _ hkey hrouted
    hstep s₁ .start _ _ hkey₁ hstays, hlength, hworkers⟩

end ArcticPlatform.Scheduling
