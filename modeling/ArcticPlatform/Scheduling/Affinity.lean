import ArcticPlatform.Library.Dict
import Mathlib.Algebra.Order.Field.Rat

/-!
# Routing by group affinity

An embedding of `WorkerState` and of the routing by key in
`inference/server/scheduler.py`: the worker of a key is remembered until it cannot
receive requests, until its key has not been used for long, or until there are too many
keys.

Times are values of any linear order with a subtraction, and ratios of loads are values of
any linear order; no law of either is used.

Main results:

- Theorem `groupAffinityRouting_known`: a key whose worker can receive requests, and that the
  cleanup keeps, is routed to it.
- Theorem `groupAffinityRouting_routed`: what a request does after the cleanup.
-/

namespace ArcticPlatform.Scheduling

open Dicts List

/-- `WorkerState`, without its handle and its statistics. -/
structure WorkerState where
  concurrencyLimit : Int
  activeRequests : Int
  available : Bool
  streamingRequests : Int
  quarantined : Bool

/-- `WorkerState(handle, concurrency_limit=max(1, limit))`. -/
def WorkerState.new (limit : Int) : WorkerState where
  concurrencyLimit := max 1 limit
  activeRequests := 0
  available := true
  streamingRequests := 0
  quarantined := false

/-- `schedulable`. -/
def WorkerState.schedulable (ws : WorkerState) : Bool := ws.available && !ws.quarantined

/-- `quarantine`. -/
def WorkerState.quarantine (ws : WorkerState) : WorkerState :=
  { ws with quarantined := true, available := false }

/-- Quotients of the numbers of requests by the limits. -/
class LoadRatio (ρ : Type) extends LinearOrder ρ where
  div : Int → Int → ρ

instance : LoadRatio ℚ where
  div a b := a / b

/-- `_AffinityAssignment`. -/
structure AffinityAssignment (τ : Type) where
  workerIdx : Nat
  lastUsed : τ
  deriving DecidableEq

/-- The constants of the routing: the time between cleanups, `_group_affinity_ttl_s` and
`_group_affinity_max_keys`. -/
structure AffinityConfig (τ : Type) where
  cleanupInterval : τ
  ttl : τ
  maxKeys : Nat

/-- What the scheduler remembers of keys. -/
structure Affinity (κ τ : Type) where
  assignments : Dict κ (AffinityAssignment τ)
  lastCleanup : τ
  nextWorkerIdx : Nat

section Model

variable {κ τ : Type} [DecidableEq κ] [LinearOrder τ] [Sub τ]

/-- `min(candidates, key=...)`: the first candidate that no other one is less than. -/
def firstMin (less : Nat → Nat → Bool) : List Nat → Option Nat
  | [] => none
  | i :: rest => some (rest.foldl (fun best j => if less j best then j else best) i)

/-- `_worker_can_receive_new_requests`. -/
def workerCanReceive (workers : List WorkerState) (idx : Nat) : Bool :=
  match workers[idx]? with
  | none => false
  | some ws => ws.schedulable && 0 < ws.concurrencyLimit

/-- The workers to choose from: those that can receive requests, or all of them. -/
def routingCandidates (workers : List WorkerState) : List Nat :=
  let candidates := (List.range workers.length).filter (workerCanReceive workers)
  if candidates = [] then List.range workers.length else candidates

/-- `active_requests / max(concurrency_limit, 1)` of a worker. -/
def loadRatio (ρ : Type) [LoadRatio ρ] (workers : List WorkerState) (idx : Nat) : ρ :=
  let ws := workers.getD idx (WorkerState.new 0)
  LoadRatio.div ws.activeRequests (max ws.concurrencyLimit 1)

/-- `_least_loaded_worker_idx`, without its update of `_next_group_affinity_worker_idx`. -/
def leastLoadedWorkerIdx (ρ : Type) [LoadRatio ρ] (workers : List WorkerState)
    (affinity : Affinity κ τ) : Option Nat :=
  let n := max workers.length 1
  let start := affinity.nextWorkerIdx % n
  let active i := (workers.getD i (WorkerState.new 0)).activeRequests
  let assigned (i : Nat) := affinity.assignments.entries.countP (·.2.workerIdx = i)
  let turn (i : Nat) := ((i : Int) - start) % n
  -- The order of the tuples: ratio, active requests, remembered keys, turn.
  let less (i j : Nat) : Bool := loadRatio ρ workers i < loadRatio ρ workers j ∨
    loadRatio ρ workers i = loadRatio ρ workers j ∧ (active i < active j ∨
      active i = active j ∧ (assigned i < assigned j ∨ assigned i = assigned j ∧ turn i < turn j))
  firstMin less (routingCandidates workers)

/-- The keys that `_cleanup_group_affinity_assignments` drops first: not used for long, or of a
worker that cannot receive requests. -/
def staleKeys (config : AffinityConfig τ) (workers : List WorkerState) (affinity : Affinity κ τ)
    (now : τ) : List κ :=
  (affinity.assignments.entries.filter fun item =>
    item.2.lastUsed < now - config.ttl ∨ ¬workerCanReceive workers item.2.workerIdx).map Prod.fst

/-- The keys that `_cleanup_group_affinity_assignments` drops when there are too many: those that
have not been used the longest. -/
def overflowKeys (config : AffinityConfig τ) (assignments : Dict κ (AffinityAssignment τ)) :
    List κ :=
  ((assignments.entries.mergeSort fun a b => a.2.lastUsed ≤ b.2.lastUsed).take
    (assignments.entries.length - config.maxKeys)).map Prod.fst

/-- A cleanup is due. -/
def cleanupDue (config : AffinityConfig τ) (affinity : Affinity κ τ) (now : τ) : Prop :=
  ¬(now - affinity.lastCleanup < config.cleanupInterval ∧
    affinity.assignments.entries.length ≤ config.maxKeys)

instance (config : AffinityConfig τ) (affinity : Affinity κ τ) (now : τ) :
    Decidable (cleanupDue config affinity now) := inferInstanceAs (Decidable (¬_))

/-- `_cleanup_group_affinity_assignments`. -/
def cleanup (config : AffinityConfig τ) (workers : List WorkerState) (affinity : Affinity κ τ)
    (now : τ) : Affinity κ τ :=
  if cleanupDue config affinity now then
    let fresh := affinity.assignments.eraseAll (staleKeys config workers affinity now)
    { affinity with
      lastCleanup := now
      assignments := fresh.eraseAll (overflowKeys config fresh) }
  else affinity

/-- The end of `_group_affinity_routing`: remember the least loaded worker for a key. -/
def assignLeastLoaded (ρ : Type) [LoadRatio ρ] (workers : List WorkerState)
    (affinity : Affinity κ τ) (key : κ) (now : τ) : Affinity κ τ × Option Nat :=
  match leastLoadedWorkerIdx ρ workers affinity with
  | none => (affinity, none)
  | some idx =>
    ({ affinity with
        assignments := affinity.assignments.set key ⟨idx, now⟩
        nextWorkerIdx := (idx + 1) % max workers.length 1 }, some idx)

/-- `_group_affinity_routing` of a request with a key: what is remembered then, and the worker,
if there is one. -/
def groupAffinityRouting (ρ : Type) [LoadRatio ρ] (config : AffinityConfig τ)
    (workers : List WorkerState) (affinity : Affinity κ τ) (key : κ) (now : τ) :
    Affinity κ τ × Option Nat :=
  let affinity := cleanup config workers affinity now
  match affinity.assignments.get? key with
  | some assignment =>
    if workerCanReceive workers assignment.workerIdx then
      ({ affinity with
          assignments := affinity.assignments.set key { assignment with lastUsed := now } },
        some assignment.workerIdx)
    else assignLeastLoaded ρ workers affinity key now
  | none => assignLeastLoaded ρ workers affinity key now

/-- `remove_last_worker`: forget the keys of workers that do not exist. -/
def forgetWorkers (affinity : Affinity κ τ) (numWorkers : Nat) : Affinity κ τ :=
  { affinity with
    assignments := affinity.assignments.eraseAll
      ((affinity.assignments.entries.filter fun item => numWorkers ≤ item.2.workerIdx).map
        Prod.fst) }

end Model

/-! ## Choices -/

theorem firstMin_mem {less : Nat → Nat → Bool} {candidates : List Nat} {idx : Nat}
    (h : firstMin less candidates = some idx) : idx ∈ candidates := by
  cases candidates with
  | nil => cases h
  | cons i rest =>
    cases h
    have hfold : ∀ (rest : List Nat) (best : Nat),
        rest.foldl (fun best j => if less j best then j else best) best ∈ best :: rest := by
      intro rest
      induction rest with
      | nil => exact fun best => mem_cons_self
      | cons j rest ih =>
        intro best
        rw [foldl_cons]
        rcases mem_cons.mp (ih (if less j best then j else best)) with heq | hmem
        · rw [heq]
          split_ifs
          · exact mem_cons_of_mem _ mem_cons_self
          · exact mem_cons_self
        · exact mem_cons_of_mem _ (mem_cons_of_mem _ hmem)
    exact hfold rest i

theorem lt_of_mem_routingCandidates {workers : List WorkerState} {idx : Nat}
    (h : idx ∈ routingCandidates workers) : idx < workers.length := by
  unfold routingCandidates at h
  dsimp only at h
  split_ifs at h
  · exact mem_range.mp h
  · exact mem_range.mp (mem_of_mem_filter h)

section Facts

variable {κ τ : Type} [DecidableEq κ] [LinearOrder τ] [Sub τ]
variable {ρ : Type} [LoadRatio ρ]
variable {config : AffinityConfig τ} {workers : List WorkerState} {affinity : Affinity κ τ}
variable {key : κ} {now : τ}

variable {idx : Nat}

omit [DecidableEq κ] [LinearOrder τ] [Sub τ] in
theorem leastLoadedWorkerIdx_lt (h : leastLoadedWorkerIdx ρ workers affinity = some idx) :
    idx < workers.length := lt_of_mem_routingCandidates (firstMin_mem h)

theorem lt_of_workerCanReceive (h : workerCanReceive workers idx = true) :
    idx < workers.length := by
  unfold workerCanReceive at h
  split at h
  · cases h
  · rename_i ws hws
    exact (List.getElem?_eq_some_iff.mp hws).1

/-! ## Cleanups -/

/-- The cleanup drops a key because it has not been used for long. -/
def expires (config : AffinityConfig τ) (affinity : Affinity κ τ) (key : κ) (now : τ) : Prop :=
  cleanupDue config affinity now ∧
    ∃ assignment ∈ affinity.assignments.get? key, assignment.lastUsed < now - config.ttl

/-- The cleanup drops a key because there are too many. -/
def evicts (config : AffinityConfig τ) (workers : List WorkerState) (affinity : Affinity κ τ)
    (key : κ) (now : τ) : Prop :=
  cleanupDue config affinity now ∧ key ∈ overflowKeys config
      (affinity.assignments.eraseAll (staleKeys config workers affinity now))

theorem mem_staleKeys_iff : key ∈ staleKeys config workers affinity now ↔
    ∃ assignment, affinity.assignments.get? key = some assignment ∧
      (assignment.lastUsed < now - config.ttl ∨
        ¬workerCanReceive workers assignment.workerIdx = true) := by
  simp only [staleKeys, mem_map, mem_filter, decide_eq_true_eq]
  constructor
  · rintro ⟨⟨k, assignment⟩, ⟨hmem, hstale⟩, rfl⟩
    exact ⟨assignment, affinity.assignments.get?_eq_some.mpr hmem, hstale⟩
  · rintro ⟨assignment, hget, hstale⟩
    exact ⟨(key, assignment), ⟨affinity.assignments.get?_eq_some.mp hget, hstale⟩, rfl⟩

variable {assignment : AffinityAssignment τ}

theorem get?_cleanup_of_some
    (h : (cleanup config workers affinity now).assignments.get? key = some assignment) :
    affinity.assignments.get? key = some assignment := by
  unfold cleanup at h
  split_ifs at h
  · dsimp only at h
    rw [Dict.get?_eraseAll, Dict.get?_eraseAll] at h
    split_ifs at h
    exact h
  · exact h

/-- A key is kept whose worker can receive requests, unless it expires or is evicted. -/
theorem get?_cleanup_kept (hget : affinity.assignments.get? key = some assignment)
    (hcan : workerCanReceive workers assignment.workerIdx = true)
    (hexpires : ¬expires config affinity key now)
    (hevicts : ¬evicts config workers affinity key now) :
    (cleanup config workers affinity now).assignments.get? key = some assignment := by
  unfold cleanup
  split_ifs with hdue
  · have hfresh : key ∉ staleKeys config workers affinity now := by
      intro hstale
      obtain ⟨assignment', hget', hreason⟩ := mem_staleKeys_iff.mp hstale
      rw [hget] at hget'
      cases hget'
      rcases hreason with hold | hcannot
      · exact hexpires ⟨hdue, assignment, hget, hold⟩
      · exact hcannot hcan
    dsimp only
    rw [Dict.get?_eraseAll, if_neg fun hover => hevicts ⟨hdue, hover⟩, Dict.get?_eraseAll,
      if_neg hfresh, hget]
  · exact hget

omit [DecidableEq κ] [Sub τ] in
theorem overflowKeys_nodup (config : AffinityConfig τ) (d : Dict κ (AffinityAssignment τ)) :
    (overflowKeys config d).Nodup := by
  unfold overflowKeys
  have hsorted : ((d.entries.mergeSort fun a b => a.2.lastUsed ≤ b.2.lastUsed).map Prod.fst).Nodup :=
    (((mergeSort_perm _ _).map Prod.fst).nodup_iff).mpr d.nodup
  exact hsorted.sublist ((take_sublist _ _).map Prod.fst)

omit [DecidableEq κ] [Sub τ] in
theorem mem_keys_of_mem_overflowKeys {d : Dict κ (AffinityAssignment τ)}
    (h : key ∈ overflowKeys config d) : key ∈ d.keys := by
  obtain ⟨item, hitem, rfl⟩ := mem_map.mp h
  exact mem_map_of_mem (mem_mergeSort.mp (mem_of_mem_take hitem))

theorem length_cleanup : (cleanup config workers affinity now).assignments.entries.length ≤
    config.maxKeys := by
  unfold cleanup
  split_ifs with hdue
  · dsimp only
    generalize affinity.assignments.eraseAll (staleKeys config workers affinity now) = fresh
    have hlength := fresh.length_eraseAll (overflowKeys_nodup config fresh) fun key hkey =>
      mem_keys_of_mem_overflowKeys hkey
    have hcount : (overflowKeys config fresh).length = fresh.entries.length - config.maxKeys := by
      rw [overflowKeys, length_map, length_take, length_mergeSort]
      omega
    omega
  · exact (not_not.mp hdue).2

/-! ## Requests -/

/-- A key whose worker can receive requests, and that neither expires nor is evicted, is routed
to it. -/
theorem groupAffinityRouting_known (hget : affinity.assignments.get? key = some assignment)
    (hcan : workerCanReceive workers assignment.workerIdx = true)
    (hexpires : ¬expires config affinity key now)
    (hevicts : ¬evicts config workers affinity key now) :
    (groupAffinityRouting ρ config workers affinity key now).2 = some assignment.workerIdx := by
  unfold groupAffinityRouting
  dsimp only
  rw [get?_cleanup_kept hget hcan hexpires hevicts]
  dsimp only
  rw [if_pos hcan]

/-- What a routing did: it remembered a worker for the key, or there was no worker. -/
def Routed (workers : List WorkerState) (kept : Affinity κ τ) (key : κ) (now : τ)
    (routed : Affinity κ τ × Option Nat) : Prop :=
  routed = (kept, none) ∨ ∃ idx < workers.length, ∃ next, routed = ({ kept with
      assignments := kept.assignments.set key ⟨idx, now⟩
      nextWorkerIdx := next }, some idx)

omit [LinearOrder τ] [Sub τ] in
theorem assignLeastLoaded_routed (kept : Affinity κ τ) :
    Routed workers kept key now (assignLeastLoaded ρ workers kept key now) := by
  unfold assignLeastLoaded
  split
  · exact .inl rfl
  · rename_i idx hidx
    exact .inr ⟨idx, leastLoadedWorkerIdx_lt hidx, _, rfl⟩

variable (ρ config workers affinity key now)

/-- Everything a request can do after the cleanup. -/
theorem groupAffinityRouting_routed : Routed workers (cleanup config workers affinity now) key now
    (groupAffinityRouting ρ config workers affinity key now) := by
  unfold groupAffinityRouting
  dsimp only
  split
  · rename_i assignment _
    split_ifs with hcan
    · exact .inr ⟨assignment.workerIdx, lt_of_workerCanReceive hcan, _, rfl⟩
    · exact assignLeastLoaded_routed _
  · exact assignLeastLoaded_routed _

variable {ρ config workers affinity key now}

variable {kept : Affinity κ τ} {routed : Affinity κ τ × Option Nat}

section

variable (h : Routed workers kept key now routed)
include h

section

omit [LinearOrder τ] [Sub τ]

theorem Routed.remembers (hidx : routed.2 = some idx) :
    routed.1.assignments.get? key = some ⟨idx, now⟩ := by
  rcases h with rfl | ⟨idx', -, next, rfl⟩
  · cases hidx
  · cases hidx
    exact Dict.get?_set_self _ _ _

theorem Routed.other {key' : κ} (hne : key' ≠ key) :
    routed.1.assignments.get? key' = kept.assignments.get? key' := by
  rcases h with rfl | ⟨idx, -, next, rfl⟩
  · rfl
  · exact Dict.get?_set_ne _ hne _

theorem Routed.length_le :
    routed.1.assignments.entries.length ≤ kept.assignments.entries.length + 1 := by
  rcases h with rfl | ⟨idx, -, next, rfl⟩
  · exact Nat.le_succ _
  · rw [← Dict.length_keys, Dict.keys_set, ← Dict.length_keys]
    split_ifs
    · exact Nat.le_succ _
    · rw [length_append, length_singleton]

end

end

/-! ## What holds of the keys -/

/-- There is one key more than the bound at most, and the workers of keys exist. -/
structure Remembers (config : AffinityConfig τ) (numWorkers : Nat) (affinity : Affinity κ τ) :
    Prop where
  length_le : affinity.assignments.entries.length ≤ config.maxKeys + 1
  exists_worker : ∀ key assignment, affinity.assignments.get? key = some assignment →
    assignment.workerIdx < numWorkers

theorem Remembers.route (h : Remembers config workers.length affinity) (key : κ) (now : τ) :
    Remembers config workers.length (groupAffinityRouting ρ config workers affinity key now).1 := by
  have hrouted := groupAffinityRouting_routed ρ config workers affinity key now
  constructor
  · exact hrouted.length_le.trans (Nat.succ_le_succ length_cleanup)
  · intro key' assignment hget
    by_cases hkey : key' = key
    · subst hkey
      rcases hrouted with heq | ⟨idx, hlt, next, heq⟩
      · rw [heq] at hget
        exact h.exists_worker _ _ (get?_cleanup_of_some hget)
      · rw [heq, Dict.get?_set_self] at hget
        cases hget
        exact hlt
    · rw [hrouted.other hkey] at hget
      exact h.exists_worker _ _ (get?_cleanup_of_some hget)

section

omit [LinearOrder τ] [Sub τ]

theorem get?_forgetWorkers {numWorkers : Nat} :
    (forgetWorkers affinity numWorkers).assignments.get? key = some assignment ↔
      affinity.assignments.get? key = some assignment ∧ assignment.workerIdx < numWorkers := by
  have hforgotten : key ∈ ((affinity.assignments.entries.filter fun item =>
      numWorkers ≤ item.2.workerIdx).map Prod.fst) ↔
      ∃ a, affinity.assignments.get? key = some a ∧ numWorkers ≤ a.workerIdx := by
    simp only [mem_map, mem_filter, decide_eq_true_eq]
    constructor
    · rintro ⟨⟨k, a⟩, ⟨hmem, hle⟩, rfl⟩
      exact ⟨a, affinity.assignments.get?_eq_some.mpr hmem, hle⟩
    · rintro ⟨a, hget, hle⟩
      exact ⟨(key, a), ⟨affinity.assignments.get?_eq_some.mp hget, hle⟩, rfl⟩
  rw [forgetWorkers, Dict.get?_eraseAll]
  simp only [hforgotten]
  constructor
  · intro h
    split_ifs at h with hgone
    refine ⟨h, ?_⟩
    by_contra hnot
    exact hgone ⟨assignment, h, le_of_not_gt hnot⟩
  · rintro ⟨hget, hlt⟩
    rw [if_neg, hget]
    rintro ⟨a, ha, hle⟩
    rw [hget] at ha
    cases ha
    omega

theorem length_forgetWorkers (numWorkers : Nat) :
    (forgetWorkers affinity numWorkers).assignments.entries.length ≤
      affinity.assignments.entries.length := by
  have hsublist := filter_sublist (p := fun item : κ × AffinityAssignment τ =>
    numWorkers ≤ item.2.workerIdx) (l := affinity.assignments.entries)
  have hlength := affinity.assignments.length_eraseAll
    (affinity.assignments.nodup.sublist (hsublist.map Prod.fst))
    fun key hkey => (hsublist.map Prod.fst).mem hkey
  exact Nat.le.intro hlength

theorem Remembers.forget (h : Remembers config workers.length affinity) (numWorkers : Nat) :
    Remembers config numWorkers (forgetWorkers affinity numWorkers) := by
  constructor
  · exact (length_forgetWorkers numWorkers).trans h.length_le
  · intro key assignment hget
    exact (get?_forgetWorkers.mp hget).2

end

end Facts

end ArcticPlatform.Scheduling
