import ArcticPlatform.Library.Dict
import ArcticPlatform.Library.Runs
import Mathlib.Data.List.Nodup

/-!
# Slots of the replicas in a pod

A replica takes its ports and its image directory from its slot, which numbers the replicas of a
pod.  The pool knows the pod of a worker if it can read the node id of the worker.  A step of a
call goes from one of its awaits to the next; calls come one after the other.

Main results:

- Theorem `nodeSlots_nodup`: the slots that are numbered at the start.
- Theorem `freeSlot_not_mem`: the slot that a new worker gets.
- Theorem `Inv.step`: what every step keeps.
- Theorem `nodeSlots_sound`: the lists of the pool and the slots of its workers in every run.
-/

namespace ArcticPlatform.ReplicaPool.NodeSlots

open Dicts Runs List
open Option hiding map_map mem_map

variable {π : Type} [DecidableEq π]

/-! ## Choosing slots -/

/-- The loop of `_node_slots`: the replicas of each node so far, and the slots. -/
def countNode (acc : Dict (Option π) Nat × List Nat) (node : Option π) :
    Dict (Option π) Nat × List Nat :=
  let n := (acc.1.get? node).getD 0
  (acc.1.set node (n + 1), acc.2 ++ [n])

/-- `_node_slots` -/
def nodeSlots (nodeIds : List (Option π)) : List (Nat × Nat) :=
  let counted := nodeIds.foldl countNode (Dict.empty, [])
  (counted.2.zip nodeIds).map fun e => (e.1, (counted.1.get? e.2).getD 0)

/-- The loop of `_free_slot`. -/
def nextFree (taken : List Nat) : Nat → Nat → Nat
  | 0, slot => slot
  | fuel + 1, slot => if slot ∈ taken then nextFree taken fuel (slot + 1) else slot

/-- `_free_slot`; the loop ends after at most as many turns as slots are taken. -/
def freeSlot (taken : List Nat) (preferred : Option Nat) : Nat :=
  match preferred with
  | some slot => if slot ∉ taken then slot else nextFree taken taken.length 0
  | none => nextFree taken taken.length 0

/-! ## The pool -/

/-- A worker actor; `slot` is the one in its environment. -/
structure Replica (π : Type) where
  handle : Nat
  pod : π
  /-- Its node id can be read. -/
  readable : Bool
  alive : Bool
  slot : Option Nat
  deriving DecidableEq

/-- `ray.kill` -/
def Replica.kill (w : Replica π) : Replica π := { w with alive := false }

/-- A worker that is being built, with its node and slot. -/
structure Placed (π : Type) where
  worker : Replica π
  node : Option π
  slot : Nat
  deriving DecidableEq

/-- The call that has the lock. -/
inductive Call (π : Type) where
  | idle
  | initializing (numbered : Bool)
  | scalingUp (target : Int) (new : Option (Placed π))
  | scalingDown (target : Int)
  | restarting (idx : Nat) (new : Placed π)
  deriving DecidableEq

structure Pool (π : Type) where
  multiNode : Bool
  configured : Bool
  workers : List (Replica π)
  slots : List (Option π × Nat)
  scheduler : Option (List Nat)
  call : Call π
  nextHandle : Nat

/-- A pool before `initialize`. -/
def init : Pool π := ⟨false, false, [], [], none, .idle, 0⟩

/-- Where an actor lands, and whether its node id can be read. -/
structure Placement (π : Type) where
  pod : π
  readable : Bool

namespace Pool

/-- `_worker_node_id` -/
def nodeOf (s : Pool π) (w : Replica π) : Option π :=
  if s.multiNode || !w.readable then none else some w.pod

/-- `_make_worker` -/
def makeWorker (s : Pool π) (p : Placement π) : Replica π :=
  ⟨s.nextHandle, p.pod, p.readable, true, none⟩

/-- The slots of a node, apart from that of a worker that is replaced. -/
def taken (s : Pool π) (node : Option π) (replacing : Option Nat) : List Nat :=
  ((s.slots.zipIdx.filter fun e => e.1.1 = node ∧ some e.2 ≠ replacing).map (·.1.2)).dedup

/-- `_place_new_worker`, with the number of replicas in the pod. -/
def placeNewWorker (s : Pool π) (worker : Replica π) (preferred replacing : Option Nat) :
    Option π × Nat × Nat :=
  let node := s.nodeOf worker
  let taken := s.taken node replacing
  (node, freeSlot taken preferred, taken.length + 1)

/-- A worker that is sent its environment. -/
def build (s : Pool π) (p : Placement π) (preferred replacing : Option Nat) : Placed π :=
  let worker := s.makeWorker p
  let placed := s.placeNewWorker worker preferred replacing
  ⟨{ worker with slot := some placed.2.1 }, placed.1, placed.2.1⟩

/-- The worker of a placement-group restart. -/
def buildCoordinator (s : Pool π) (p : Placement π) : Placed π :=
  ⟨{ s.makeWorker p with slot := some 0 }, none, 0⟩

end Pool

/-- What happens between two awaits. -/
inductive Act (π : Type) where
  /-- `initialize` makes its workers. -/
  | makeWorkers (multiNode : Bool) (placements : List (Placement π))
  /-- The node ids are read, and the workers are sent their environments. -/
  | numberWorkers
  | initialized
  /-- `initialize` fails or is cancelled, and cleans up. -/
  | startFails
  /-- The clean-up of a failed `initialize` is cancelled itself. -/
  | cleanupCancelled
  | scaleUp (target : Int)
  /-- A turn of the loop of `scale_up` makes a worker and sends it its environment. -/
  | placeWorker (placement : Placement π)
  | scaleDown (target : Int)
  /-- A turn of the loop of `scale_down`, whose awaits may fail. -/
  | removeWorker (fails : Bool)
  /-- `_restart_worker` kills the old worker, and sends the new one its environment. -/
  | restart (idx : Nat) (placement : Placement π)
  /-- The worker that is built is ready. -/
  | workerReady
  /-- The worker that is built fails, or the call is cancelled. -/
  | fails
  /-- The loop of a call ends. -/
  | returns

/-- The steps. -/
def step (s : Pool π) : Act π → Option (Pool π)
  | .makeWorkers multiNode placements =>
    match s.call with
    | .idle =>
      if s.configured ∨ (multiNode ∧ placements.length ≠ 1) then none
      else some { s with
        multiNode := multiNode
        configured := true
        workers := placements.mapIdx fun i p => ⟨s.nextHandle + i, p.pod, p.readable, true, none⟩
        call := .initializing false
        nextHandle := s.nextHandle + placements.length }
    | _ => none
  | .numberWorkers =>
    match s.call with
    | .initializing false =>
      let nodeIds := s.workers.map s.nodeOf
      let slots := nodeSlots nodeIds
      some { s with
        workers := (s.workers.zip slots).map fun e => { e.1 with slot := some e.2.1 }
        slots := (nodeIds.zip slots).map fun e => (e.1, e.2.1)
        call := .initializing true }
    | _ => none
  | .initialized =>
    match s.call with
    | .initializing true =>
      some { s with scheduler := some (s.workers.map (·.handle)), call := .idle }
    | _ => none
  | .startFails =>
    match s.call with
    | .initializing _ => some { s with
        multiNode := false
        configured := false
        workers := []
        slots := []
        call := .idle }
    | _ => none
  | .cleanupCancelled =>
    match s.call with
    | .initializing _ =>
      some { s with workers := s.workers.map Replica.kill, call := .idle }
    | _ => none
  | .scaleUp target =>
    match s.call with
    | .idle =>
      if (s.multiNode ∧ target ≠ 1) ∨ s.scheduler = none then none
      else some { s with call := .scalingUp target none }
    | _ => none
  | .placeWorker p =>
    match s.call with
    | .scalingUp target none =>
      if (s.workers.length : Int) < target then
        some { s with
          call := .scalingUp target (some (s.build p none none))
          nextHandle := s.nextHandle + 1 }
      else none
    | _ => none
  | .scaleDown target =>
    match s.call with
    | .idle =>
      if target < 0 ∨ (s.multiNode ∧ target ≠ 1) ∨ s.scheduler = none then none
      else some { s with call := .scalingDown target }
    | _ => none
  | .removeWorker fails =>
    match s.call, s.scheduler with
    | .scalingDown target, some handles =>
      if target < s.workers.length then
        let workers := s.workers.dropLast
        some { s with
          workers := workers
          slots := if workers.length < s.slots.length then s.slots.dropLast else s.slots
          scheduler := some handles.dropLast
          call := if fails then .idle else .scalingDown target }
      else none
    | _, _ => none
  | .restart idx p =>
    match s.call with
    | .idle =>
      if idx < s.workers.length then
        let preferred := match s.slots[idx]? with
          | some old => old.2
          | none => idx
        let new := if s.multiNode then s.buildCoordinator p else s.build p (some preferred) (some idx)
        some { s with
          workers := s.workers.modify idx Replica.kill
          call := .restarting idx new
          nextHandle := s.nextHandle + 1 }
      else none
    | _ => none
  | .workerReady =>
    match s.call with
    | .scalingUp target (some new) =>
      match s.scheduler with
      | none => some { s with call := .idle }
      | some handles => some { s with
          workers := s.workers ++ [new.worker]
          slots := s.slots ++ [(new.node, new.slot)]
          scheduler := some (handles ++ [new.worker.handle])
          call := .scalingUp target none }
    | .restarting idx new => some { s with
        workers := s.workers.set idx new.worker
        slots := s.slots.set idx (new.node, new.slot)
        scheduler := s.scheduler.map fun handles => handles.set idx new.worker.handle
        call := .idle }
    | _ => none
  | .fails =>
    match s.call with
    | .scalingUp _ _ | .restarting _ _ => some { s with call := .idle }
    | _ => none
  | .returns =>
    match s.call with
    | .scalingUp target none =>
      if (s.workers.length : Int) < target then none else some { s with call := .idle }
    | .scalingDown target =>
      if target < s.workers.length then none else some { s with call := .idle }
    | _ => none

/-! ## What the pool owes -/

/-- The worker that is being built. -/
def Call.building : Call π → Option (Placed π)
  | .scalingUp _ new => new
  | .restarting _ new => some new
  | _ => none

/-- Two live workers of one pod have different slots. -/
def Apart (w w' : Replica π) : Prop :=
  w.alive → w'.alive → w.pod = w'.pod → w.slot.isSome → w.slot ≠ w'.slot

/-- The lists of the pool have the same workers in the same order, and no two live workers of a pod
hold the same slot. -/
structure Sound (s : Pool π) : Prop where
  slots : (∀ numbered, s.call ≠ .initializing numbered) →
    s.slots.map (fun e => (e.1, some e.2)) = s.workers.map fun w => (s.nodeOf w, w.slot)
  scheduler : (∀ numbered, s.call ≠ .initializing numbered) →
    s.scheduler.getD [] = s.workers.map (·.handle)
  apart : (s.workers ++ s.call.building.toList.map (·.worker)).Pairwise Apart

/-- The node ids of a pod's workers can be read, or none of them can. -/
def Agrees (p : Placement π) (w : Replica π) : Prop :=
  w.alive → w.pod = p.pod → w.readable = p.readable

/-- A worker whose node id cannot be read shares its pod with no live worker whose id has been
read, and the clean-up of a failed `initialize` runs to its end. -/
def Guarded (s : Pool π) : Act π → Prop
  | .makeWorkers multiNode placements => multiNode = false →
      ∀ p ∈ placements, ∀ q ∈ placements, p.pod = q.pod → p.readable = q.readable
  | .placeWorker p => s.multiNode = false → ∀ w ∈ s.workers, Agrees p w
  | .restart idx p => s.multiNode = false → ∀ w ∈ s.workers.eraseIdx idx, Agrees p w
  | .cleanupCancelled => False
  | _ => True

/-! ## Slots that are free -/

section Slots

variable (nodeIds : List (Option π))

theorem foldl_countNode :
    ∃ counts slots, nodeIds.foldl countNode (Dict.empty, []) = (counts, slots) ∧
      (∀ node, (counts.get? node).getD 0 = nodeIds.count node) ∧
      slots.length = nodeIds.length ∧ (nodeIds.zip slots).Nodup ∧
      ∀ e ∈ nodeIds.zip slots, e.2 < nodeIds.count e.1 := by
  induction nodeIds using List.reverseRecOn with
  | nil => exact ⟨Dict.empty, [], rfl, fun _ => rfl, rfl, nodup_nil, by simp⟩
  | append_singleton nodeIds node ih =>
    obtain ⟨counts, slots, hrun, hcounts, hlength, hnodup, hlt⟩ := ih
    refine ⟨counts.set node (nodeIds.count node + 1), slots ++ [nodeIds.count node], ?_, ?_, ?_, ?_, ?_⟩
    · rw [foldl_append, hrun, foldl_cons, foldl_nil, countNode, hcounts]
    · intro node'
      rw [Dict.get?_set, count_append, count_singleton]
      by_cases h : node' = node
      · subst h
        simp
      · rw [if_neg h, hcounts]
        simp [Ne.symm h]
    · rw [length_append, length_append, hlength]
      rfl
    · rw [zip_append hlength.symm, zip_cons_cons, zip_nil_left, nodup_append]
      refine ⟨hnodup, nodup_singleton _, ?_⟩
      rintro e he e' he' rfl
      rw [mem_singleton.mp he'] at he
      exact lt_irrefl _ (hlt _ he)
    · intro e he
      rw [zip_append hlength.symm, zip_cons_cons, zip_nil_left] at he
      rw [count_append]
      rcases mem_append.mp he with he | he
      · exact (hlt e he).trans_le (Nat.le_add_right _ _)
      · rw [mem_singleton.mp he]
        simp

theorem length_nodeSlots : (nodeSlots nodeIds).length = nodeIds.length := by
  obtain ⟨counts, slots, hrun, -, hlength, -⟩ := foldl_countNode nodeIds
  simp [nodeSlots, hrun, hlength]

/-- No two workers of a node get the same number. -/
theorem nodeSlots_nodup : ((nodeIds.zip (nodeSlots nodeIds)).map fun e => (e.1, e.2.1)).Nodup := by
  obtain ⟨counts, slots, hrun, -, hlength, hnodup, -⟩ := foldl_countNode nodeIds
  have hslots : (nodeSlots nodeIds).map Prod.fst = slots := by
    rw [nodeSlots, hrun, map_map]
    exact map_fst_zip hlength.le
  have hzip : ((nodeIds.zip (nodeSlots nodeIds)).map fun e => (e.1, e.2.1)) = nodeIds.zip slots := by
    rw [← hslots, zip_map_right]
    rfl
  rwa [hzip]

omit [DecidableEq π] in
theorem nextFree_not_mem {taken : List Nat} (fuel slot : Nat) (hlength : taken.length ≤ fuel + slot)
    (hbelow : ∀ k < slot, k ∈ taken) : nextFree taken fuel slot ∉ taken := by
  induction fuel generalizing slot with
  | zero =>
    intro hmem
    rw [nextFree] at hmem
    have hsub : List.range (slot + 1) ⊆ taken := by
      intro k hk
      rcases Nat.lt_succ_iff_lt_or_eq.mp (mem_range.mp hk) with hk | rfl
      · exact hbelow k hk
      · exact hmem
    have hle := (nodup_range.subperm hsub).length_le
    rw [length_range] at hle
    omega
  | succ fuel ih =>
    rw [nextFree]
    split_ifs with h
    · refine ih (slot + 1) (by omega) fun k hk => ?_
      rcases Nat.lt_succ_iff_lt_or_eq.mp hk with hk | rfl
      · exact hbelow k hk
      · exact h
    · exact h

omit [DecidableEq π] in
/-- The slot of a new worker is free. -/
theorem freeSlot_not_mem (taken : List Nat) (preferred : Option Nat) :
    freeSlot taken preferred ∉ taken := by
  have hloop := @nextFree_not_mem taken taken.length 0 le_rfl (by simp)
  cases preferred with
  | none => exact hloop
  | some slot =>
    rw [freeSlot]
    split_ifs with h
    · exact hloop
    · exact h

variable {s : Pool π}

theorem mem_taken {node : Option π} {replacing : Option Nat} {slot : Nat} :
    slot ∈ s.taken node replacing ↔ ∃ i : Nat, s.slots[i]? = some (node, slot) ∧ some i ≠ replacing := by
  rw [Pool.taken, mem_dedup, mem_map]
  constructor
  · rintro ⟨⟨⟨node', slot'⟩, i⟩, he, rfl⟩
    obtain ⟨hmem, hcond⟩ := mem_filter.mp he
    have hcond' : node' = node ∧ some i ≠ replacing := of_decide_eq_true hcond
    exact ⟨i, hcond'.1 ▸ mk_mem_zipIdx_iff_getElem?.mp hmem, hcond'.2⟩
  · rintro ⟨i, hi, hne⟩
    exact ⟨((node, slot), i), mem_filter.mpr
      ⟨mk_mem_zipIdx_iff_getElem?.mpr hi, decide_eq_true ⟨rfl, hne⟩⟩, rfl⟩

theorem build_free (s : Pool π) (p : Placement π) (preferred replacing : Option Nat) (i : Nat)
    (hi : some i ≠ replacing) :
    s.slots[i]? ≠ some ((s.build p preferred replacing).node, (s.build p preferred replacing).slot) :=
  fun h => freeSlot_not_mem _ _ (mem_taken.mpr ⟨i, h, hi⟩)

end Slots

/-! ## The invariant -/

/-- The slots and the scheduler have the workers of the pool. -/
structure Settled (s : Pool π) : Prop where
  slots : s.slots.map (fun e => (e.1, some e.2)) = s.workers.map fun w => (s.nodeOf w, w.slot)
  scheduler : s.scheduler.getD [] = s.workers.map (·.handle)

/-- The worker that is built has a node and a slot, and the live workers of its pod have its node. -/
structure Building (s : Pool π) (new : Placed π) : Prop where
  node : new.node = s.nodeOf new.worker
  slot : new.worker.slot = some new.slot
  agrees : ∀ w ∈ s.workers, w.alive → w.pod = new.worker.pod → s.nodeOf w = new.node

/-- What a call keeps at its awaits. -/
def CallOk (s : Pool π) : Call π → Prop
  | .idle | .scalingDown _ => Settled s
  | .initializing false => s.configured = true ∧ s.scheduler = none ∧ s.slots = [] ∧
      ∀ w ∈ s.workers, w.slot = none
  | .initializing true => s.configured = true ∧ s.scheduler = none ∧
      s.slots.map (fun e => (e.1, some e.2)) = s.workers.map fun w => (s.nodeOf w, w.slot)
  | .scalingUp target none => Settled s ∧ (s.multiNode → target = 1)
  | .scalingUp target (some new) => Settled s ∧ (s.multiNode → target = 1) ∧ Building s new ∧
      s.workers.length < target ∧ ∀ i : Nat, s.slots[i]? ≠ some (new.node, new.slot)
  | .restarting idx new => Settled s ∧ Building s new ∧
      (∀ w, s.workers[idx]? = some w → w.alive = false) ∧
      ∀ i : Nat, i ≠ idx → s.slots[i]? ≠ some (new.node, new.slot)

/-- What holds between the steps. -/
structure Inv (s : Pool π) : Prop where
  nodup : s.slots.Nodup
  known : ∀ w ∈ s.workers, ∀ w' ∈ s.workers, w.alive → w'.alive → w.pod = w'.pod →
    s.nodeOf w = s.nodeOf w'
  multi : s.multiNode → s.workers.length ≤ 1
  fresh : s.configured = false → s.scheduler = none ∧ s.slots = []
  call : CallOk s s.call

section Steps

variable {s s' : Pool π}

omit [DecidableEq π] in
theorem inv_init : Inv (init : Pool π) := by
  constructor
  · exact nodup_nil
  · simp [init]
  · simp [init]
  · simp [init]
  · exact ⟨rfl, rfl⟩

variable {w : Replica π}

omit [DecidableEq π] in
theorem mem_numbered {workers : List (Replica π)} {slots : List (Nat × Nat)}
    (h : w ∈ (workers.zip slots).map fun e => { e.1 with slot := some e.2.1 }) :
    ∃ old ∈ workers, old.alive = w.alive ∧ old.pod = w.pod ∧ old.readable = w.readable := by
  obtain ⟨e, he, rfl⟩ := mem_map.mp h
  exact ⟨e.1, (of_mem_zip he).1, rfl, rfl, rfl⟩

theorem Inv.makeWorkers (h : Inv s) {multiNode : Bool} {placements : List (Placement π)}
    (hguard : Guarded s (.makeWorkers multiNode placements))
    (hstep : step s (.makeWorkers multiNode placements) = some s') : Inv s' := by
  simp only [step] at hstep
  split at hstep
  · split_ifs at hstep with hcond
    cases hstep
    rw [not_or, not_and, not_not] at hcond
    have hnew : s.configured = false := by simpa using hcond.1
    obtain ⟨hscheduler, hslots⟩ := h.fresh hnew
    have hmem : ∀ w ∈ placements.mapIdx (fun i p =>
        (⟨s.nextHandle + i, p.pod, p.readable, true, none⟩ : Replica π)),
        ∃ p ∈ placements, w.pod = p.pod ∧ w.readable = p.readable ∧ w.slot = none := by
      intro w hw
      obtain ⟨i, hi, rfl⟩ := mem_mapIdx.mp hw
      exact ⟨placements[i], getElem_mem hi, rfl, rfl, rfl⟩
    constructor
    · exact h.nodup
    · intro w hw w' hw' _ _ hpod
      obtain ⟨p, hp, hwp, hwr, -⟩ := hmem w hw
      obtain ⟨q, hq, hwq, hwr', -⟩ := hmem w' hw'
      cases multiNode with
      | true => rfl
      | false =>
        have hread := hguard rfl p hp q hq (by rw [← hwp, ← hwq, hpod])
        simp [Pool.nodeOf, hpod, hwr, hwr', hread]
    · intro hmulti
      have hone := hcond.2 hmulti
      simp [hone]
    · intro hfalse
      cases hfalse
    · exact ⟨rfl, hscheduler, hslots, fun w hw => (hmem w hw).choose_spec.2.2.2⟩
  · cases hstep

theorem Inv.numberWorkers (h : Inv s) (hstep : step s .numberWorkers = some s') : Inv s' := by
  simp only [step] at hstep
  split at hstep
  · rename_i hcall
    cases hstep
    have hok := h.call
    rw [hcall] at hok
    have hlength := length_nodeSlots (s.workers.map s.nodeOf)
    rw [length_map] at hlength
    constructor
    · exact nodeSlots_nodup _
    · intro w hw w' hw' halive halive' hpod
      obtain ⟨old, hold, ha, hp, hr⟩ := mem_numbered hw
      obtain ⟨old', hold', ha', hp', hr'⟩ := mem_numbered hw'
      have hnode := h.known old hold old' hold' (ha ▸ halive) (ha' ▸ halive')
        (by rw [hp, hp', hpod])
      simp only [Pool.nodeOf, hp, hr, hp', hr'] at hnode ⊢
      exact hnode
    · intro hmulti
      have hle := h.multi hmulti
      simpa [hlength] using hle
    · intro hnew
      rw [hok.1] at hnew
      cases hnew
    · refine ⟨hok.1, hok.2.1, ?_⟩
      rw [map_map, map_map, zip_map_left, map_map]
      rfl
  · cases hstep

theorem Inv.initialized (h : Inv s) (hstep : step s .initialized = some s') : Inv s' := by
  simp only [step] at hstep
  split at hstep
  · rename_i hcall
    cases hstep
    have hok := h.call
    rw [hcall] at hok
    obtain ⟨hconfigured, -, hslots⟩ := hok
    refine ⟨h.nodup, h.known, h.multi, ?_, hslots, rfl⟩
    intro hnew
    rw [hconfigured] at hnew
    cases hnew
  · cases hstep

theorem Inv.startFails (h : Inv s) (hstep : step s .startFails = some s') : Inv s' := by
  simp only [step] at hstep
  split at hstep
  · rename_i numbered hcall
    cases hstep
    have hok := h.call
    rw [hcall] at hok
    have hscheduler : s.scheduler = none := by
      cases numbered with
      | false => exact hok.2.1
      | true => exact hok.2.1
    refine ⟨nodup_nil, by simp, by simp, fun _ => ⟨hscheduler, rfl⟩, rfl, ?_⟩
    rw [hscheduler]
    rfl
  · cases hstep

theorem Inv.scaleUp (h : Inv s) {target : Int} (hstep : step s (.scaleUp target) = some s') :
    Inv s' := by
  simp only [step] at hstep
  split at hstep
  · rename_i hcall
    split_ifs at hstep with hcond
    cases hstep
    have hok := h.call
    rw [hcall] at hok
    refine ⟨h.nodup, h.known, h.multi, h.fresh, ⟨hok.slots, hok.scheduler⟩, fun hmulti => ?_⟩
    by_contra hne
    exact hcond (.inl ⟨hmulti, hne⟩)
  · cases hstep

omit [DecidableEq π] in
theorem building_of_agrees {s : Pool π} (new : Placed π) (p : Placement π)
    (hnode : new.node = s.nodeOf new.worker) (hslot : new.worker.slot = some new.slot)
    (hpod : new.worker.pod = p.pod) (hread : new.worker.readable = p.readable)
    (hagrees : s.multiNode = false → ∀ w ∈ s.workers, Agrees p w) : Building s new := by
  refine ⟨hnode, hslot, fun w hw halive hsame => ?_⟩
  rw [hnode]
  cases hmulti : s.multiNode with
  | true => simp [Pool.nodeOf, hmulti]
  | false =>
    have hwr := hagrees hmulti w hw halive (hsame.trans hpod)
    simp [Pool.nodeOf, hsame, hwr, hread]

variable {p : Placement π}

theorem Inv.placeWorker (h : Inv s) (hguard : Guarded s (.placeWorker p))
    (hstep : step s (.placeWorker p) = some s') : Inv s' := by
  simp only [step] at hstep
  split at hstep
  · rename_i target hcall
    split_ifs at hstep with hlt
    cases hstep
    have hok := h.call
    rw [hcall] at hok
    obtain ⟨hsettled, htarget⟩ := hok
    have hbuilding : Building s (s.build p none none) :=
      building_of_agrees _ p rfl rfl rfl rfl hguard
    exact ⟨h.nodup, h.known, h.multi, h.fresh, ⟨hsettled.slots, hsettled.scheduler⟩, htarget,
      ⟨hbuilding.node, hbuilding.slot, hbuilding.agrees⟩, hlt,
      fun i => build_free s p none none i (by simp)⟩
  · cases hstep

theorem Inv.scaleDown (h : Inv s) {target : Int} (hstep : step s (.scaleDown target) = some s') :
    Inv s' := by
  simp only [step] at hstep
  split at hstep
  · rename_i hcall
    split_ifs at hstep
    cases hstep
    have hok := h.call
    rw [hcall] at hok
    exact ⟨h.nodup, h.known, h.multi, h.fresh, hok.slots, hok.scheduler⟩
  · cases hstep

theorem Inv.removeWorker (h : Inv s) {fails : Bool}
    (hstep : step s (.removeWorker fails) = some s') : Inv s' := by
  simp only [step] at hstep
  split at hstep
  · rename_i target handles hcall hscheduler
    by_cases hlt : target < s.workers.length
    swap
    · rw [if_neg hlt] at hstep
      cases hstep
    rw [if_pos hlt] at hstep
    have hok := h.call
    rw [hcall] at hok
    have hlength := congrArg List.length hok.slots
    have hhandles := hok.scheduler
    rw [hscheduler, getD_some] at hhandles
    rw [length_map, length_map] at hlength
    have hpop : s.workers.dropLast.length < s.slots.length ∨ s.workers = [] := by
      rw [length_dropLast, hlength]
      rcases Nat.eq_zero_or_pos s.workers.length with hzero | hpos
      · exact .inr (eq_nil_of_length_eq_zero hzero)
      · exact .inl (by omega)
    have hslots : (if s.workers.dropLast.length < s.slots.length then s.slots.dropLast else s.slots) =
        s.slots.dropLast := by
      split_ifs with hcond
      · rfl
      · have hnil := hpop.resolve_left hcond
        rw [hnil, length_nil] at hlength
        rw [eq_nil_of_length_eq_zero hlength]
        rfl
    have hsettled : Settled { s with
        workers := s.workers.dropLast
        slots := s.slots.dropLast
        scheduler := some handles.dropLast } := by
      constructor
      · have hdrop := congrArg List.dropLast hok.slots
        rwa [← map_dropLast, ← map_dropLast] at hdrop
      · simp only [getD_some, hhandles, map_dropLast]
    have hsub := dropLast_sublist s.workers
    rw [hslots] at hstep
    cases hstep
    refine ⟨h.nodup.sublist (dropLast_sublist _), ?_, ?_, ?_, ?_⟩
    · exact fun w hw w' hw' => h.known w (hsub.subset hw) w' (hsub.subset hw')
    · exact fun hmulti => hsub.length_le.trans (h.multi hmulti)
    · intro hnew
      rw [(h.fresh hnew).1] at hscheduler
      cases hscheduler
    · cases fails with
      | true => exact ⟨hsettled.slots, hsettled.scheduler⟩
      | false => exact ⟨hsettled.slots, hsettled.scheduler⟩
  · cases hstep

variable {idx : Nat}

omit [DecidableEq π] in
theorem mem_modify_kill {workers : List (Replica π)} (hw : w ∈ workers.modify idx Replica.kill)
    (halive : w.alive) : ∃ i : Nat, i ≠ idx ∧ workers[i]? = some w := by
  obtain ⟨i, hi⟩ := mem_iff_getElem?.mp hw
  rw [getElem?_modify] at hi
  obtain ⟨old, hold, hw⟩ := map_eq_some_iff.mp hi
  by_cases heq : idx = i
  · rw [if_pos heq] at hw
    rw [← hw] at halive
    cases halive
  · rw [if_neg heq] at hw
    exact ⟨i, Ne.symm heq, hw ▸ hold⟩

omit [DecidableEq π] in
theorem map_modify_kill {β : Type} {f : Replica π → β} (hf : ∀ w : Replica π, f w.kill = f w)
    (workers : List (Replica π)) (idx : Nat) :
    (workers.modify idx Replica.kill).map f = workers.map f := by
  induction workers generalizing idx with
  | nil => cases idx <;> rfl
  | cons w workers ih =>
    cases idx with
    | zero => simp [hf]
    | succ idx => simp [ih]

theorem building_restart (h : Inv s) (hok : Settled s) (hguard : Guarded s (.restart idx p))
    (hidx : idx < s.workers.length) (preferred : Nat) :
    let new := if s.multiNode then s.buildCoordinator p else s.build p (some preferred) (some idx)
    new.node = s.nodeOf new.worker ∧ new.worker.slot = some new.slot ∧
      (∀ (i : Nat) (w : Replica π), i ≠ idx → s.workers[i]? = some w → w.alive →
        w.pod = new.worker.pod → s.nodeOf w = new.node) ∧
      ∀ i : Nat, i ≠ idx → s.slots[i]? ≠ some (new.node, new.slot) := by
  cases hmulti : s.multiNode with
  | true =>
    refine ⟨?_, rfl, ?_, ?_⟩
    · simp [Pool.nodeOf, Pool.buildCoordinator, hmulti]
    · intro i w _ _ _ _
      simp [Pool.nodeOf, Pool.buildCoordinator, hmulti]
    · -- the pool has one worker
      intro i hne hi
      have hlt := (List.getElem?_eq_some_iff.mp hi).1
      have hlength := congrArg List.length hok.slots
      rw [length_map, length_map] at hlength
      have hone := h.multi hmulti
      omega
  | false =>
    refine ⟨rfl, rfl, ?_, ?_⟩
    · intro i w hne hi halive hsame
      have hother : w ∈ s.workers.eraseIdx idx := mem_eraseIdx_iff_getElem?.mpr ⟨i, hne, hi⟩
      have hread := hguard hmulti w hother halive hsame
      change s.nodeOf w = s.nodeOf (s.makeWorker p)
      have hpod : w.pod = p.pod := hsame
      simp [Pool.nodeOf, Pool.makeWorker, hpod, hread]
    · exact fun i hne => build_free s p (some preferred) (some idx) i fun heq => hne (some.inj heq)

theorem Inv.restart (h : Inv s) (hguard : Guarded s (.restart idx p))
    (hstep : step s (.restart idx p) = some s') : Inv s' := by
  simp only [step] at hstep
  split at hstep
  · rename_i hcall
    by_cases hidx : idx < s.workers.length
    · rw [if_pos hidx] at hstep
      have hok := h.call
      rw [hcall] at hok
      cases hstep
      obtain ⟨hnode, hslot, hagrees, hfree⟩ := building_restart h hok hguard hidx
        (match s.slots[idx]? with
          | some old => old.2
          | none => idx)
      have hmem : ∀ w ∈ s.workers.modify idx Replica.kill, w.alive → w ∈ s.workers := by
        intro w hw halive
        obtain ⟨i, -, hi⟩ := mem_modify_kill hw halive
        exact mem_of_getElem? hi
      refine ⟨h.nodup, fun w hw w' hw' ha ha' hpod => ?_, fun hmulti => ?_, h.fresh, ⟨?_, ?_⟩,
        ⟨hnode, hslot, ?_⟩, ?_, hfree⟩
      · exact h.known w (hmem w hw ha) w' (hmem w' hw' ha') ha ha' hpod
      · rw [length_modify]
        exact h.multi hmulti
      · exact hok.slots.trans (map_modify_kill (f := fun w => (s.nodeOf w, w.slot)) (fun _ => rfl) _ _).symm
      · exact hok.scheduler.trans (map_modify_kill (f := (·.handle)) (fun _ => rfl) _ _).symm
      · intro w hw halive hpod
        obtain ⟨i, hne, hi⟩ := mem_modify_kill hw halive
        exact hagrees i w hne hi halive hpod
      · intro w hw
        rw [getElem?_modify_eq] at hw
        obtain ⟨old, -, rfl⟩ := map_eq_some_iff.mp hw
        rfl
    · rw [if_neg hidx] at hstep
      cases hstep
  · cases hstep

omit [DecidableEq π] in
theorem nodup_set {l : List (Option π × Nat)} {e : Option π × Nat} (hnodup : l.Nodup)
    (hother : ∀ i : Nat, i ≠ idx → l[i]? ≠ some e) : (l.set idx e).Nodup := by
  by_cases hmem : e ∈ l
  · obtain ⟨i, hi⟩ := mem_iff_getElem?.mp hmem
    by_cases heq : i = idx
    · obtain ⟨hlt, hget⟩ := List.getElem?_eq_some_iff.mp hi
      subst heq
      rwa [← hget, set_getElem_self]
    · exact absurd hi (hother i heq)
  · exact hnodup.set hmem

omit [DecidableEq π] in
theorem known_of_building (h : Inv s) {new : Placed π} (hnew : Building s new)
    {l : List (Replica π)} (hl : ∀ w ∈ l, w ∈ s.workers ∨ w = new.worker) :
    ∀ w ∈ l, ∀ w' ∈ l, w.alive → w'.alive → w.pod = w'.pod → s.nodeOf w = s.nodeOf w' := by
  intro w hw w' hw' halive halive' hpod
  rcases hl w hw with hw | rfl
  · rcases hl w' hw' with hw' | rfl
    · exact h.known w hw w' hw' halive halive' hpod
    · rw [hnew.agrees w hw halive hpod, hnew.node]
  · rcases hl w' hw' with hw' | rfl
    · rw [hnew.agrees w' hw' halive' hpod.symm, hnew.node]
    · rfl

theorem Inv.workerReady (h : Inv s) (hstep : step s .workerReady = some s') : Inv s' := by
  simp only [step] at hstep
  split at hstep
  · rename_i target new hcall
    have hok := h.call
    rw [hcall] at hok
    obtain ⟨hsettled, htarget, hnew, hlt, hfree⟩ := hok
    split at hstep
    · cases hstep
      exact ⟨h.nodup, h.known, h.multi, h.fresh, hsettled.slots, hsettled.scheduler⟩
    · rename_i handles hscheduler
      cases hstep
      have hhandles := hsettled.scheduler
      rw [hscheduler, getD_some] at hhandles
      refine ⟨?_, ?_, ?_, ?_, ⟨?_, ?_⟩, htarget⟩
      · rw [nodup_append]
        refine ⟨h.nodup, nodup_singleton _, ?_⟩
        rintro e he e' he' rfl
        rw [mem_singleton.mp he'] at he
        obtain ⟨i, hi⟩ := mem_iff_getElem?.mp he
        exact hfree i hi
      · exact known_of_building h hnew fun w hw => by simpa using hw
      · intro hmulti
        rw [htarget hmulti] at hlt
        rw [length_append, length_singleton]
        omega
      · intro hfalse
        rw [(h.fresh hfalse).1] at hscheduler
        cases hscheduler
      · rw [map_append, map_append, hsettled.slots, map_singleton, map_singleton,
          hnew.node, hnew.slot]
        rfl
      · rw [getD_some, hhandles, map_append, map_singleton]
  · rename_i idx new hcall
    have hok := h.call
    rw [hcall] at hok
    obtain ⟨hsettled, hnew, hdead, hfree⟩ := hok
    cases hstep
    refine ⟨nodup_set h.nodup hfree, ?_, ?_, ?_, ?_, ?_⟩
    · exact known_of_building h hnew fun w hw => mem_or_eq_of_mem_set hw
    · intro hmulti
      rw [length_set]
      exact h.multi hmulti
    · intro hfalse
      obtain ⟨hscheduler, hslots⟩ := h.fresh hfalse
      simp [hscheduler, hslots]
    · rw [map_set, map_set, hsettled.slots, hnew.node, hnew.slot]
      rfl
    · have hhandles := hsettled.scheduler
      cases hscheduler : s.scheduler with
      | none =>
        rw [hscheduler, getD_none] at hhandles
        have hnil : s.workers = [] := map_eq_nil_iff.mp hhandles.symm
        simp [hnil]
      | some handles =>
        rw [hscheduler, getD_some] at hhandles
        simp [hhandles, map_set]
  · cases hstep

theorem Inv.fails (h : Inv s) (hstep : step s .fails = some s') : Inv s' := by
  simp only [step] at hstep
  have hok := h.call
  split at hstep
  · rename_i target new hcall
    cases hstep
    rw [hcall] at hok
    cases new with
    | none => exact ⟨h.nodup, h.known, h.multi, h.fresh, hok.1.slots, hok.1.scheduler⟩
    | some new => exact ⟨h.nodup, h.known, h.multi, h.fresh, hok.1.slots, hok.1.scheduler⟩
  · rename_i hcall
    cases hstep
    rw [hcall] at hok
    exact ⟨h.nodup, h.known, h.multi, h.fresh, hok.1.slots, hok.1.scheduler⟩
  · cases hstep

theorem Inv.returns (h : Inv s) (hstep : step s .returns = some s') : Inv s' := by
  simp only [step] at hstep
  have hok := h.call
  split at hstep
  · rename_i hcall
    split_ifs at hstep
    cases hstep
    rw [hcall] at hok
    exact ⟨h.nodup, h.known, h.multi, h.fresh, hok.1.slots, hok.1.scheduler⟩
  · rename_i hcall
    split_ifs at hstep
    cases hstep
    rw [hcall] at hok
    exact ⟨h.nodup, h.known, h.multi, h.fresh, hok.slots, hok.scheduler⟩
  · cases hstep

/-- What every step keeps. -/
theorem Inv.step (h : Inv s) {a : Act π} (hguard : Guarded s a) (hstep : step s a = some s') :
    Inv s' := by
  cases a with
  | makeWorkers multiNode placements => exact h.makeWorkers hguard hstep
  | numberWorkers => exact h.numberWorkers hstep
  | initialized => exact h.initialized hstep
  | startFails => exact h.startFails hstep
  | cleanupCancelled => exact absurd hguard id
  | scaleUp target => exact h.scaleUp hstep
  | placeWorker p => exact h.placeWorker hguard hstep
  | scaleDown target => exact h.scaleDown hstep
  | removeWorker fails => exact h.removeWorker hstep
  | restart idx p => exact h.restart hguard hstep
  | workerReady => exact h.workerReady hstep
  | fails => exact h.fails hstep
  | returns => exact h.returns hstep

section

omit [DecidableEq π]

theorem slots_getElem? (hslots : s.slots.map (fun e => (e.1, some e.2)) =
      s.workers.map fun w => (s.nodeOf w, w.slot))
    {i slot : Nat} (hw : s.workers[i]? = some w) (hslot : w.slot = some slot) :
    s.slots[i]? = some (s.nodeOf w, slot) := by
  have hget := congrArg (·[i]?) hslots
  simp only [getElem?_map, hw, map_some, hslot] at hget
  obtain ⟨e, he, heq⟩ := map_eq_some_iff.mp hget
  rw [he]
  simpa [Prod.ext_iff] using heq

theorem apart_workers (h : Inv s) (hslots : s.slots.map (fun e => (e.1, some e.2)) =
      s.workers.map fun w => (s.nodeOf w, w.slot)) : s.workers.Pairwise Apart := by
  rw [pairwise_iff_getElem]
  intro i j hi hj hij halive halive' hpod hsome hsame
  obtain ⟨slot, hslot⟩ := isSome_iff_exists.mp hsome
  have hslot' := hsame.symm.trans hslot
  have hw := getElem?_eq_getElem hi
  have hw' := getElem?_eq_getElem hj
  have hnode := h.known _ (mem_of_getElem? hw) _ (mem_of_getElem? hw') halive halive' hpod
  have he := slots_getElem? hslots hw hslot
  have he' := slots_getElem? hslots hw' hslot'
  rw [← hnode] at he'
  -- the slot list has no entry twice
  have hlt := (List.getElem?_eq_some_iff.mp he).1
  exact hij.ne ((getElem?_inj hlt h.nodup).mp (he.trans he'.symm))

theorem apart_building {new : Placed π} (hsettled : Settled s) (hnew : Building s new)
    (hfree : ∀ (i : Nat) (w : Replica π), s.workers[i]? = some w → w.alive →
      s.slots[i]? ≠ some (new.node, new.slot)) :
    ∀ w ∈ s.workers, Apart w new.worker := by
  intro w hw halive _ hpod hsome hsame
  obtain ⟨slot, hslot⟩ := isSome_iff_exists.mp hsome
  have hslot' := hsame.symm.trans hslot
  obtain ⟨i, hi⟩ := mem_iff_getElem?.mp hw
  have he := slots_getElem? hsettled.slots hi hslot
  rw [hnew.agrees w hw halive hpod] at he
  rw [hnew.slot] at hslot'
  rw [← some.inj hslot'] at he
  exact hfree i w hi halive he

theorem Inv.sound (h : Inv s) : Sound s := by
  have hok := h.call
  cases hcall : s.call with
  | idle =>
    rw [hcall] at hok
    refine ⟨fun _ => hok.slots, fun _ => hok.scheduler, ?_⟩
    simpa [hcall, Call.building] using apart_workers h hok.slots
  | initializing numbered =>
    rw [hcall] at hok
    refine ⟨fun hne => absurd hcall (hne numbered), fun hne => absurd hcall (hne numbered), ?_⟩
    rw [hcall]
    cases numbered with
    | true => simpa [Call.building] using apart_workers h hok.2.2
    | false =>
      have hnone := hok.2.2.2
      refine pairwise_of_forall_mem_list fun w hw w' _ _ _ _ hsome => ?_
      rw [hnone w (by simpa [Call.building] using hw)] at hsome
      cases hsome
  | scalingUp target new =>
    rw [hcall] at hok
    cases new with
    | none =>
      refine ⟨fun _ => hok.1.slots, fun _ => hok.1.scheduler, ?_⟩
      simpa [hcall, Call.building] using apart_workers h hok.1.slots
    | some new =>
      obtain ⟨hsettled, -, hnew, -, hfree⟩ := hok
      refine ⟨fun _ => hsettled.slots, fun _ => hsettled.scheduler, ?_⟩
      rw [hcall, pairwise_append]
      refine ⟨apart_workers h hsettled.slots, pairwise_singleton _ _, fun w hw w' hw' => ?_⟩
      rw [mem_singleton.mp hw']
      exact apart_building hsettled hnew (fun i _ _ _ => hfree i) w hw
  | scalingDown target =>
    rw [hcall] at hok
    refine ⟨fun _ => hok.slots, fun _ => hok.scheduler, ?_⟩
    simpa [hcall, Call.building] using apart_workers h hok.slots
  | restarting idx new =>
    rw [hcall] at hok
    obtain ⟨hsettled, hnew, hdead, hfree⟩ := hok
    refine ⟨fun _ => hsettled.slots, fun _ => hsettled.scheduler, ?_⟩
    rw [hcall, pairwise_append]
    refine ⟨apart_workers h hsettled.slots, pairwise_singleton _ _, fun w hw w' hw' => ?_⟩
    rw [mem_singleton.mp hw']
    refine apart_building hsettled hnew (fun i w hi halive => hfree i ?_) w hw
    rintro rfl
    rw [hdead w hi] at halive
    cases halive

end

end Steps

/-- In every run in which no worker with an unknown node shares its pod with a live worker of a
known one, and no clean-up is cancelled, the lists match and the slots of a pod are apart. -/
theorem nodeSlots_sound (s : Pool π) (hs : Reaches step Guarded init s) : Sound s :=
  (hs.invariant inv_init fun _ _ _ h hguard hstep => h.step hguard hstep).sound

instance (p : Placement π) (w : Replica π) : Decidable (Agrees p w) :=
  inferInstanceAs (Decidable (_ → _ → _))

instance (w w' : Replica π) : Decidable (Apart w w') :=
  inferInstanceAs (Decidable (_ → _ → _ → _ → _))

instance (s : Pool π) : ∀ a, Decidable (Guarded s a)
  | .makeWorkers .. | .placeWorker _ | .restart .. => inferInstanceAs (Decidable (_ = false → _))
  | .cleanupCancelled => inferInstanceAs (Decidable False)
  | .numberWorkers | .initialized | .startFails | .scaleUp _ | .scaleDown _ | .removeWorker _
  | .workerReady | .fails | .returns => inferInstanceAs (Decidable True)

/-- A pool of two pods grows, and a worker restarts on the other pod. -/
theorem nodeSlots_sound_two_pods :
    ∃ s : Pool String, Reaches step Guarded init s ∧
      s.slots = [(some "b", 1), (some "b", 0), (some "a", 1)] ∧ Sound s := by
  have hrun : ∃ s : Pool String, Reaches step Guarded init s ∧
      s.slots = [(some "b", 1), (some "b", 0), (some "a", 1)] := by
    apply exists_reaches [.makeWorkers false [⟨"a", true⟩, ⟨"b", true⟩], .numberWorkers,
      .initialized, .scaleUp 3, .placeWorker ⟨"a", true⟩, .workerReady, .returns,
      .restart 0 ⟨"b", true⟩, .workerReady]
    decide
  obtain ⟨s, hs, hslots⟩ := hrun
  exact ⟨s, hs, hslots, nodeSlots_sound s hs⟩

/-- Two workers of one pod have the same slot when the node id of one of them cannot be read, and a
cancelled clean-up leaves workers without slots. -/
theorem nodeSlots_unknown_node :
    (∃ s : Pool String, Reaches step Always init s ∧ s.slots = [(some "a", 0), (none, 0)] ∧
      (s.workers.map fun w => (w.pod, w.alive, w.slot)) =
        [("a", true, some 0), ("a", true, some 0)] ∧ ¬Sound s) ∧
      ∃ s : Pool String, Reaches step Always init s ∧ s.slots = [] ∧ s.workers.length = 1 ∧
        ¬Sound s := by
  constructor
  · have hrun : ∃ s : Pool String, Reaches step Always init s ∧
        s.slots = [(some "a", 0), (none, 0)] ∧
        (s.workers.map fun w => (w.pod, w.alive, w.slot)) =
          [("a", true, some 0), ("a", true, some 0)] ∧ ¬s.workers.Pairwise Apart := by
      apply exists_reaches [.makeWorkers false [⟨"a", true⟩, ⟨"a", false⟩], .numberWorkers,
        .initialized]
      decide
    obtain ⟨s, hs, hslots, hworkers, hmeet⟩ := hrun
    exact ⟨s, hs, hslots, hworkers, fun hsound => hmeet (pairwise_append.mp hsound.apart).1⟩
  · have hrun : ∃ s : Pool String, Reaches step Always init s ∧ s.slots = [] ∧
        s.workers.length = 1 ∧ s.call = .idle := by
      apply exists_reaches [.makeWorkers false [⟨"a", true⟩], .cleanupCancelled]
      decide
    obtain ⟨s, hs, hslots, hworkers, hidle⟩ := hrun
    refine ⟨s, hs, hslots, hworkers, fun hsound => ?_⟩
    have hlength := congrArg List.length (hsound.slots fun numbered => by simp [hidle])
    rw [length_map, length_map, hslots, hworkers] at hlength
    cases hlength

end ArcticPlatform.ReplicaPool.NodeSlots
