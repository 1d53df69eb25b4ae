import ArcticPlatform.Library.Runs
import Mathlib.Data.List.Pairwise

/-!
# Acknowledgements of commands

An embedding of `Orchestrator._send_cmd_with_ack` and `_on_cmd_ack` of
`inference/semi_persistence/orchestrator.py` for one model, with what the methods of
`instance.py` send.  A caller puts an ack slot into the queue of its command and then calls the
method, both under `gen_lock`; the worker answers commands in the order in which they were sent.

Main results:

- Theorem `acks_reach_senders`: the queues hold the slots of the commands on the way, and every
  answer goes to its sender, in every run whose steps meet `Guarded`.
-/

namespace ArcticPlatform.SemiPersistence.Acks

open Runs List

/-- The commands that are sent while the listeners of a model are installed. -/
inductive Cmd where
  | cudaRestore
  | repin
  | unpin
  | cudaCheckpoint
  | wakeUpWeights
  | restoreWeights
  | wakeUpKvCache
  | sleep
  | pause
  | resume
  | dropGraphs
  | destroyNccl
  | planRestoreWeights
  | teardown
  deriving DecidableEq

/-- The fields of an `Instance` that decide what a method sends. -/
structure Instance where
  gpus : Option (List Nat)
  nGpus : Nat
  nnodes : Nat
  nodeRank : Nat
  /-- `_cmd_queue` is not `None`. -/
  hasQueue : Bool

/-- What a method raises before it has sent its command. -/
inductive MethodError where
  | noGpus
  | gpuCount (given expected : Nat)
  | noQueue
  deriving DecidableEq

/-- `_send`, after other commands. -/
def Instance.send (inst : Instance) (before : List Cmd) : Except MethodError (List Cmd) :=
  if inst.hasQueue then .ok before else .error .noQueue

/-- `cuda_restore`. -/
def Instance.cudaRestore (inst : Instance) (gpu : Option Nat) : Except MethodError (List Cmd) :=
  let gpus := match gpu with
    | some g => [g]
    | none => inst.gpus.getD []
  if gpus = [] then .error .noGpus
  else if gpus.length ≠ inst.nGpus then .error (.gpuCount gpus.length inst.nGpus)
  else inst.send []

/-- `cuda_checkpoint`. -/
def Instance.cudaCheckpoint (inst : Instance) : Except MethodError (List Cmd) :=
  if inst.nGpus > 1 ∧ inst.nodeRank = 0 then
    if inst.nnodes > 1 then inst.send [.dropGraphs, .destroyNccl] else inst.send [.destroyNccl]
  else inst.send []

/-- `getattr(inst, cmd)(*args)`: the commands that are sent before `cmd` itself. -/
def Instance.method (inst : Instance) (cmd : Cmd) (gpu : Option Nat) :
    Except MethodError (List Cmd) :=
  match cmd with
  | .cudaRestore => inst.cudaRestore gpu
  | .cudaCheckpoint => inst.cudaCheckpoint
  | _ => inst.send []

/-- A command on its way, with the ack slot of the caller that has sent it, if it has one. -/
structure Sent where
  cmd : Cmd
  sender : Option Nat
  deriving DecidableEq

/-- An answer that has been delivered: the command, the slot that was released, and the error that
was put there. -/
structure Acked (ε : Type) where
  sent : Sent
  slot : Option Nat
  error : Option ε

variable {ε : Type}

/-- The state of one model. -/
structure State (ε : Type) where
  /-- `_cmd_ack_events` -/
  acks : Cmd → List Nat
  /-- Commands that are sent and not answered, the oldest first. -/
  wire : List Sent
  /-- The caller that holds `gen_lock` between its slot and its command. -/
  holder : Option (Nat × Cmd)
  /-- The callers in `ev.wait()`. -/
  waiting : List Nat
  /-- The number of slots that have been made. -/
  slots : Nat
  log : List (Acked ε)

def new : State ε := ⟨fun _ => [], [], none, [], 0, []⟩

/-- What a thread does. -/
inductive Act (ε : Type) where
  /-- `_send_cmd_with_ack` puts a new slot into the queue. -/
  | install (cmd : Cmd)
  /-- `_send_cmd_with_ack` calls the method. -/
  | method (inst : Instance) (gpu : Option Nat)
  /-- A command is sent without a slot. -/
  | direct (cmd : Cmd)
  /-- The worker answers the oldest command, and `_on_cmd_ack` runs. -/
  | ack (error : Option ε)

/-- `_on_cmd_ack` for the answer to a command. -/
def onCmdAck (s : State ε) (sent : Sent) (error : Option ε) : State ε :=
  match s.acks sent.cmd with
  | [] => { s with log := s.log ++ [⟨sent, none, error⟩] }
  | slot :: rest =>
    { s with
      acks := Function.update s.acks sent.cmd rest
      waiting := s.waiting.filter (· ≠ slot)
      log := s.log ++ [⟨sent, some slot, error⟩] }

/-- One step of a thread, if it can take it. -/
def step (s : State ε) : Act ε → Option (State ε)
  | .install cmd =>
    match s.holder with
    | some _ => none
    | none =>
      some { s with
        acks := Function.update s.acks cmd (s.acks cmd ++ [s.slots])
        holder := some (s.slots, cmd)
        slots := s.slots + 1 }
  | .method inst gpu =>
    match s.holder with
    | none => none
    | some (slot, cmd) =>
      match inst.method cmd gpu with
      | .error _ => some { s with holder := none }
      | .ok before =>
        some { s with
          wire := s.wire ++ (before.map (⟨·, none⟩) ++ [⟨cmd, some slot⟩])
          holder := none
          waiting := slot :: s.waiting }
  | .direct cmd => some { s with wire := s.wire ++ [⟨cmd, none⟩] }
  | .ack error =>
    match s.wire with
    | [] => none
    | sent :: rest => some (onCmdAck { s with wire := rest } sent error)

/-! ## What the queues promise -/

/-- The slots of the commands of one name on the way. -/
def slotsOf (cmd : Cmd) (wire : List Sent) : List Nat :=
  wire.filterMap fun x => if x.cmd = cmd then x.sender else none

/-- The slot of a caller that is about to send. -/
def heldSlot (cmd : Cmd) : Option (Nat × Cmd) → List Nat
  | some (slot, c) => if c = cmd then [slot] else []
  | none => []

/-- Acknowledgements reach the callers that have sent the commands. -/
structure Paired (s : State ε) : Prop where
  /-- One slot for each command on the way, in the order of sending. -/
  fifo : ∀ cmd, s.acks cmd = slotsOf cmd s.wire ++ heldSlot cmd s.holder
  /-- An answer has released the slot of its sender. -/
  own : ∀ a ∈ s.log, a.slot = a.sent.sender
  /-- A caller waits for a command that is on the way. -/
  served : ∀ slot ∈ s.waiting, ∃ x ∈ s.wire, x.sender = some slot

/-- A method sends its command, and none of the same name before it. -/
def Instance.sends (inst : Instance) (cmd : Cmd) (gpu : Option Nat) : Bool :=
  match inst.method cmd gpu with
  | .ok before => cmd ∉ before
  | .error _ => false

/-- The method of the caller sends its command, and none of the same name before it; a command
without a slot is not on the way when a slot for its name is put, nor sent before its command. -/
def Guarded (s : State ε) : Act ε → Prop
  | .install cmd => ⟨cmd, none⟩ ∉ s.wire
  | .method inst gpu => ∀ h ∈ s.holder, inst.sends h.2 gpu = true
  | .direct cmd => ∀ h ∈ s.holder, h.2 ≠ cmd
  | .ack _ => True

instance (s : State ε) (a : Act ε) : Decidable (Guarded s a) :=
  match a with
  | .install _ => inferInstanceAs (Decidable (_ ∉ s.wire))
  | .method _ _ | .direct _ => inferInstanceAs (Decidable (∀ h ∈ s.holder, _))
  | .ack _ => inferInstanceAs (Decidable True)

/-! ## Runs -/

theorem slotsOf_append (cmd : Cmd) (wire wire' : List Sent) :
    slotsOf cmd (wire ++ wire') = slotsOf cmd wire ++ slotsOf cmd wire' := filterMap_append

theorem slotsOf_direct (cmd : Cmd) (cmds : List Cmd) : slotsOf cmd (cmds.map (⟨·, none⟩)) = [] := by
  unfold slotsOf
  rw [filterMap_map, filterMap_eq_nil_iff]
  intro c _
  simp

/-- What is kept by guarded steps: besides, no command with a slot is behind one of its name
without. -/
structure Kept (s : State ε) : Prop where
  paired : Paired s
  ordered : s.wire.Pairwise fun x y => x.cmd = y.cmd → x.sender = none → y.sender = none
  held : ∀ h ∈ s.holder, ⟨h.2, none⟩ ∉ s.wire

theorem kept_new : Kept (new : State ε) where
  paired := {
    fifo := fun _ => rfl
    own := by
      intro a ha
      cases ha
    served := by
      intro slot hslot
      cases hslot }
  ordered := List.Pairwise.nil
  held := by
    intro h hh
    cases hh

variable {s s' : State ε}

theorem kept_install (hkept : Kept s) {cmd : Cmd} (hok : Guarded s (.install cmd))
    (h : step s (.install cmd) = some s') : Kept s' := by
  simp only [step] at h
  split at h
  · cases h
  rename_i hholder
  cases h
  refine ⟨⟨?_, hkept.paired.own, hkept.paired.served⟩, hkept.ordered, ?_⟩
  · intro c
    have hfifo := hkept.paired.fifo c
    rw [hholder] at hfifo
    by_cases hc : c = cmd
    · subst hc
      simp [hfifo, heldSlot]
    · simp [Function.update_of_ne hc, hfifo, heldSlot, Ne.symm hc]
  · intro held hheld
    cases hheld
    exact hok

theorem kept_method (hkept : Kept s) {inst : Instance} {gpu : Option Nat}
    (hok : Guarded s (.method inst gpu)) (h : step s (.method inst gpu) = some s') : Kept s' := by
  simp only [step] at h
  split at h
  · cases h
  rename_i slot cmd hholder
  have hsends := hok (slot, cmd) hholder
  unfold Instance.sends at hsends
  split at h
  · rename_i error hmethod
    rw [hmethod] at hsends
    cases hsends
  rename_i before hmethod
  rw [hmethod] at hsends
  have hbefore : cmd ∉ before := by simpa using hsends
  cases h
  refine ⟨⟨?_, hkept.paired.own, ?_⟩, ?_, ?_⟩
  · intro c
    dsimp only
    rw [hkept.paired.fifo c, hholder, slotsOf_append, slotsOf_append, slotsOf_direct]
    by_cases hc : cmd = c <;> simp [heldSlot, slotsOf, hc]
  · intro i hi
    rcases mem_cons.mp hi with rfl | hi
    · exact ⟨⟨cmd, some i⟩, by simp, rfl⟩
    · obtain ⟨x, hx, hsender⟩ := hkept.paired.served i hi
      exact ⟨x, mem_append_left _ hx, hsender⟩
  · -- Before the command there are only others without a slot.
    have hnone : ∀ x ∈ s.wire ++ before.map (⟨·, none⟩), x.cmd = cmd → x.sender ≠ none := by
      intro x hx hxcmd hsender
      rcases mem_append.mp hx with hx | hx
      · apply hkept.held _ hholder
        obtain ⟨c, sender⟩ := x
        cases hxcmd
        cases hsender
        exact hx
      · obtain ⟨c, hc, rfl⟩ := mem_map.mp hx
        exact hbefore (hxcmd ▸ hc)
    dsimp only
    rw [← append_assoc, pairwise_append]
    refine ⟨?_, pairwise_singleton _ _, ?_⟩
    · rw [pairwise_append]
      refine ⟨hkept.ordered, ?_, ?_⟩
      · rw [pairwise_map]
        exact pairwise_of_forall fun _ _ _ _ => rfl
      · intro x _ y hy _ _
        obtain ⟨c, -, rfl⟩ := mem_map.mp hy
        rfl
    · intro x hx y hy hcmd hsender
      cases mem_singleton.mp hy
      exact absurd hsender (hnone x hx hcmd)
  · intro held hheld
    cases hheld

theorem kept_direct (hkept : Kept s) {cmd : Cmd} (hok : Guarded s (.direct cmd))
    (h : step s (.direct cmd) = some s') : Kept s' := by
  cases h
  refine ⟨⟨?_, hkept.paired.own, ?_⟩, ?_, ?_⟩
  · intro c
    dsimp only
    rw [hkept.paired.fifo c, slotsOf_append]
    simp [slotsOf]
  · intro i hi
    obtain ⟨x, hx, hsender⟩ := hkept.paired.served i hi
    exact ⟨x, mem_append_left _ hx, hsender⟩
  · dsimp only
    rw [pairwise_append]
    refine ⟨hkept.ordered, pairwise_singleton _ _, ?_⟩
    intro x _ y hy _ _
    cases mem_singleton.mp hy
    rfl
  · intro held hheld hmem
    rcases mem_append.mp hmem with hmem | hmem
    · exact hkept.held held hheld hmem
    · apply hok held hheld
      exact congrArg Sent.cmd (mem_singleton.mp hmem)

theorem kept_ack (hkept : Kept s) {error : Option ε} (h : step s (.ack error) = some s') :
    Kept s' := by
  simp only [step] at h
  split at h
  · cases h
  rename_i sent rest hwire
  cases h
  have hfifo := hkept.paired.fifo
  have hordered := hkept.ordered
  have hheld := hkept.held
  have hserved := hkept.paired.served
  rw [hwire] at hordered hheld hserved
  rw [pairwise_cons] at hordered
  have hheld' : ∀ h ∈ s.holder, ⟨h.2, none⟩ ∉ rest :=
    fun h hh hmem => hheld h hh (mem_cons_of_mem _ hmem)
  obtain ⟨cmd, sender⟩ := sent
  cases sender with
  | none =>
    -- No command of the name has a slot, so nothing is released.
    have hslots : slotsOf cmd rest = [] := by
      unfold slotsOf
      rw [filterMap_eq_nil_iff]
      intro x hx
      split_ifs with hcmd
      · exact hordered.1 x hx hcmd.symm rfl
      · rfl
    have hholder : heldSlot cmd s.holder = [] := by
      cases hh : s.holder with
      | none => rfl
      | some held =>
        obtain ⟨slot, c⟩ := held
        have hne : c ≠ cmd := by
          rintro rfl
          exact hheld (slot, c) hh mem_cons_self
        simp [heldSlot, hne]
    have hrest : ∀ c, s.acks c = slotsOf c rest ++ heldSlot c s.holder := by
      intro c
      rw [hfifo c, hwire]
      simp [slotsOf]
    have hempty : s.acks cmd = [] := by rw [hrest, hslots, hholder, append_nil]
    simp only [onCmdAck, hempty]
    refine ⟨⟨hrest, ?_, ?_⟩, hordered.2, hheld'⟩
    · intro a ha
      rcases mem_append.mp ha with ha | ha
      · exact hkept.paired.own a ha
      · cases mem_singleton.mp ha
        rfl
    · intro i hi
      obtain ⟨x, hx, hsender⟩ := hserved i hi
      rcases mem_cons.mp hx with rfl | hx
      · cases hsender
      · exact ⟨x, hx, hsender⟩
  | some slot =>
    have hhead : s.acks cmd = slot :: (slotsOf cmd rest ++ heldSlot cmd s.holder) := by
      rw [hfifo cmd, hwire]
      simp [slotsOf]
    simp only [onCmdAck, hhead]
    refine ⟨⟨?_, ?_, ?_⟩, hordered.2, hheld'⟩
    · intro c
      by_cases hc : c = cmd
      · subst hc
        simp
      · dsimp only
        rw [Function.update_of_ne hc, hfifo c, hwire]
        simp [slotsOf, Ne.symm hc]
    · intro a ha
      rcases mem_append.mp ha with ha | ha
      · exact hkept.paired.own a ha
      · cases mem_singleton.mp ha
        rfl
    · intro i hi
      obtain ⟨hi, hne⟩ := mem_filter.mp hi
      obtain ⟨x, hx, hsender⟩ := hserved i hi
      rcases mem_cons.mp hx with rfl | hx
      · cases hsender
        simp at hne
      · exact ⟨x, hx, hsender⟩

theorem kept_step (hkept : Kept s) {a : Act ε} (hok : Guarded s a) (h : step s a = some s') :
    Kept s' := by
  cases a with
  | install cmd => exact kept_install hkept hok h
  | method inst gpu => exact kept_method hkept hok h
  | direct cmd => exact kept_direct hkept hok h
  | ack error => exact kept_ack hkept h

/-- In every run of guarded steps the queues hold the slots of the commands on the way, every answer
goes to its sender, and no caller waits for a command that is not on the way. -/
theorem acks_reach_senders (ε : Type) : ∀ s : State ε, Reaches step Guarded new s → Paired s := by
  intro s hs
  have hkept : Kept s := hs.invariant kept_new fun _ _ _ hkept hok h => kept_step hkept hok h
  exact hkept.paired

/-- Two callers of one command, and a checkpoint of two GPUs that sends another command first. -/
theorem acks_reach_senders_twice :
    ∃ s : State Unit, Reaches step Guarded new s ∧ (s.log.map fun a => (a.slot, a.error)) =
        [(some 0, none), (some 1, some ()), (none, none), (some 2, none)] ∧ s.waiting = [] ∧
      Paired s := by
  have hrun : ∃ s : State Unit, Reaches step Guarded new s ∧
      (s.log.map fun a => (a.slot, a.error)) =
        [(some 0, none), (some 1, some ()), (none, none), (some 2, none)] ∧ s.waiting = [] := by
    apply exists_reaches [.install .sleep, .method ⟨none, 2, 1, 0, true⟩ none,
      .install .sleep, .method ⟨none, 2, 1, 0, true⟩ none, .ack none,
      .install .cudaCheckpoint, .ack (some ()), .method ⟨none, 2, 1, 0, true⟩ none,
      .ack none, .ack none]
    decide
  obtain ⟨s, hs, hlog, hwaiting⟩ := hrun
  exact ⟨s, hs, hlog, hwaiting, acks_reach_senders Unit s hs⟩

/-- `cuda_restore` of one GPU raises for an instance of two.  Its slot takes the next answer, and the
caller of that command waits for ever. -/
theorem cudaRestore_leaves_slot :
    ∃ s : State Unit, Reaches step Always new s ∧ s.waiting = [1] ∧ s.wire = [] ∧
      (s.log.map fun a => (a.sent.sender, a.slot)) = [(some 1, some 0)] ∧ ¬ Paired s := by
  have hrun : ∃ s : State Unit, Reaches step Always new s ∧ s.waiting = [1] ∧ s.wire = [] ∧
      (s.log.map fun a => (a.sent.sender, a.slot)) = [(some 1, some 0)] := by
    apply exists_reaches [.install .cudaRestore, .method ⟨none, 2, 1, 0, true⟩ (some 0),
      .install .cudaRestore, .method ⟨none, 1, 1, 0, true⟩ (some 0), .ack none]
    decide
  obtain ⟨s, hs, hwaiting, hwire, hlog⟩ := hrun
  refine ⟨s, hs, hwaiting, hwire, hlog, fun hpaired => ?_⟩
  obtain ⟨x, hx, -⟩ := hpaired.served 1 (by rw [hwaiting]; exact mem_cons_self)
  rw [hwire] at hx
  cases hx

end ArcticPlatform.SemiPersistence.Acks
