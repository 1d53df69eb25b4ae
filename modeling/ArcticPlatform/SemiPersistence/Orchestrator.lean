import ArcticPlatform.Library.Runs
import ArcticPlatform.SemiPersistence.SlotsTiling

/-!
# The orchestrator of semi-persistent models

An embedding of the operations of `inference/semi_persistence/pipeline.py` and of the steps of
`inference/semi_persistence/orchestrator.py` they are made of.  A model has a pipeline: a queue of
operations and a worker thread that executes them one after the other.  When a model is removed a
thread in the background stops its pipeline and takes it out of `_pipelines`, whether the worker has
come to an end or not; a later operation makes a new pipeline, with a worker of its own.  Beside these
there are the threads of the users, who submit operations, and for each model the demuxer of its
engine, which handles acknowledgements.

A worker is at a list of instructions, the rest of the operation it executes.  An instruction is
what a worker does in one critical section of the lock of its model, in one call of `Slots`, or
between two of them.  Local variables of the source that matter are arguments of instructions.
-/

namespace ArcticPlatform.SemiPersistence.Orchestrator

open Runs

/-! ## The registry -/

/-- The ladder `_STATES`. -/
inductive Rung where
  | saved
  | checkpoint
  | sleep
  | up
  deriving DecidableEq

/-- The place of a rung in `_STATES`. -/
def Rung.index : Rung → Nat
  | .saved => 0
  | .checkpoint => 1
  | .sleep => 2
  | .up => 3

/-- The state a model publishes. -/
inductive Published where
  | at (rung : Rung)
  | init
  /-- Waiting in `Slots.allocate`. -/
  | wait
  | running
  deriving DecidableEq

/-- The entry of a model in `_registry`. -/
structure Entry where
  state : Published
  slot : Option Slot
  gpu : Option Nat
  level : Nat
  paused : Bool
  /-- There is an instance. -/
  inst : Bool

/-- The entry of a model that is registered or discovered. -/
def Entry.fresh (level : Nat) : Entry := ⟨.at .saved, none, none, level, false, false⟩

/-! ## Instructions -/

/-- A pipeline: its model, and how many were made for the model before it -/
abbrev Pid := Nat × Nat

/-- The commands sent with `_send_cmd_with_ack`. -/
inductive Cmd where
  | unpin
  | repin
  | cudaCheckpoint
  | cudaRestore
  | wakeUpWeights
  | restoreWeights
  | wakeUpKvCache
  | sleep
  | pause
  | resume

/-- An exception: `WorkerCmdFailed`, or another one. -/
inductive Raise where
  | workerCmdFailed
  | other

/-- What a worker does next. -/
inductive Instr where
  /-- `RegisterOp`: `slots.allocate(level=1)` -/
  | registerAllocate
  /-- It waits in it. -/
  | registerWait
  /-- The entry is brought to the shape of a model that starts. -/
  | registerEntry (slot : Slot)
  /-- The cold start of the engine up to its image on disk -/
  | coldStart (slot : Slot)
  /-- `slots.deallocate(register_slot)` and the entry of a saved model -/
  | registerRelease (slot : Slot)
  /-- `MoveOp.execute`; the walk may announce `running` in the end. -/
  | moveBegin (target : Rung) (gpu : Option Nat) (announce : Bool)
  /-- The model is `up`: announce `running` under the lock. -/
  | moveAnnounce
  /-- It was no longer: walk up from where it is. -/
  | moveWalk
  /-- `ctx.interrupt.raise_if_set()` -/
  | check
  /-- `_step_up` from `saved`: restore the image -/
  | restoreImage
  /-- `_step_up` from `checkpoint`: `Slots.allocate` -/
  | allocate
  | allocateWait
  /-- Record a slot and its GPU in the entry -/
  | record (slot : Slot)
  /-- The same without a slot, for a GPU the user wants -/
  | place (gpu : Nat)
  /-- `_send_cmd_with_ack` -/
  | send (cmd : Cmd)
  /-- The command is on its way. -/
  | await (cmd : Cmd)
  /-- It has been acknowledged. -/
  | acked (ok : Bool)
  | setSleep
  /-- `_step_up` from `sleep`: the tiers of its phase 1 -/
  | tierA
  | tierB
  /-- Commit the ownership of a slot -/
  | commit (slot : Slot)
  /-- A migration has left the old GPU. -/
  | migrateOut
  /-- It has come to the new one. -/
  | migrateIn (gpu : Nat)
  /-- `slot = entry["slot"]` after tier C -/
  | readSlot
  | setGpu (gpu : Nat)
  /-- Phase 2: look for incumbents to evict -/
  | scan
  /-- Check an incumbent under its lock -/
  | evictCheck (peer : Nat)
  /-- Look for the pipelines of the model and of the incumbent -/
  | peerFind (peer : Nat)
  /-- `submit_to_peer_and_wait`: set `_waiting_on` -/
  | peerSet (mine theirs : Pid)
  /-- Walk the graph of waiting pipelines -/
  | peerWalk (mine theirs : Pid) (node : Option Pid) (seen : List Nat)
  /-- Put an `EvictForPeerOp` into the queue of the peer -/
  | peerPut (mine theirs : Pid)
  /-- Wait for its future -/
  | peerAwait (mine : Pid) (ticket : Nat)
  /-- There is no such pipeline: `_step_down` for the incumbent itself -/
  | visitSend (peer : Nat)
  | visitAwait (peer : Nat)
  /-- The end of that step, for the entry it began with -/
  | visitRelease (peer epoch : Nat)
  /-- Phase 3 is over: publish `up` or `running` -/
  | setUp (announce : Bool)
  /-- The end of `_step_down` to `sleep` or `checkpoint`: give the slot back -/
  | releaseTo (rung : Rung)
  /-- `_step_down` to `saved` -/
  | teardown
  /-- `_acquire_slot_for_running` -/
  | acquire
  /-- It retreats where it has found no slot. -/
  | retreat
  /-- The end of a move to `sleep` on a GPU the user wants -/
  | dropSlot
  | evictBegin
  | generateBegin
  /-- Phase 2 of `GenerateOp`, under `_gen_lock` -/
  | generateSubmit
  | pauseBegin
  /-- The critical section of `PauseOp` after the acknowledgement -/
  | pauseRelease
  | resumeBegin
  | resumeDone
  | removeBegin
  /-- `_registry.pop` -/
  | removePop
  /-- The operation returns. -/
  | ret
  /-- `_fail_all_inflight` -/
  | failInflight
  | failRelease

/-- `_step_up` from a rung to the next. -/
def stepUp (gpu : Option Nat) (announce : Bool) : Rung → List Instr
  | .saved => [.restoreImage]
  | .checkpoint =>
    (match gpu with
      | none => .allocate
      | some g => .place g) :: [.send .cudaRestore, .send .repin, .setSleep]
  | .sleep =>
    [.tierA, .scan, .send .wakeUpWeights, .send .restoreWeights, .send .wakeUpKvCache,
      .setUp announce]
  | .up => []

/-- `_step_down` from a rung to the one below. -/
def stepDown : Rung → List Instr
  | .up => [.send .sleep, .releaseTo .sleep]
  | .sleep => [.send .unpin, .send .cudaCheckpoint, .releaseTo .checkpoint]
  | .checkpoint => [.teardown]
  | .saved => []

/-- The walk up of `MoveOp` -/
def walkUp (current target : Rung) (gpu : Option Nat) (announce : Bool) : List Instr :=
  ([Rung.saved, .checkpoint, .sleep].filter fun r =>
    current.index ≤ r.index ∧ r.index < target.index).flatMap fun r =>
      .check :: stepUp gpu announce r

/-- The walk down of `MoveOp` -/
def walkDown (current target : Rung) : List Instr :=
  ([Rung.up, .sleep, .checkpoint].filter fun r =>
    r.index ≤ current.index ∧ target.index < r.index).flatMap fun r => .check :: stepDown r

/-- The migration of phase 1 -/
def migrate (gpu : Nat) : List Instr :=
  [.send .unpin, .send .cudaCheckpoint, .migrateOut, .send .cudaRestore, .send .repin,
    .migrateIn gpu]

/-- The body of `MoveOp` after its first branches, from a rung of the ladder. -/
def walk (e : Entry) (current target : Rung) (gpu : Option Nat) (announce : Bool) : List Instr :=
  match target, gpu with
  | .sleep, some g =>
    (if (current = .up ∨ current = .sleep) ∧ e.gpu ≠ some g then
      walkDown current .checkpoint ++ .check :: stepUp (some g) announce .checkpoint
    else if current = .sleep then
      []
    else if current.index < Rung.index .sleep then
      walkUp current .sleep gpu announce
    else
      walkDown current .sleep) ++ [.dropSlot]
  | _, _ =>
    if current.index < target.index then walkUp current target gpu announce
    else walkDown current target

/-! ## Models -/

/-- An operation in the queue of a pipeline. -/
inductive Op where
  | register
  | move (target : Rung) (gpu : Option Nat)
  /-- With the future that the acquirer waits for -/
  | evictForPeer (ticket : Nat)
  | generate
  | pause
  | resume
  /-- With the future that the thread waits for which stops the pipeline -/
  | remove (ticket : Nat)
  /-- `_SHUTDOWN` -/
  | shutdown
  deriving DecidableEq

/-- The body of an operation -/
def Op.body : Op → List Instr
  | .register => [.registerAllocate]
  | .move target gpu => [.moveBegin target gpu false]
  | .evictForPeer _ => [.evictBegin]
  | .generate => [.generateBegin]
  | .pause => [.pauseBegin]
  | .resume => [.resumeBegin]
  | .remove _ => [.removeBegin]
  | .shutdown => []

/-- The ticket of an operation another thread waits for -/
def Op.ticket : Op → Option Nat
  | .evictForPeer t | .remove t => some t
  | _ => none

/-- A model: its entry, its requests and the commands on their way. -/
structure Registered where
  entry : Option Entry
  /-- How often an entry was popped -/
  epoch : Nat
  /-- The requests in `_inflight` -/
  inflight : Nat
  /-- The requests the engine has not answered -/
  outstanding : Nat
  /-- The commands it has not acknowledged -/
  commands : Nat
  /-- The demuxer has an answer in hand whose listener has not run. -/
  answered : Bool

/-- `_pending_count` -/
def Registered.pending (x : Registered) : Nat := x.outstanding + x.commands

/-- A pipeline and its worker. -/
structure ModelPipeline where
  queue : List Op
  front : List Op
  /-- The rest of the operation that the worker executes -/
  code : List Instr
  /-- The ticket of that operation -/
  ticket : Option Nat

/-- A pipeline without operations -/
def ModelPipeline.empty : ModelPipeline := ⟨[], [], [], none⟩

/-- A model as a worker sees it. -/
structure Model extends Registered, ModelPipeline

/-- What the workers share. -/
structure Shared where
  slots : SlotsState Nat
  /-- The next ticket -/
  tickets : Nat
  /-- The tickets whose operation has ended, and how -/
  resolved : List (Nat × Option Raise)
  /-- `_waiting_on` -/
  waitingOn : Pid → Option Pid
  /-- `Slots.deallocate` was called with a slot that was not live. -/
  freedTwice : Bool

/-- The thread that `remove` starts: its pipeline, the ticket of its `RemoveOp`, and whether it has put
`_SHUTDOWN` into the queue. -/
structure Teardown where
  pipe : Pid
  ticket : Nat
  stopped : Bool
  deriving DecidableEq

/-- The orchestrator. -/
structure State where
  shared : Shared
  models : Nat → Registered
  pipes : Pid → ModelPipeline
  /-- The worker has ended. -/
  ended : Pid → Bool
  /-- The number of pipelines that were made for a model -/
  made : Nat → Nat
  /-- `_pipelines` -/
  pipelines : Nat → Option Nat
  teardowns : List Teardown

/-- What the worker of a pipeline sees -/
def State.view (s : State) (p : Pid) : Model := ⟨s.models p.1, s.pipes p⟩

/-- `init`: the GPUs, and the levels of the models that are discovered -/
def new (gpus : List Nat) (levels : Nat → Option Nat) : State where
  shared := ⟨(init uninitialised gpus).1, 0, [], fun _ => none, false⟩
  models := fun m => ⟨(levels m).map Entry.fresh, 0, 0, 0, 0, false⟩
  pipes := fun _ => .empty
  ended := fun p => p.2 ≠ 0 || (levels p.1).isNone
  made := fun m => if (levels m).isSome then 1 else 0
  pipelines := fun m => (levels m).map fun _ => 0
  teardowns := []

/-! ## What an instruction does -/

/-- What a step depends on beside the state: whether what it tries succeeds, the time, and the
incumbents a scan has found. -/
structure Choice where
  ok : Bool
  now : Nat
  peers : List Nat

/-- What an instruction does: to what is shared, to the model and the pipeline of the worker, and an
operation it puts into another pipeline. -/
structure Effect where
  shared : Shared
  model : Model
  put : Option (Pid × Op)

/-- Go on with other instructions. -/
def goto (sh : Shared) (x : Model) (code : List Instr) : Effect := ⟨sh, { x with code := code }, none⟩

/-- Change the entry and go on. -/
def write (sh : Shared) (x : Model) (e : Entry) (code : List Instr) : Effect :=
  goto sh { x with entry := some e } code

/-- The future of the operation of a worker is set. -/
def Shared.resolve (sh : Shared) (x : Model) (r : Option Raise) : Shared :=
  match x.ticket with
  | some t => { sh with resolved := (t, r) :: sh.resolved }
  | none => sh

/-- The operation raises. -/
def raise (sh : Shared) (x : Model) (r : Raise) : Effect :=
  ⟨sh.resolve x (some r), { x with
      code := match r with
        | .workerCmdFailed => [.failInflight]
        | .other => []
      ticket := none }, none⟩

/-- `Slots.deallocate` for a slot, where it is live -/
def Shared.deallocate (sh : Shared) (slot : Slot) (now : Nat) : Shared :=
  { sh with slots := (SemiPersistence.deallocate sh.slots slot now).1 }

/-- Give the slot of the entry back, if there is one; nothing comes out where it is not live. -/
def giveBack (sh : Shared) (e : Entry) (now : Nat) : Option (Shared × Entry) :=
  match e.slot with
  | none => some (sh, e)
  | some slot =>
    if slot ∈ sh.slots.live then some (sh.deallocate slot now, { e with slot := none }) else none

/-- A critical section that gives the slot of the entry back and changes the entry. -/
def release (sh : Shared) (x : Model) (e : Entry) (now : Nat) (f : Entry → Entry)
    (code : List Instr) : Effect :=
  match giveBack sh e now with
  | some (sh', e') => write sh' x (f e') code
  | none => raise { sh with freedTwice := true } x .other

/-- `running` becomes `up`. -/
def Entry.stop (e : Entry) : Entry :=
  if e.state = .running then { e with state := .at .up } else e

/-- A blocking call of `Slots` has come back. -/
def allocated (sh : Shared) (x : Model) (r : SlotsState Nat × Except Assertion (Option Slot))
    (taken : Slot → List Instr) (wait : Model) (waiting : List Instr) : Effect :=
  match r.2 with
  | .ok (some slot) => goto { sh with slots := r.1 } x (taken slot)
  | .ok none => goto { sh with slots := r.1 } wait waiting
  | .error _ => raise sh x .other

/-- The instructions that follow when phase 1 has got a slot from a tier. -/
def tierTaken (e : Entry) (slot : Slot) (rest : List Instr) : List Instr :=
  .commit slot :: (if e.gpu = some slot.gpuId then [] else migrate slot.gpuId) ++
    .setGpu slot.gpuId :: rest

/-- The thread of a worker in `Slots.allocate` -/
def waiter (m level : Nat) : Waiter := ⟨m, level, none⟩

/-- What a worker does whose model has no entry. -/
def execMissing (m : Nat) (sh : Shared) (x : Model) (rest : List Instr) : Instr → Option Effect
  | .registerAllocate =>
    some (allocated sh x (SemiPersistence.allocate sh.slots (waiter m 1))
      (fun slot => .registerEntry slot :: rest) x (.registerWait :: rest))
  | .registerWait =>
    some (allocated sh x (wakeUp sh.slots (waiter m 1)) (fun slot => .registerEntry slot :: rest) x
      (.registerWait :: rest))
  | .pauseBegin | .resumeBegin | .removeBegin | .evictBegin => some (goto sh x rest)
  | .ret => some (goto (sh.resolve x none) { x with ticket := none } [])
  | .failInflight | .failRelease => some (goto sh x [])
  | .await _ | .visitSend _ | .visitAwait _ | .visitRelease _ _ => none
  | _ => some (raise sh x .other)

/-- `MoveOp.execute` -/
def moveBegin (sh : Shared) (x : Model) (e : Entry) (target : Rung) (gpu : Option Nat)
    (announce : Bool) (rest : List Instr) : Effect :=
  match e.state with
  | .running => if announce then goto sh x rest else raise sh x .other
  | .at current =>
    if current = target ∧ gpu = none ∧ announce = false then
      goto sh x rest
    else if current = target ∧ announce then
      goto sh x ((if e.slot = none then [.check, .acquire] else []) ++ .moveAnnounce :: rest)
    else
      goto sh x (walk e current target gpu announce ++ rest)
  | .init | .wait => raise sh x .other

/-- What the worker of a pipeline does; the other models and pipelines are those of a state. -/
def exec (s : State) (p : Pid) (sh : Shared) (x : Model) (e : Entry) (c : Choice)
    (rest : List Instr) : Instr → Option Effect
  | .registerAllocate => execMissing p.1 sh x rest .registerAllocate
  | .registerWait => execMissing p.1 sh x rest .registerWait
  | .registerEntry slot =>
    some (write sh x
      { e with
        state := .init
        inst := true
        gpu := some slot.gpuId
        slot := none
        paused := false } (.coldStart slot :: rest))
  | .coldStart slot =>
    some (if c.ok then goto sh x (.registerRelease slot :: rest) else raise sh x .other)
  | .registerRelease slot =>
    some (if slot ∈ sh.slots.live then
      write (sh.deallocate slot c.now) x { e with state := .at .saved, inst := false, gpu := none }
        rest
    else
      raise { sh with freedTwice := true } x .other)
  | .moveBegin target gpu announce => some (moveBegin sh x e target gpu announce rest)
  | .moveAnnounce =>
    some (if e.state = .at .up then write sh x { e with state := .running } rest
    else goto sh x (.moveWalk :: rest))
  | .moveWalk =>
    some (match e.state with
      | .at current => goto sh x (walk e current .up none true ++ rest)
      | _ => raise sh x .other)
  | .check => some (if c.ok then goto sh x rest else raise sh x .other)
  | .restoreImage =>
    some (if c.ok then write sh x { e with state := .at .checkpoint, inst := true } rest
    else raise sh x .other)
  | .allocate =>
    some (allocated sh x (SemiPersistence.allocate sh.slots (waiter p.1 e.level))
      (fun slot => .record slot :: rest) { x with entry := some { e with state := .wait } }
      (.allocateWait :: rest))
  | .allocateWait =>
    some (allocated sh { x with entry := some { e with state := .at .checkpoint } }
      (wakeUp sh.slots (waiter p.1 e.level)) (fun slot => .record slot :: rest) x
      (.allocateWait :: rest))
  | .record slot => some (write sh x { e with slot := some slot, gpu := some slot.gpuId } rest)
  | .place gpu => some (write sh x { e with slot := none, gpu := some gpu } rest)
  | .send cmd =>
    some (if e.inst ∧ c.ok then goto sh { x with commands := x.commands + 1 } (.await cmd :: rest)
    else raise sh x .other)
  | .await _ | .visitSend _ | .visitAwait _ | .visitRelease _ _ => none
  | .acked ok => some (if ok then goto sh x rest else raise sh x .workerCmdFailed)
  | .setSleep => some (write sh x { e with state := .at .sleep } rest)
  | .tierA =>
    some (if e.slot = none then
      allocated sh x (tryAllocate sh.slots e.level e.gpu) (fun slot => tierTaken e slot rest) x
        (.tierB :: rest)
    else goto sh x rest)
  | .tierB =>
    some (allocated sh x (tryAllocate sh.slots e.level none) (fun slot => tierTaken e slot rest) x
      (stepDown .sleep ++ stepUp none false .checkpoint ++ .readSlot :: rest))
  | .commit slot => some (write sh x { e with slot := some slot } rest)
  | .migrateOut => some (write sh x { e with gpu := none, state := .at .checkpoint } rest)
  | .migrateIn gpu => some (write sh x { e with gpu := some gpu, state := .at .sleep } rest)
  | .readSlot =>
    some (match e.slot with
      | some slot => goto sh x (.setGpu slot.gpuId :: rest)
      | none => raise sh x .other)
  | .setGpu gpu => some (write sh x { e with gpu := some gpu } rest)
  | .scan =>
    some (if c.ok then goto sh x ((c.peers.filter (· ≠ p.1)).map Instr.evictCheck ++ rest)
    else raise sh x .other)
  | .evictCheck peer =>
    some (match (s.models peer).entry with
      | none => raise sh x .other
      | some pe =>
        if pe.slot = none ∧ pe.state = .at .up ∧ pe.gpu = e.gpu then
          goto sh x (.peerFind peer :: rest)
        else goto sh x rest)
  | .peerFind peer =>
    some (goto sh x (match s.pipelines p.1, s.pipelines peer with
      | some mine, some theirs => .peerSet (p.1, mine) (peer, theirs) :: rest
      | _, _ => .visitSend peer :: rest))
  | .peerSet mine theirs =>
    -- a worker whose pipeline was taken out of `_pipelines` is not found there
    some (goto { sh with waitingOn := Function.update sh.waitingOn mine (some theirs) } x
      ((if s.pipelines p.1 = some p.2 ∧ theirs ≠ p then .peerWalk mine theirs (some theirs) []
      else .peerPut mine theirs) :: rest))
  | .peerWalk mine theirs none _ => some (goto sh x (.peerPut mine theirs :: rest))
  | .peerWalk mine theirs (some node) seen =>
    some (if node = p then
      raise { sh with waitingOn := Function.update sh.waitingOn mine none } x .other
    else if node.1 ∈ seen then goto sh x (.peerPut mine theirs :: rest)
    else goto sh x (.peerWalk mine theirs (sh.waitingOn node) (node.1 :: seen) :: rest))
  | .peerPut mine theirs =>
    some ⟨{ sh with tickets := sh.tickets + 1 },
      { x with code := .peerAwait mine sh.tickets :: rest },
      some (theirs, .evictForPeer sh.tickets)⟩
  | .peerAwait mine ticket =>
    (sh.resolved.find? fun r => r.1 = ticket).map fun r =>
      let sh' := { sh with waitingOn := Function.update sh.waitingOn mine none }
      match r.2 with
      | none => goto sh' x rest
      | some r => raise sh' x r
  | .setUp announce =>
    some (write sh x { e with state := if announce then .running else .at .up } rest)
  | .releaseTo rung =>
    some (release sh x e c.now
      (fun e => { e with state := .at rung, gpu := if rung = .checkpoint then none else e.gpu }) rest)
  | .teardown =>
    some (if e.inst ∧ c.ok then write sh x { e with state := .at .saved, inst := false } rest
    else raise sh x .other)
  | .acquire =>
    some (if e.slot = none then
      allocated sh x (tryAllocate sh.slots e.level e.gpu) (fun slot => .commit slot :: rest) x
        (.retreat :: rest)
    else goto sh x rest)
  | .retreat =>
    some (goto sh x ((if e.state = .at .up ∧ e.slot = none then stepDown .up else []) ++
      stepUp none false .sleep ++ rest))
  | .dropSlot => some (release sh x e c.now id rest)
  | .evictBegin => some (goto sh x ((if e.state = .at .up then stepDown .up else []) ++ rest))
  | .generateBegin =>
    some (goto sh x ((if e.paused ∨ e.state = .running then [] else
      [.check, .moveBegin .up none true]) ++ .check :: .generateSubmit :: rest))
  | .generateSubmit =>
    some (if !e.inst then raise sh x .other
    else if c.ok then
      goto sh { x with inflight := x.inflight + 1, outstanding := x.outstanding + 1 } rest
    else goto sh x rest)
  | .pauseBegin =>
    some (goto sh x ((if e.paused ∨ e.state ≠ .running ∨ x.inflight = 0 then []
      else [.send .pause, .pauseRelease]) ++ rest))
  | .pauseRelease =>
    some (release sh x e c.now (fun e => { e with paused := true, state := .at .up }) rest)
  | .resumeBegin =>
    some (if e.paused = false ∨ e.state ∉ [.at .up, .at .sleep, .at .checkpoint] then goto sh x rest
    else if x.inflight = 0 then write sh x { e with paused := false } rest
    else goto sh x
      (.check :: .moveBegin .up none true :: .check :: .send .resume :: .resumeDone :: rest))
  | .resumeDone => some (write sh x { e with paused := false } rest)
  | .removeBegin =>
    some (goto sh x ((if e.state = .at .saved then [] else [.check, .moveBegin .saved none false]) ++
      .removePop :: rest))
  | .removePop => some (goto sh { x with entry := none, epoch := x.epoch + 1 } rest)
  | .ret => execMissing p.1 sh x rest .ret
  | .failInflight =>
    some (goto sh { x with inflight := 0 }
      (if e.inst ∧ x.pending = 0 then [.failRelease] else []))
  | .failRelease => some (release sh x e c.now Entry.stop [])

/-! ## Steps -/

/-- A step: a user submits an operation, a worker takes one from its queue or does its next
instruction, the demuxer hands an acknowledgement over or runs a listener, a thread that `remove` has
started goes on, or GPUs come and go. -/
inductive Act where
  | register (m level : Nat)
  | move (m : Nat) (target : Rung) (gpu : Option Nat)
  | generate (m : Nat)
  | pause (m : Nat)
  | resume (m : Nat)
  | remove (m : Nat)
  | start (p : Pid)
  | work (p : Pid) (c : Choice)
  /-- An instruction about an incumbent without a pipeline -/
  | visit (p : Pid) (c : Choice)
  | ack (p : Pid) (ok : Bool)
  /-- The engine answers a request. -/
  | answer (m : Nat)
  /-- `_on_generate_done` -/
  | listen (m now : Nat)
  /-- A teardown has the result of its `RemoveOp` and has waited, for some time, for the queue. -/
  | shutdown (k : Nat)
  /-- It has waited, for some time, for the worker. -/
  | drop (k : Nat)
  | addGpu (gpu : Nat)
  | drainGpu (gpu : Nat)
  | popGpu (gpu : Nat)

def State.setModel (s : State) (m : Nat) (x : Registered) : State :=
  { s with models := Function.update s.models m x }

def State.setPipe (s : State) (p : Pid) (x : ModelPipeline) : State :=
  { s with pipes := Function.update s.pipes p x }

/-- Append an operation to the queue of a pipeline. -/
def State.put (s : State) (p : Pid) (op : Op) : State :=
  s.setPipe p { s.pipes p with queue := (s.pipes p).queue ++ [op] }

/-- `_make_pipeline` -/
def State.makePipeline (s : State) (m : Nat) : State × Pid :=
  match s.pipelines m with
  | some g => (s, m, g)
  | none =>
    ({ s.setPipe (m, s.made m) .empty with
      ended := Function.update s.ended (m, s.made m) false
      made := Function.update s.made m (s.made m + 1)
      pipelines := Function.update s.pipelines m (some (s.made m)) }, m, s.made m)

/-- The effect of an instruction of a worker -/
def State.apply (s : State) (p : Pid) (r : Effect) : State :=
  let t : State :=
    { (s.setModel p.1 r.model.toRegistered).setPipe p r.model.toModelPipeline with
      shared := r.shared }
  match r.put with
  | none => t
  | some (q, op) => t.put q op

/-- A user submits an operation for a model that is registered, unless it is refused or there is no
pipeline and none is made. -/
def State.submit (s : State) (m : Nat) (op : Op) (make : Bool) (accepted : Entry → Bool) :
    Option State :=
  if (s.models m).entry.any accepted ∧ (make ∨ (s.pipelines m).isSome) then
    some ((s.makePipeline m).1.put (s.makePipeline m).2 op)
  else none

/-- `_on_generate_done`, for the model and what is shared -/
def listen (sh : Shared) (x : Registered) (now : Nat) : Shared × Registered :=
  match x.entry with
  | none => (sh, { x with answered := false })
  | some e =>
    if e.inst then
      let y := { x with answered := false, inflight := x.inflight - 1 }
      if y.inflight = 0 ∧ y.pending = 0 then
        match giveBack sh e now with
        | some (sh', e') => (sh', { y with entry := some e'.stop })
        | none => ({ sh with freedTwice := true }, y)
      else (sh, y)
    else (sh, { x with answered := false })

/-- The next operation of a pipeline; those at the front come first. -/
def ModelPipeline.next (x : ModelPipeline) : Option (Op × ModelPipeline) :=
  match x.front, x.queue with
  | op :: front, _ => some (op, { x with front := front })
  | [], op :: queue => some (op, { x with queue := queue })
  | [], [] => none

/-- The worker takes an operation from its queue, and ends with `_SHUTDOWN`. -/
def State.start (s : State) (p : Pid) (op : Op) (x : ModelPipeline) : State :=
  if op = .shutdown then { s.setPipe p x with ended := Function.update s.ended p true }
  else s.setPipe p { x with code := op.body ++ [.ret], ticket := op.ticket }

/-- The acknowledgement of a command to a model comes to a worker. -/
def State.acknowledge (s : State) (p : Pid) (m : Nat) (ok : Bool) (rest : List Instr) :
    Option State :=
  if (s.models m).answered then none
  else
    some ((s.setModel m { s.models m with commands := (s.models m).commands - 1 }).setPipe p
      { s.pipes p with code := .acked ok :: rest })

/-- `_step_down` of a worker for an incumbent -/
def State.visit (s : State) (p : Pid) (c : Choice) (rest : List Instr) : Instr → Option State
  | .visitSend peer =>
    some (if (s.models peer).entry.any Entry.inst ∧ c.ok then
      (s.apply p (goto s.shared (s.view p)
        (.visitAwait peer :: .visitRelease peer (s.models peer).epoch :: rest))).setModel peer
          { s.models peer with commands := (s.models peer).commands + 1 }
    else s.apply p (raise s.shared (s.view p) .other))
  | .visitRelease peer epoch =>
    some (match (s.models peer).entry with
      | none => s.apply p (raise s.shared (s.view p) .other)
      | some e =>
        -- an entry that was popped meanwhile had no slot, only the state is written then
        match if (s.models peer).epoch = epoch then giveBack s.shared e c.now else some (s.shared, e) with
        | some (sh, e') =>
          { (s.apply p (goto s.shared (s.view p) rest)).setModel peer
              { s.models peer with entry := some { e' with state := .at .sleep } } with
            shared := sh }
        | none => s.apply p (raise { s.shared with freedTwice := true } (s.view p) .other))
  | _ => none

/-- One step of the orchestrator -/
def step (s : State) : Act → Option State
  | .register m level =>
    match (s.models m).entry with
    | some _ => none
    | none =>
      let r := (s.setModel m { s.models m with entry := some (.fresh level) }).makePipeline m
      some (r.1.put r.2 .register)
  | .move m target gpu =>
    if gpu.isSome ∧ (target ≠ .sleep ∨ gpu.any fun g => g ∈ s.shared.slots.draining) then none
    else s.submit m (.move target gpu) true fun e => target ≠ .saved || !e.paused
  | .generate m => s.submit m .generate true fun _ => true
  | .pause m =>
    match (s.models m).entry, s.pipelines m with
    | some e, some g =>
      if e.paused = false ∧ e.state = .running then
        some (s.setPipe (m, g) { s.pipes (m, g) with front := (s.pipes (m, g)).front ++ [.pause] })
      else none
    | _, _ => none
  | .resume m => s.submit m .resume false fun _ => true
  | .remove m =>
    match (s.models m).entry, s.pipelines m with
    | some e, some g =>
      if e.paused then none
      else
        some
          { s.put (m, g) (.remove s.shared.tickets) with
            shared := { s.shared with tickets := s.shared.tickets + 1 }
            teardowns := s.teardowns ++ [⟨(m, g), s.shared.tickets, false⟩] }
    | _, _ => none
  | .start p =>
    if (s.pipes p).code = [] ∧ s.ended p = false then
      (s.pipes p).next.map fun r => s.start p r.1 r.2
    else none
  | .work p c =>
    match (s.pipes p).code with
    | [] => none
    | i :: rest =>
      ((match (s.models p.1).entry with
        | none => execMissing p.1 s.shared (s.view p) rest i
        | some e => exec s p s.shared (s.view p) e c rest i)).map (s.apply p)
  | .visit p c =>
    match (s.pipes p).code with
    | [] => none
    | i :: rest => s.visit p c rest i
  | .ack p ok =>
    match (s.pipes p).code with
    | .await _ :: rest => s.acknowledge p p.1 ok rest
    | .visitAwait peer :: rest => s.acknowledge p peer ok rest
    | _ => none
  | .answer m =>
    if (s.models m).answered = false ∧ 0 < (s.models m).outstanding then
      some (s.setModel m
        { s.models m with outstanding := (s.models m).outstanding - 1, answered := true })
    else none
  | .listen m now =>
    if (s.models m).answered then
      let r := listen s.shared (s.models m) now
      some { s.setModel m r.2 with shared := r.1 }
    else none
  | .shutdown k =>
    match s.teardowns[k]? with
    | some ⟨p, t, false⟩ =>
      if s.shared.resolved.any fun r => r.1 = t then
        some { s.put p .shutdown with teardowns := s.teardowns.set k ⟨p, t, true⟩ }
      else none
    | _ => none
  | .drop k =>
    -- it takes out what is there, also when that is another pipeline or its worker goes on
    match s.teardowns[k]? with
    | some ⟨p, _, true⟩ =>
      some
        { s with
          pipelines := Function.update s.pipelines p.1 none
          teardowns := s.teardowns.eraseIdx k }
    | _ => none
  | .addGpu gpu => some { s with shared := { s.shared with slots := (add s.shared.slots gpu).1 } }
  | .drainGpu gpu =>
    some { s with shared := { s.shared with slots := markDraining s.shared.slots gpu } }
  | .popGpu gpu =>
    if gpu ∈ s.shared.slots.draining ∧ ∀ slot ∈ s.shared.slots.live, slot.gpuId ≠ gpu then
      some { s with shared := { s.shared with slots := (pop s.shared.slots gpu).1 } }
    else none

end ArcticPlatform.SemiPersistence.Orchestrator
