import ArcticPlatform.Library.Dict
import ArcticPlatform.Library.DyadicBlocks

/-!
# Slots of GPUs

An embedding of `inference/semi_persistence/slots.py`.  A pool of GPUs is handed out
in slots: a slot of level one is a whole GPU, one of level `k + 1` is half of one of
level `k`.  Free slots are kept in one queue for each GPU and level.

Every call holds the lock of the class while it works on the fields, so a call is one
step.  A blocked `allocate` is an entry of the queue of waiters; its thread tries
again each time it is woken.
-/

namespace ArcticPlatform.SemiPersistence

open Dicts DyadicBlocks

/-- `Slot`. -/
structure Slot where
  gpuId : Nat
  level : Nat
  index : Nat
  deriving DecidableEq

/-- The part of the GPU that a slot is. -/
def Slot.block (s : Slot) : Block := ⟨s.level, s.index⟩

/-- `_Waiter`, with the thread that waits; no GPU means the coldest one. -/
structure Waiter where
  thread : Nat
  level : Nat
  gpu : Option Nat
  deriving DecidableEq

/-- `_buddy_index`. -/
def buddyIndex (i : Nat) : Nat := i ^^^ 1

/-- `_split`. -/
def split (s : Slot) : Slot × Slot :=
  (⟨s.gpuId, s.level + 1, 2 * s.index⟩, ⟨s.gpuId, s.level + 1, 2 * s.index + 1⟩)

/-- `_parent`. -/
def parent (s : Slot) : Slot := ⟨s.gpuId, s.level - 1, s.index / 2⟩

/-- `_pools`: the queues of free slots by GPU and level. -/
abbrev Pools := Dict (Nat × Nat) (List Slot)

/-- The queue of a GPU and a level. -/
def Pools.queue (pools : Pools) (gpu level : Nat) : List Slot := (pools.get? (gpu, level)).getD []

/-- `_pools.setdefault((gpu_id, level), deque()).append(slot)`. -/
def Pools.append (pools : Pools) (s : Slot) : Pools :=
  pools.set (s.gpuId, s.level) (pools.queue s.gpuId s.level ++ [s])

/-- What is asserted. -/
inductive Assertion where
  | inited
  | notInited
  | level
  | unknownSlot
  | leakedSlots
  | rootPool
  | nonEmptyPool
  deriving DecidableEq

/-- The fields of the class; `lastUsed` has the GPUs of the pool, with times of type `τ`. -/
structure SlotsState (τ : Type) where
  inited : Bool
  pools : Pools
  live : List Slot
  lastUsed : Dict Nat τ
  waiters : List Waiter
  draining : List Nat

section Allocation

/-- The loop of `_pop_free_in_subtree` that splits a slot down to a level. -/
def splitDown (pools : Pools) (s : Slot) : Nat → Slot × Pools
  | 0 => (s, pools)
  | n + 1 => splitDown (pools.append (split s).2) (split s).1 n

/-- `_pop_free_in_subtree`, from a level upwards. -/
def popFreeInSubtree (pools : Pools) (gpu level : Nat) : Nat → Option (Slot × Pools)
  | 0 => none
  | L + 1 =>
    match pools.queue gpu (L + 1) with
    | s :: rest => some (splitDown (pools.set (gpu, L + 1) rest) s (level - s.level))
    | [] => popFreeInSubtree pools gpu level L

/-- The loop of `_try_allocate` over GPUs. -/
def tryGpus (pools : Pools) (draining : List Nat) (level : Nat) : List Nat → Option (Slot × Pools)
  | [] => none
  | g :: gpus =>
    if g ∈ draining then tryGpus pools draining level gpus
    else
      match popFreeInSubtree pools g level level with
      | some found => some found
      | none => tryGpus pools draining level gpus

variable {τ : Type} [LinearOrder τ] [Zero τ]

/-- The GPUs of the pool, the coldest first. -/
def coldestFirst (lastUsed : Dict Nat τ) : List Nat :=
  (lastUsed.entries.mergeSort fun a b => a.2 < b.2 ∨ a.2 = b.2 ∧ a.1 ≤ b.1).map Prod.fst

/-- `_try_allocate`. -/
def tryAllocateIn (s : SlotsState τ) (level : Nat) : Option Nat → Option (Slot × Pools)
  | some gpu => if gpu ∈ s.draining then none else popFreeInSubtree s.pools gpu level level
  | none => tryGpus s.pools s.draining level (coldestFirst s.lastUsed)

/-- One turn of the loop of `allocate`. -/
def attempt (s : SlotsState τ) (me : Waiter) : SlotsState τ × Option Slot :=
  if s.waiters.head? = some me then
    match tryAllocateIn s me.level me.gpu with
    | some (slot, pools) =>
      ({ s with pools := pools, waiters := s.waiters.tail, live := slot :: s.live }, some slot)
    | none => (s, none)
  else (s, none)

/-- `allocate` up to the first time it waits; it returns no slot when it does. -/
def allocate (s : SlotsState τ) (me : Waiter) : SlotsState τ × Except Assertion (Option Slot) :=
  if me.level < 1 then (s, .error .level)
  else if !s.inited then (s, .error .inited)
  else
    let r := attempt { s with waiters := s.waiters ++ [me] } me
    (r.1, .ok r.2)

/-- A waiting thread is woken and tries again. -/
def wakeUp (s : SlotsState τ) (me : Waiter) : SlotsState τ × Except Assertion (Option Slot) :=
  if me ∈ s.waiters then
    let r := attempt s me
    (r.1, .ok r.2)
  else (s, .ok none)

/-- `try_allocate`. -/
def tryAllocate (s : SlotsState τ) (level : Nat) (gpu : Option Nat) :
    SlotsState τ × Except Assertion (Option Slot) :=
  if level < 1 then (s, .error .level)
  else if !s.inited then (s, .error .inited)
  else
    match tryAllocateIn s level gpu with
    | some (slot, pools) => ({ s with pools := pools, live := slot :: s.live }, .ok (some slot))
    | none => (s, .ok none)

/-- The loop of `deallocate`: merge a slot with its buddy as long as that is free. -/
def coalesce (pools : Pools) (gpu : Nat) : (level index : Nat) → Slot × Pools
  | 0, index => (⟨gpu, 0, index⟩, pools)
  | 1, index => (⟨gpu, 1, index⟩, pools)
  | L + 2, index =>
    match (pools.queue gpu (L + 2)).find? fun x => x.index = buddyIndex index with
    | none => (⟨gpu, L + 2, index⟩, pools)
    | some buddy =>
      coalesce (pools.set (gpu, L + 2) ((pools.queue gpu (L + 2)).erase buddy)) gpu (L + 1)
        (parent ⟨gpu, L + 2, index⟩).index

/-- `deallocate` at a time. -/
def deallocate (s : SlotsState τ) (slot : Slot) (now : τ) : SlotsState τ × Except Assertion Unit :=
  if !s.inited then (s, .error .inited)
  else if slot ∉ s.live then (s, .error .unknownSlot)
  else
    let merged := coalesce s.pools slot.gpuId slot.level slot.index
    ({ s with
        live := s.live.erase slot
        pools := merged.2.append merged.1
        lastUsed := if merged.1.level = 1 then s.lastUsed.set slot.gpuId now else s.lastUsed }, .ok ())

/-! ## Lifecycle -/

/-- The loop of `init` over the GPUs. -/
def initGpus : List Nat → Pools × Dict Nat τ → Pools × Dict Nat τ
  | [], r => r
  | g :: gpus, r => initGpus gpus (r.1.set (g, 1) [⟨g, 1, 0⟩], r.2.set g 0)

/-- `init`. -/
def init (s : SlotsState τ) (gpuIds : List Nat) : SlotsState τ × Except Assertion Unit :=
  if s.inited then (s, .error .notInited)
  else
    let r := initGpus gpuIds (Dict.empty, Dict.empty)
    (⟨true, r.1, [], r.2, [], []⟩, .ok ())

/-- The class before `init`. -/
def uninitialised : SlotsState τ := ⟨false, Dict.empty, [], Dict.empty, [], []⟩

/-- `remove`. -/
def remove (s : SlotsState τ) : SlotsState τ × Except Assertion Unit :=
  if !s.inited then (s, .error .inited)
  else if s.live ≠ [] then (s, .error .leakedSlots)
  else if s.lastUsed.keys.any fun g => (s.pools.queue g 1).length ≠ 1 then (s, .error .rootPool)
  else if s.pools.entries.any fun p => p.1.2 ≠ 1 ∧ p.2 ≠ [] then (s, .error .nonEmptyPool)
  else (uninitialised, .ok ())

/-- `add`: whether the GPU is new. -/
def add (s : SlotsState τ) (gpu : Nat) : SlotsState τ × Except Assertion Bool :=
  if !s.inited then (s, .error .inited)
  else if gpu ∈ s.lastUsed.keys then (s, .ok false)
  else
    ({ s with
        pools := s.pools.set (gpu, 1) [⟨gpu, 1, 0⟩]
        lastUsed := s.lastUsed.set gpu 0
        draining := s.draining.filter (· ≠ gpu) }, .ok true)

/-- The loop of `pop` over the queues of a GPU: the queues that are left, and whether it has met one
that must be empty and is not. -/
def popQueues (pools : Pools) : List (Nat × Nat) → Pools × Bool
  | [] => (pools, true)
  | key :: keys =>
    if key.2 ≠ 1 ∧ pools.queue key.1 key.2 ≠ [] then (pools, false)
    else popQueues (pools.erase key) keys

/-- `pop`. -/
def pop (s : SlotsState τ) (gpu : Nat) : SlotsState τ × Except Assertion Unit :=
  if !s.inited then (s, .error .inited)
  else if s.live.any fun x => x.gpuId = gpu then (s, .error .leakedSlots)
  else if (s.pools.queue gpu 1).length ≠ 1 then (s, .error .rootPool)
  else
    let r := popQueues s.pools (s.pools.keys.filter fun k => k.1 = gpu)
    if r.2 then
      ({ s with
          pools := r.1
          lastUsed := s.lastUsed.erase gpu
          draining := s.draining.filter (· ≠ gpu) }, .ok ())
    else ({ s with pools := r.1 }, .error .nonEmptyPool)

/-- `Slots._draining.add(gpu)`, as `Orchestrator.sub` does it for a GPU of the pool. -/
def markDraining (s : SlotsState τ) (gpu : Nat) : SlotsState τ :=
  if s.inited ∧ gpu ∈ s.lastUsed.keys ∧ gpu ∉ s.draining then
    { s with draining := gpu :: s.draining }
  else s

/-! ## Runs -/

/-- What a thread does with the class. -/
inductive Call (τ : Type) where
  | allocate (me : Waiter)
  | wakeUp (me : Waiter)
  | tryAllocate (level : Nat) (gpu : Option Nat)
  | deallocate (slot : Slot) (now : τ)
  | add (gpu : Nat)
  | pop (gpu : Nat)
  | markDraining (gpu : Nat)

/-- The state after a call, also after one that has raised. -/
def step (s : SlotsState τ) : Call τ → SlotsState τ
  | .allocate me => (allocate s me).1
  | .wakeUp me => (wakeUp s me).1
  | .tryAllocate level gpu => (tryAllocate s level gpu).1
  | .deallocate slot now => (deallocate s slot now).1
  | .add gpu => (add s gpu).1
  | .pop gpu => (pop s gpu).1
  | .markDraining gpu => markDraining s gpu

/-- The state after a sequence of calls on a new pool. -/
def run (gpuIds : List Nat) (calls : List (Call τ)) : SlotsState τ :=
  calls.foldl step (init (uninitialised : SlotsState τ) gpuIds).1

end Allocation

end ArcticPlatform.SemiPersistence
