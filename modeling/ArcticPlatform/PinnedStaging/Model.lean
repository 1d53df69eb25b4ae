import ArcticPlatform.Library.Dict
import Mathlib.Data.List.Sort

/-!
# The pinned staging cache

An embedding of `_PinnedStagingCache` of `gpu/pinned_staging_cache.py`: pinned host buffers
that are reused across steps, in one pool for each kind of buffer and in one first-in-first-out
order over all pools.  Buffers leave the cache when they are acquired, when the cache is over its
maximum, and when a step needed fewer of their size than are kept.
-/

namespace ArcticPlatform.PinnedStaging

open Dicts

variable {DType : Type} [DecidableEq DType]

/-! ## Entries and slots -/

/-- `_round_up`. -/
def roundUp (value multiple : Nat) : Nat :=
  if multiple = 0 then value else (value + multiple - 1) / multiple * multiple

/-- `PoolKey`. -/
structure PoolKey (DType : Type) where
  isContiguous : Bool
  dtype : DType
  shape : Option (List Nat)
  stride : Option (List Nat)
  deriving DecidableEq

/-- What a cache reads of a `_PinSlot`. -/
structure Slot (DType : Type) where
  shape : List Nat
  stride : List Nat
  dtype : DType
  isContiguous : Bool

/-- `_PinnedEntry`, with its identity; the event is given by its number. -/
structure Entry (DType : Type) where
  id : Nat
  key : PoolKey DType
  capacityBytes : Nat
  event : Option Nat

/-- `PoolKey.from_slot`. -/
def PoolKey.fromSlot (slot : Slot DType) : PoolKey DType :=
  if slot.isContiguous then ⟨true, slot.dtype, none, none⟩
  else ⟨false, slot.dtype, some slot.shape, some slot.stride⟩

/-- `slot.nbytes`. -/
def Slot.nbytes (elementSize : DType → Nat) (slot : Slot DType) : Nat :=
  slot.shape.prod * elementSize slot.dtype

/-- The number of elements in the storage of `torch.empty_strided`. -/
def stridedNumel (shape stride : List Nat) : Nat :=
  if 0 ∈ shape then 0 else (List.zipWith (fun n s => (n - 1) * s) shape stride).sum + 1

/-- `_StepPinRecord`. -/
structure StepPinRecord (DType : Type) where
  entry : Entry DType
  neededBytes : Nat

/-! ## The cache -/

/-- A `Counter` of capacities. -/
abbrev Counter := Dict Nat Nat

/-- `counter.get(cap, 0)`. -/
def Counter.count (counter : Counter) (cap : Nat) : Nat := (counter.get? cap).getD 0

/-- The fields of `_PinnedStagingCache`.  The order of `_pinned_fifo` is that of its list;
`nextId` is the identity of the next buffer that is allocated. -/
structure Cache (DType : Type) [DecidableEq DType] where
  enabled : Bool
  bucketSizeBytes : Nat
  hardMaxSizeBytes : Option Nat
  autoMaxSizeBytes : Option Nat
  autoShrinkStreak : Nat
  pinnedFree : Dict (PoolKey DType) (List (Entry DType))
  pinnedFifo : List (Entry DType)
  cacheTensors : Int
  cacheBytes : Int
  stepRecords : List (StepPinRecord DType)
  retainedCapacityCounts : Dict (PoolKey DType) Counter
  nextId : Nat

/-- `_PinnedStagingCache.__init__`. -/
def Cache.init : Cache DType where
  enabled := true
  bucketSizeBytes := 64 * 2 ^ 20
  hardMaxSizeBytes := none
  autoMaxSizeBytes := none
  autoShrinkStreak := 0
  pinnedFree := .empty
  pinnedFifo := []
  cacheTensors := 0
  cacheBytes := 0
  stepRecords := []
  retainedCapacityCounts := .empty
  nextId := 0

/-- The free buffers of a kind. -/
def Cache.pool (c : Cache DType) (key : PoolKey DType) : List (Entry DType) :=
  (c.pinnedFree.get? key).getD []

/-- A pool is left with these buffers; an empty pool is dropped. -/
def Cache.setPool (c : Cache DType) (key : PoolKey DType) (pool : List (Entry DType)) : Cache DType :=
  { c with pinnedFree := if pool.isEmpty then c.pinnedFree.erase key else c.pinnedFree.set key pool }

/-- `_pinned_fifo.pop(id(entry), None)`, with the counters. -/
def Cache.popFifo (c : Cache DType) (entry : Entry DType) : Cache DType :=
  { c with
    pinnedFifo := c.pinnedFifo.eraseP (·.id = entry.id)
    cacheTensors := c.cacheTensors - 1
    cacheBytes := c.cacheBytes - entry.capacityBytes }

/-! ## Acquire and release -/

/-- The best fit of `_pop_entry`: the place of the first smallest buffer that is large enough. -/
def bestFit (nbytes : Nat) (pool : List (Entry DType)) : Option Nat :=
  (pool.zipIdx.foldl (fun best (entry, idx) =>
    if entry.capacityBytes < nbytes then best
    else
      match best with
      | none => some (idx, entry.capacityBytes)
      | some (_, bestCapacity) =>
        if entry.capacityBytes < bestCapacity then some (idx, entry.capacityBytes) else best)
    none).map Prod.fst

/-- `_pop_entry`. -/
def Cache.popEntry (elementSize : DType → Nat) (c : Cache DType) (slot : Slot DType) :
    Option (Entry DType × Cache DType) :=
  let key := PoolKey.fromSlot slot
  let pool := c.pool key
  let idx := if slot.isContiguous then bestFit (slot.nbytes elementSize) pool
    else if pool.isEmpty then none else some (pool.length - 1)
  match idx with
  | none => none
  | some idx => (pool[idx]?).map fun entry => (entry, (c.setPool key (pool.eraseIdx idx)).popFifo entry)

/-- `_allocate_entry`. -/
def Cache.allocateEntry (elementSize : DType → Nat) (c : Cache DType) (slot : Slot DType) :
    Entry DType × Cache DType :=
  let size := elementSize slot.dtype
  let capacityBytes :=
    if slot.isContiguous then
      roundUp (roundUp (slot.nbytes elementSize) c.bucketSizeBytes) size / size * size
    else stridedNumel slot.shape slot.stride * size
  (⟨c.nextId, PoolKey.fromSlot slot, capacityBytes, none⟩, { c with nextId := c.nextId + 1 })

/-- `acquire`: the buffer for a slot, whose event the offload stream has to wait for where there is
one. -/
def Cache.acquire (elementSize : DType → Nat) (c : Cache DType) (slot : Slot DType) :
    Entry DType × Cache DType :=
  match c.popEntry elementSize slot with
  | some (entry, c) => (entry, c)
  | none => c.allocateEntry elementSize slot

/-- `_evict_and_release`. -/
def Cache.evictAndRelease (c : Cache DType) (entry : Entry DType) : Cache DType :=
  let c := match c.pinnedFree.get? entry.key with
    | none => c
    | some pool => c.setPool entry.key (pool.eraseP (·.id = entry.id))
  { c.popFifo entry with stepRecords := c.stepRecords.filter (·.entry.id ≠ entry.id) }

/-! ## Eviction -/

/-- `_effective_max_size_bytes`. -/
def Cache.effectiveMaxSizeBytes (c : Cache DType) (allowAuto : Bool) : Option Nat :=
  match c.hardMaxSizeBytes with
  | some size => some size
  | none => if allowAuto then c.autoMaxSizeBytes else none

/-- `_merged_retained_counts`. -/
def Cache.mergedRetained (c : Cache DType) (cap : Nat) : Nat :=
  (c.retainedCapacityCounts.entries.map fun (_, counts) => counts.count cap).sum

/-- `_cached_counts_by_capacity`. -/
def cachedCount (entries : List (Entry DType)) (cap : Nat) : Nat :=
  entries.countP (·.capacityBytes = cap)

/-- The capacities of buffers, smallest first. -/
def capacities (entries : List (Entry DType)) : List Nat :=
  (entries.map Entry.capacityBytes).dedup.insertionSort (· ≤ ·)

/-- `_pick_cap_eviction_entry`. -/
def Cache.pickCapEvictionEntry (c : Cache DType) : Option (Entry DType) :=
  (capacities c.pinnedFifo).findSome? fun cap =>
    if cachedCount c.pinnedFifo cap ≤ c.mergedRetained cap then none
    else c.pinnedFifo.find? (·.capacityBytes = cap)

/-- A `while` loop that evicts the buffers that are picked, with what it does where none is.  No
result stands for a loop that has not ended after so many rounds. -/
def evictWhile (guard : Cache DType → Bool) (pick : Cache DType → Option (Entry DType))
    (stop : Cache DType → Cache DType) : Nat → Cache DType → Option (Cache DType)
  | 0, _ => none
  | rounds + 1, c =>
    if guard c then
      match pick c with
      | none => some (stop c)
      | some entry => evictWhile guard pick stop rounds (c.evictAndRelease entry)
    else some c

/-- `self._cache_bytes > max_size_bytes and self._pinned_fifo`. -/
def Cache.over (maxSizeBytes : Nat) (c : Cache DType) : Bool :=
  decide (c.cacheBytes > maxSizeBytes) && !c.pinnedFifo.isEmpty

/-- The `break` of `_evict_if_needed`. -/
def Cache.keepRetained (allowAuto : Bool) (c : Cache DType) : Cache DType :=
  if allowAuto && c.hardMaxSizeBytes.isNone && c.autoShrinkStreak == 0 then
    { c with autoMaxSizeBytes := some c.cacheBytes.toNat }
  else c

/-- `_evict_if_needed`. -/
def Cache.evictIfNeeded (c : Cache DType) (allowAuto : Bool) : Option (Cache DType) :=
  match c.effectiveMaxSizeBytes allowAuto with
  | none => some c
  | some maxSizeBytes =>
    let rounds := c.pinnedFifo.length + 1
    if maxSizeBytes = 0 then
      evictWhile (fun c => !c.pinnedFifo.isEmpty) (fun c => c.pinnedFifo.head?) id rounds c
    else
      evictWhile (Cache.over maxSizeBytes) Cache.pickCapEvictionEntry (Cache.keepRetained allowAuto)
        rounds c

/-- The first largest buffer. -/
def largest (entries : List (Entry DType)) : Option (Entry DType) :=
  entries.foldl (fun best entry =>
    match best with
    | none => some entry
    | some b => if b.capacityBytes < entry.capacityBytes then some entry else best) none

/-- `_evict_down_to_auto_cap`. -/
def Cache.evictDownToAutoCap (c : Cache DType) : Option (Cache DType) :=
  match c.autoMaxSizeBytes with
  | none => some c
  | some maxSizeBytes =>
    evictWhile (Cache.over maxSizeBytes) (fun c => largest c.pinnedFifo) id
      (c.pinnedFifo.length + 1) c

/-- `_needed_bytes_for_slot`. -/
def Cache.neededBytesForSlot (elementSize : DType → Nat) (c : Cache DType) (slot : Slot DType) : Nat :=
  if slot.isContiguous then roundUp (slot.nbytes elementSize) c.bucketSizeBytes
  else slot.nbytes elementSize

/-- `release`, up to the eviction: the entry goes back into its pool. -/
def Cache.giveBack (elementSize : DType → Nat) (c : Cache DType) (slot : Slot DType)
    (entry : Entry DType) (event : Option Nat) : Cache DType :=
  let entry := { entry with event }
  { c with
    pinnedFree := c.pinnedFree.set entry.key (c.pool entry.key ++ [entry])
    pinnedFifo := c.pinnedFifo ++ [entry]
    cacheTensors := c.cacheTensors + 1
    cacheBytes := c.cacheBytes + entry.capacityBytes
    stepRecords := c.stepRecords ++ [⟨entry, c.neededBytesForSlot elementSize slot⟩] }

/-- `release` of a slot that has an entry. -/
def Cache.release (elementSize : DType → Nat) (c : Cache DType) (slot : Slot DType)
    (entry : Entry DType) (event : Option Nat) : Option (Cache DType) :=
  (c.giveBack elementSize slot entry event).evictIfNeeded false

/-! ## Steps -/

/-- `_step_capacity_multiset_by_key`. -/
def stepCapacityMultisetByKey (records : List (StepPinRecord DType)) : Dict (PoolKey DType) Counter :=
  records.foldl (fun byKey record =>
    let counter : Counter := (byKey.get? record.entry.key).getD .empty
    let cap := record.entry.capacityBytes
    byKey.set record.entry.key (counter.set cap (Counter.count counter cap + 1))) .empty

/-- `_step_footprint_bytes`. -/
def stepFootprintBytes (records : List (StepPinRecord DType)) : Nat :=
  ((stepCapacityMultisetByKey records).entries.map fun (_, counts) =>
    (counts.entries.map fun (cap, count) => cap * count).sum).sum

/-- `_step_needed_footprint_bytes`. -/
def stepNeededFootprintBytes (records : List (StepPinRecord DType)) : Nat :=
  let neededByEntry : Dict Nat Nat := records.foldl (fun needed record =>
    needed.set record.entry.id
      (max ((needed.get? record.entry.id).getD 0) record.neededBytes)) .empty
  (neededByEntry.entries.map Prod.snd).sum

/-- `_record_step_capacity_multisets`. -/
def Cache.recordStepCapacityMultisets (c : Cache DType) : Cache DType :=
  let retained := (stepCapacityMultisetByKey c.stepRecords).entries.foldl
    (fun (retained : Dict (PoolKey DType) Counter) (key, stepCounts) =>
      let counts : Counter := (retained.get? key).getD .empty
      retained.set key (stepCounts.entries.foldl
        (fun (counts : Counter) (cap, count) => counts.set cap (max (Counter.count counts cap) count))
        counts))
    c.retainedCapacityCounts
  { c with retainedCapacityCounts := retained }

/-- `_AUTO_CAP_SHRINK_STEPS`. -/
def autoCapShrinkSteps : Nat := 2

/-- `_maybe_shrink_auto_cap`. -/
def Cache.maybeShrinkAutoCap (c : Cache DType) (stepNeededBytes : Nat) : Bool × Cache DType :=
  if c.hardMaxSizeBytes.isSome || stepNeededBytes = 0 then (false, c)
  else
    match c.autoMaxSizeBytes with
    | none => (false, { c with autoShrinkStreak := 0 })
    | some autoMax =>
      if stepNeededBytes < autoMax then
        if c.autoShrinkStreak + 1 ≥ autoCapShrinkSteps then
          (true, { c with autoMaxSizeBytes := some stepNeededBytes, autoShrinkStreak := 0 })
        else (false, { c with autoShrinkStreak := c.autoShrinkStreak + 1 })
      else (false, { c with autoShrinkStreak := 0 })

/-- `_contiguous_smaller_tier_excess`; `caps` are the capacities that `by_cap` counts. -/
def contiguousSmallerTierExcess (cap : Nat) (caps : List Nat) (byCap : Nat → Nat)
    (retained stepCounts : Counter) : Nat :=
  if cap ≥ retained.keys.foldl max 0 then 0
  else
    let stepNeed := stepCounts.count cap
    let directExcess := byCap cap - max (retained.count cap) stepNeed
    if directExcess > 0 then directExcess
    else if byCap cap = 0 ∨ retained.count cap ≤ stepNeed then 0
    else
      let largerAvailable := ((caps.filter (· > cap)).map byCap).sum
      if largerAvailable ≥ retained.count cap then byCap cap else 0

/-- The evictions of `_prune_excess_cached_entries` among the buffers of a pool, by capacity. -/
def Cache.prunePool (key : PoolKey DType) (retained stepCounts : Counter) (entries : List (Entry DType))
    (caps : List Nat) : List Nat → (Nat → Nat) → Cache DType → Cache DType
  | [], _, c => c
  | cap :: rest, byCap, c =>
    let excess :=
      if key.isContiguous then contiguousSmallerTierExcess cap caps byCap retained stepCounts
      else byCap cap - retained.count cap
    let evicted := (entries.filter (·.capacityBytes = cap)).take excess
    prunePool key retained stepCounts entries caps rest
      (fun cap' => if cap' = cap then byCap cap' - evicted.length else byCap cap')
      (evicted.foldl Cache.evictAndRelease c)

/-- `_prune_excess_cached_entries`. -/
def Cache.pruneExcessCachedEntries (c : Cache DType) : Cache DType :=
  let fifoSet := c.pinnedFifo.map Entry.id
  let stepByKey := stepCapacityMultisetByKey c.stepRecords
  c.pinnedFree.keys.foldl (fun c key =>
    let retained : Counter := (c.retainedCapacityCounts.get? key).getD .empty
    if retained.entries.isEmpty then c
    else
      let entries := (c.pool key).filter fun entry => decide (entry.id ∈ fifoSet)
      let caps := capacities entries
      Cache.prunePool key retained ((stepByKey.get? key).getD .empty) entries caps caps
        (cachedCount entries) c) c

/-- `finalize_step`. -/
def Cache.finalizeStep (c : Cache DType) : Option (Cache DType) :=
  let c := c.recordStepCapacityMultisets
  let stepBytes := stepFootprintBytes c.stepRecords
  let (shrank, c) := c.maybeShrinkAutoCap (stepNeededFootprintBytes c.stepRecords)
  let c :=
    if c.hardMaxSizeBytes.isNone && !shrank && decide (stepBytes > 0) &&
        c.autoMaxSizeBytes.all (fun autoMax => decide (stepBytes > autoMax)) then
      { c with autoMaxSizeBytes := some stepBytes, autoShrinkStreak := 0 }
    else c
  let c := c.pruneExcessCachedEntries
  let evicted :=
    if c.hardMaxSizeBytes.isNone then
      if shrank then c.evictDownToAutoCap else c.evictIfNeeded true
    else some c
  evicted.map fun c => { c with stepRecords := [] }

/-! ## Policy -/

/-- `clear`. -/
def Cache.clear (c : Cache DType) : Cache DType :=
  { c.pinnedFifo.foldl Cache.evictAndRelease c with
    pinnedFree := .empty, pinnedFifo := [], cacheTensors := 0, cacheBytes := 0, stepRecords := [] }

/-- `reset_learned_state`. -/
def Cache.resetLearnedState (c : Cache DType) : Cache DType :=
  { c with autoMaxSizeBytes := none, autoShrinkStreak := 0, retainedCapacityCounts := .empty }

/-- `configure`: whether the policy has changed, and the cache. -/
def Cache.configure (c : Cache DType) (enabled : Bool) (bucketSizeBytes : Nat)
    (hardMaxSizeBytes : Option Nat) : Option (Bool × Cache DType) :=
  let policyChanged := decide (c.enabled ≠ enabled ∨ c.bucketSizeBytes ≠ bucketSizeBytes ∨
    c.hardMaxSizeBytes ≠ hardMaxSizeBytes)
  let c := { c with enabled, bucketSizeBytes, hardMaxSizeBytes }
  let c := if policyChanged then c.clear.resetLearnedState else c
  (c.evictIfNeeded true).map fun c => (policyChanged, c)

end ArcticPlatform.PinnedStaging
