import ArcticPlatform.Library.Dict
import ArcticPlatform.Library.Multimaps
import ArcticPlatform.Library.Runs
import ArcticPlatform.Library.Slices

/-!
# The prefix block pool

An embedding of `PrefixCacheableElasticBlockPool` of
`inference/vllm/kvcached/prefix_block_pool.py`.  A block is named by its id; an id
for which no block has been made reads as a new block.  The memory manager is the list
of its free ids, and what it reports as available and what it answers to an allocation
come with a call.
-/

namespace ArcticPlatform.PrefixPool

open Dicts Multimaps Slices

variable {H W : Type} [DecidableEq H]

/-- `make_block_hash_with_group_id`. -/
abbrev Key (H : Type) := H × Nat

/-- `KVCacheBlock`. -/
structure Block (H : Type) where
  refCnt : Int
  blockHash : Option (Key H)
  numTokens : Option Nat

/-- `block.reset_hash()`. -/
def Block.resetHash (b : Block H) : Block H := { b with blockHash := none, numTokens := none }

/-- What happens to a block. -/
inductive Event (H W : Type) where
  | cached (key : Key H) (id : Nat)
  | registered (id : Nat) (watcher : W)
  | called (id : Nat) (watcher : W)
  | handedOut (id : Nat)
  | returned (id : Nat)
deriving DecidableEq

/-- The sizes of a pool; `mergedHashes` is `BlockHashListWithBlockSize`. -/
structure Config (H : Type) where
  nullBlock : Nat
  ids : List Nat
  pressureThreshold : Nat
  hashBlockSize : Nat
  mergedHashes : List H → Nat → Nat → List H

/-- The pool and its memory manager. -/
structure Pool (H W : Type) where
  enableCaching : Bool
  block : Nat → Block H
  evictionQueue : List Nat
  /-- `cached_block_hash_to_block` -/
  hashToBlock : Multimap (Key H) Nat
  /-- `cached_block_hashes_by_block` -/
  hashesByBlock : Nat → List (Key H)
  /-- `_reuse_watchers` -/
  reuseWatchers : Dict Nat W
  /-- The ids that are free at `kv_cache_manager`. -/
  free : List Nat
  log : List (Event H W)

/-- A new pool; the null block is allocated. -/
def new (cfg : Config H) (enableCaching : Bool) : Pool H W where
  enableCaching := enableCaching
  block := fun _ => ⟨0, none, none⟩
  evictionQueue := []
  hashToBlock := .empty
  hashesByBlock := fun _ => []
  reuseWatchers := .empty
  free := cfg.ids.filter (· ≠ cfg.nullBlock)
  log := []

namespace Pool

variable (p : Pool H W)

/-! ## Fields of a block -/

def setRefCnt (id : Nat) (n : Int) : Pool H W :=
  { p with block := Function.update p.block id { p.block id with refCnt := n } }

def resetHash (id : Nat) : Pool H W :=
  { p with block := Function.update p.block id (p.block id).resetHash }

def record (e : Event H W) : Pool H W := { p with log := p.log ++ [e] }

/-! ## Hashes -/

/-- The block is taken out of the map under each of the hashes; the hashes under which it was. -/
def popHashes (id : Nat) (m : Multimap (Key H) Nat) :
    List (Key H) → Multimap (Key H) Nat × List (Key H)
  | [] => (m, [])
  | key :: keys =>
    let (m', removed) := popHashes id (m.pop key id) keys
    (m', if m.contains key id then key :: removed else removed)

/-- `_remove_cached_block_hashes`. -/
def removeCachedBlockHashes (id : Nat) : Pool H W × List (Key H) :=
  let keys := (p.block id).blockHash.toList ++ p.hashesByBlock id
  let (m, removed) := popHashes id p.hashToBlock keys
  ({ p with
      hashesByBlock := Function.update p.hashesByBlock id []
      hashToBlock := m
      block := Function.update p.block id (p.block id).resetHash }, removed)

/-- `_evict_hash`. -/
def evictHash (id : Nat) : Pool H W := (p.removeCachedBlockHashes id).1

/-- `_insert_block_hash`. -/
def insertBlockHash (key : Key H) (id : Nat) (numTokens : Option Nat) : Pool H W :=
  if (p.block id).blockHash = some key ∨ p.hashToBlock.contains key id then p
  else
    let p' : Pool H W :=
      if (p.block id).blockHash = none then
        { p with
          block := Function.update p.block id
            { p.block id with blockHash := some key, numTokens := numTokens } }
      else
        { p with
          hashesByBlock := Function.update p.hashesByBlock id
            (if key ∈ p.hashesByBlock id then p.hashesByBlock id
              else p.hashesByBlock id ++ [key]) }
    { p' with hashToBlock := p.hashToBlock.insert key id, log := p.log ++ [.cached key id] }

/-! ## Watchers, eviction and the manager -/

/-- `_notify_reuse`. -/
def notifyReuse (id : Nat) : Pool H W :=
  match p.reuseWatchers.get? id with
  | none => p
  | some watcher =>
    { p with reuseWatchers := p.reuseWatchers.erase id, log := p.log ++ [.called id watcher] }

/-- `kv_cache_manager.free(ids)`. -/
def managerFree (ids : List Nat) : Pool H W :=
  { p with free := p.free ++ ids, log := p.log ++ ids.map .returned }

/-- A block leaves the pool: its hashes and its watcher go. -/
def release (id : Nat) : Pool H W := (p.evictHash id).notifyReuse id

/-- `_flush_eviction_queue`. -/
def flushEvictionQueue : Pool H W :=
  (p.evictionQueue.foldl release { p with evictionQueue := [] }).managerFree p.evictionQueue

/-- `_maybe_relieve_pressure`. -/
def maybeRelievePressure (cfg : Config H) (available : Nat) : Pool H W :=
  if p.evictionQueue = [] then p
  else if available < cfg.pressureThreshold then p.flushEvictionQueue else p

/-! ## The interface -/

/-- `get_cached_block`; `getOne` is `get_one_block`. -/
def getCachedBlock (getOne : Multimap (Key H) Nat → Key H → Option Nat) (hash : H)
    (groups : List Nat) : Option (List Nat) :=
  if p.enableCaching then groups.mapM fun group => getOne p.hashToBlock (hash, group) else none

/-- One block of `cache_full_blocks`. -/
def cacheFullBlock (cfg : Config H) (hashes : List H) (mask : Option (List Bool))
    (numCached blockSize group : Nat) (p : Pool H W) (entry : Nat × Nat) : Option (Pool H W) :=
  let (id, i) := entry
  if id = cfg.nullBlock ∨ mask.any (fun m => !m.getD i true) then some p
  else do
    let hash ← (hashes.drop numCached)[i]?
    let numHashTokens := (numCached + i + 1) * blockSize
    match (p.block id).blockHash, (p.block id).numTokens with
    | none, _ => some (p.insertBlockHash (hash, group) id (some numHashTokens))
    | some _, none => some p
    | some _, some existing =>
      if existing < numHashTokens then
        some ((p.evictHash id).insertBlockHash (hash, group) id (some numHashTokens))
      else none

/-- `cache_full_blocks`. -/
def cacheFullBlocks (cfg : Config H) (blockHashes : List H) (blocks : List Nat)
    (numCached numFull blockSize group : Nat) (mask : Option (List Bool)) : Option (Pool H W) :=
  if !p.enableCaching ∨ numFull ≤ numCached then some p
  else
    let newFull := slice blocks numCached numFull
    if blockHashes.length < numFull ∨ mask.any (fun m => m.length ≠ newFull.length) ∨
        (blockSize ≠ cfg.hashBlockSize ∧ blockSize % cfg.hashBlockSize ≠ 0) then none
    else
      let hashes := if blockSize = cfg.hashBlockSize then blockHashes
        else cfg.mergedHashes blockHashes cfg.hashBlockSize blockSize
      newFull.zipIdx.foldlM (cacheFullBlock cfg hashes mask numCached blockSize group) p

/-- `cache_partial_block`. -/
def cachePartialBlock (cfg : Config H) (blockHashes : List H) (id numTokens group blockSize : Nat) :
    Option (Pool H W) :=
  if !p.enableCaching ∨ id = cfg.nullBlock then some p
  else if cfg.hashBlockSize < blockSize ∧ blockSize % cfg.hashBlockSize = 0 ∧
      numTokens % blockSize ≠ 0 ∧ numTokens % cfg.hashBlockSize = 0 ∧
      0 < numTokens / cfg.hashBlockSize then do
    let hash ← blockHashes[numTokens / cfg.hashBlockSize - 1]?
    let key := (hash, group)
    let shorter := (p.block id).numTokens.any (· < numTokens)
    let p' := if !p.hashToBlock.contains key id ∧ (p.block id).blockHash ≠ none ∧ shorter then
      p.evictHash id else p
    some (p'.insertBlockHash key id (some numTokens))
  else none

/-- `move_block_hashes`. -/
def moveBlockHashes (src dst : Nat) : Option (Pool H W) :=
  if (p.block dst).blockHash ≠ none ∨ p.hashesByBlock dst ≠ [] then none
  else
    let numTokens := (p.block src).numTokens
    let (p', keys) := p.removeCachedBlockHashes src
    some (keys.foldl (fun p key => p.insertBlockHash key dst numTokens) p')

/-- The blocks `get_new_blocks` takes from the eviction queue. -/
def takenCount (n : Nat) : Nat := if p.enableCaching then min n p.evictionQueue.length else 0

/-- A block of the eviction queue is handed out. -/
def reuse (id : Nat) : Pool H W :=
  (((p.evictHash id).setRefCnt id 1).notifyReuse id).record (.handedOut id)

/-- A block of the manager is handed out. -/
def allocate (id : Nat) : Pool H W :=
  (((p.resetHash id).setRefCnt id 1).notifyReuse id).record (.handedOut id)

/-- `get_new_blocks`, with what `available_size` reports and what `alloc` answers; an
allocation that fails raises after the eviction queue has been used. -/
def getNewBlocks (n available : Nat) (answer : Option (List Nat)) : Option (Pool H W) :=
  let evictionCount := if p.enableCaching then p.evictionQueue.length else 0
  if evictionCount + available < n then none
  else
    let taken := p.takenCount n
    let p' := (p.evictionQueue.take taken).foldl reuse
      { p with evictionQueue := p.evictionQueue.drop taken }
    if n - taken = 0 then some p'
    else
      match answer with
      | none => some p'
      | some ids =>
        let p' := { p' with free := p'.free.filter (· ∉ ids) }
        if ids.length < n - taken then some p' else some (ids.foldl allocate p')

/-- `free_blocks`. -/
def freeBlocks (cfg : Config H) (blocks : List Nat) (available : Nat) : Pool H W :=
  let p' := blocks.foldl (fun p id => p.setRefCnt id ((p.block id).refCnt - 1)) p
  let freed := blocks.filter fun id => (p'.block id).refCnt = 0 ∧ id ≠ cfg.nullBlock
  if freed = [] then p'
  else if p.enableCaching then
    { p' with evictionQueue := p'.evictionQueue ++ freed }.maybeRelievePressure cfg available
  else (freed.foldl evictHash p').managerFree freed

/-- One block of `unpin_blocks`. -/
def unpinBlock (cfg : Config H) (onReuse : W) (s : Pool H W × List Nat) (id : Nat) :
    Option (Pool H W × List Nat) :=
  let (p, released) := s
  if 0 < (p.block id).refCnt ∧ id ≠ cfg.nullBlock then
    let p' := p.setRefCnt id ((p.block id).refCnt - 1)
    let p' := { p' with
      reuseWatchers := p.reuseWatchers.set id onReuse
      log := p.log ++ [.registered id onReuse] }
    some (p', if (p'.block id).refCnt = 0 then released ++ [id] else released)
  else none

/-- `unpin_blocks`. -/
def unpinBlocks (cfg : Config H) (blocks : List Nat) (onReuse : W) (available : Nat) :
    Option (Pool H W) := do
  let (p', released) ← blocks.foldlM (unpinBlock cfg onReuse) (p, [])
  if released = [] then some p'
  else if p.enableCaching then
    some ({ p' with evictionQueue := p'.evictionQueue ++ released }.maybeRelievePressure cfg
      available)
  else some ((released.foldl release p').managerFree released)

/-- One block of `touch`. -/
def touchBlock (cfg : Config H) (p : Pool H W) (id : Nat) : Pool H W :=
  let p' := if (p.block id).refCnt = 0 ∧ id ≠ cfg.nullBlock then
    { p with evictionQueue := p.evictionQueue.erase id } else p
  p'.setRefCnt id ((p.block id).refCnt + 1)

/-- `touch`. -/
def touch (cfg : Config H) (blocks : List Nat) : Pool H W :=
  if p.enableCaching then blocks.foldl (touchBlock cfg) p else p

/-- Every watcher is called, in the order of `_reuse_watchers`. -/
def callWatchers : Pool H W where
  __ := p
  reuseWatchers := .empty
  log := p.log ++ p.reuseWatchers.entries.map fun entry => .called entry.1 entry.2

/-- `reset_prefix_cache`. -/
def resetPrefixCache : Pool H W :=
  let p' := p.callWatchers.flushEvictionQueue
  { p' with
    hashToBlock := .empty
    hashesByBlock := fun _ => []
    block := fun id => (p'.block id).resetHash }

/-- `evict_blocks`. -/
def evictBlocks (ids : List Nat) : Pool H W := ids.foldl evictHash p

/-- `set_caching_enabled`. -/
def setCachingEnabled (cfg : Config H) (enabled : Bool) : Pool H W :=
  if p.enableCaching ∧ !enabled then
    let p' := p.flushEvictionQueue
    { p' with
      hashToBlock := .empty
      hashesByBlock := fun _ => []
      block := fun id => if id = cfg.nullBlock then p'.block id else (p'.block id).resetHash
      enableCaching := enabled }
  else { p with enableCaching := enabled }

end Pool

/-! ## Calls -/

/-- A call of the pool. -/
inductive Act (H W : Type) where
  | getNewBlocks (n available : Nat) (answer : Option (List Nat))
  | cacheFullBlocks (blockHashes : List H) (blocks : List Nat)
      (numCached numFull blockSize group : Nat) (mask : Option (List Bool))
  | cachePartialBlock (blockHashes : List H) (id numTokens group blockSize : Nat)
  | touch (blocks : List Nat)
  | freeBlocks (blocks : List Nat) (available : Nat)
  | unpinBlocks (blocks : List Nat) (onReuse : W) (available : Nat)
  | evictBlocks (ids : List Nat)
  | moveBlockHashes (src dst : Nat)
  | resetPrefixCache
  | setCachingEnabled (enabled : Bool)

/-- The pool after a call. -/
def step (cfg : Config H) (p : Pool H W) : Act H W → Option (Pool H W)
  | .getNewBlocks n available answer => p.getNewBlocks n available answer
  | .cacheFullBlocks blockHashes blocks numCached numFull blockSize group mask =>
    p.cacheFullBlocks cfg blockHashes blocks numCached numFull blockSize group mask
  | .cachePartialBlock blockHashes id numTokens group blockSize =>
    p.cachePartialBlock cfg blockHashes id numTokens group blockSize
  | .touch blocks => some (p.touch cfg blocks)
  | .freeBlocks blocks available => some (p.freeBlocks cfg blocks available)
  | .unpinBlocks blocks onReuse available => p.unpinBlocks cfg blocks onReuse available
  | .evictBlocks ids => some (p.evictBlocks ids)
  | .moveBlockHashes src dst => p.moveBlockHashes src dst
  | .resetPrefixCache => some p.resetPrefixCache
  | .setCachingEnabled enabled => some (p.setCachingEnabled cfg enabled)

end ArcticPlatform.PrefixPool
