import ArcticPlatform.PrefixPool.Model

/-!
# What the helpers of the pool keep

A block that is not referenced, not in the eviction queue and not free is outside while
a call works on it.  The helpers keep the places of the blocks, the agreement of the
hash map with the hashes the blocks record, and the history of the watchers.

Main results:

- Theorems `Inv.evictHash`, `Inv.insertBlockHash`, `Inv.notifyReuse`: the
  helpers keep the invariant.
- Theorem `Inv.flushEvictionQueue`: flushing keeps it.
-/

namespace ArcticPlatform.PrefixPool

open Dicts Multimaps Runs List

variable {H W : Type} {cfg : Config H} {p p' : Pool H W} {out : List Nat}

/-! ## The invariant -/

/-- The block records the hash. -/
def Records (p : Pool H W) (key : Key H) (id : Nat) : Prop :=
  (p.block id).blockHash = some key ∨ key ∈ p.hashesByBlock id

/-- One event, seen by the watcher of a block that has not been called yet. -/
def pendingStep (id : Nat) (pending : Option W) : Event H W → Option W
  | .registered id' watcher => if id' = id then some watcher else pending
  | .called id' _ => if id' = id then none else pending
  | _ => pending

/-- The watcher that was registered last for a block, if it has not been called. -/
def pending (log : List (Event H W)) (id : Nat) : Option W := log.foldl (pendingStep id) none

/-- A watcher is called while it is the one that was registered last, and a block is handed out or
returned when its watcher has been called. -/
def Allowed (past : List (Event H W)) : Event H W → Prop
  | .called id watcher => pending past id = some watcher
  | .handedOut id => pending past id = none
  | .returned id => pending past id = none
  | _ => True

/-- The block has not been handed out or returned since it was cached under the hash. -/
def Fresh (log : List (Event H W)) (key : Key H) (id : Nat) : Prop :=
  ∃ past rest, log = past ++ .cached key id :: rest ∧
    ∀ e ∈ rest, e ≠ .handedOut id ∧ e ≠ .returned id

/-- Every block is in one place; those in `out` are in none. -/
structure Places (cfg : Config H) (out : List Nat) (p : Pool H W) : Prop where
  queue_nodup : p.evictionQueue.Nodup
  null_queue : cfg.nullBlock ∉ p.evictionQueue
  off : p.enableCaching = false → p.evictionQueue = []
  nonneg : ∀ id, id ≠ cfg.nullBlock → 0 ≤ (p.block id).refCnt
  referenced : ∀ id, id ≠ cfg.nullBlock → 0 < (p.block id).refCnt →
    id ∈ cfg.ids ∧ id ∉ p.evictionQueue ∧ id ∉ p.free ∧ id ∉ out
  queued : ∀ id ∈ p.evictionQueue, (p.block id).refCnt = 0 ∧ id ∈ cfg.ids ∧ id ∉ p.free ∧ id ∉ out
  freed : ∀ id ∈ p.free, (p.block id).refCnt = 0 ∧ id ∈ cfg.ids ∧ id ≠ cfg.nullBlock ∧ id ∉ out
  outside : ∀ id ∈ out, (p.block id).refCnt = 0 ∧ id ∈ cfg.ids ∧ id ≠ cfg.nullBlock
  cover : ∀ id ∈ cfg.ids, id ≠ cfg.nullBlock →
    0 < (p.block id).refCnt ∨ id ∈ p.evictionQueue ∨ id ∈ p.free ∨ id ∈ out

/-- The map holds what the blocks record, and only blocks in use or in the queue record hashes. -/
structure Table [DecidableEq H] (cfg : Config H) (p : Pool H W) : Prop where
  recorded : ∀ key id, p.hashToBlock.contains key id = true ↔ Records p key id
  held : ∀ key id, Records p key id → id ∉ p.free ∧ id ≠ cfg.nullBlock ∧ p.enableCaching = true

/-- The history agrees with the watchers and with the map. -/
structure Logged (p : Pool H W) : Prop where
  watchers : ∀ id, pending p.log id = p.reuseWatchers.get? id
  allowed : EachTime Allowed p.log
  fresh : ∀ key id, Records p key id → Fresh p.log key id

/-- What holds between the steps of a call. -/
structure Inv [DecidableEq H] (cfg : Config H) (out : List Nat) (p : Pool H W) : Prop where
  places : Places cfg out p
  table : Table cfg p
  logged : Logged p

/-! ## Histories -/

theorem pending_append (log : List (Event H W)) (e : Event H W) (id : Nat) :
    pending (log ++ [e]) id = pendingStep id (pending log id) e := by
  rw [pending, foldl_append]
  rfl

variable {log : List (Event H W)} {id : Nat}

theorem Fresh.append {key : Key H} (h : Fresh log key id) {e : Event H W} (hout : e ≠ .handedOut id)
    (hret : e ≠ .returned id) : Fresh (log ++ [e]) key id := by
  obtain ⟨past, rest, rfl, hrest⟩ := h
  refine ⟨past, rest ++ [e], by simp, ?_⟩
  intro e' he'
  rcases mem_append.mp he' with he' | he'
  · exact hrest e' he'
  · rw [mem_singleton.mp he']
    exact ⟨hout, hret⟩

theorem fresh_cached (log : List (Event H W)) (key : Key H) (id : Nat) :
    Fresh (log ++ [.cached key id]) key id := ⟨log, [], rfl, by simp⟩

/-! ## Frames -/

/-- The places depend on the mode, the references, the queue and the manager. -/
theorem Places.congr (h : Places cfg out p) (hmode : p'.enableCaching = p.enableCaching)
    (hqueue : p'.evictionQueue = p.evictionQueue) (hfree : p'.free = p.free)
    (href : ∀ id, (p'.block id).refCnt = (p.block id).refCnt) : Places cfg out p' := by
  constructor
  · rw [hqueue]
    exact h.queue_nodup
  · rw [hqueue]
    exact h.null_queue
  · rw [hmode, hqueue]
    exact h.off
  · intro id
    rw [href]
    exact h.nonneg id
  · intro id
    rw [href, hqueue, hfree]
    exact h.referenced id
  · intro id
    rw [href, hqueue, hfree]
    exact h.queued id
  · intro id
    rw [href, hfree]
    exact h.freed id
  · intro id
    rw [href]
    exact h.outside id
  · intro id
    rw [href, hqueue, hfree]
    exact h.cover id

/-! ## Calling a watcher -/

section Notify

variable (p) (id : Nat)

@[simp] theorem notifyReuse_enableCaching :
    (p.notifyReuse id).enableCaching = p.enableCaching := by
  unfold Pool.notifyReuse
  split <;> rfl

@[simp] theorem notifyReuse_evictionQueue :
    (p.notifyReuse id).evictionQueue = p.evictionQueue := by
  unfold Pool.notifyReuse
  split <;> rfl

@[simp] theorem notifyReuse_free : (p.notifyReuse id).free = p.free := by
  unfold Pool.notifyReuse
  split <;> rfl

@[simp] theorem notifyReuse_block : (p.notifyReuse id).block = p.block := by
  unfold Pool.notifyReuse
  split <;> rfl

@[simp] theorem notifyReuse_hashToBlock : (p.notifyReuse id).hashToBlock = p.hashToBlock := by
  unfold Pool.notifyReuse
  split <;> rfl

theorem records_notifyReuse (key : Key H) (id' : Nat) :
    Records (p.notifyReuse id) key id' ↔ Records p key id' := by
  unfold Pool.notifyReuse
  split <;> rfl

/-- A block has no watcher once it has been called. -/
theorem notifyReuse_reuseWatchers (id' : Nat) :
    (p.notifyReuse id).reuseWatchers.get? id' =
      if id' = id then none else p.reuseWatchers.get? id' := by
  unfold Pool.notifyReuse
  split
  · rename_i hnone
    by_cases h : id' = id
    · rw [if_pos h, h, hnone]
    · rw [if_neg h]
  · exact Dict.get?_erase _ _ _

end Notify

variable [DecidableEq H]

/-! ## Removing hashes -/

theorem contains_popHashes (id : Nat) (m : Multimap (Key H) Nat) (keys : List (Key H))
    (key : Key H) (id' : Nat) :
    (Pool.popHashes id m keys).1.contains key id' = true ↔
      m.contains key id' = true ∧ ¬(id' = id ∧ key ∈ keys) := by
  induction keys generalizing m with
  | nil => simp [Pool.popHashes]
  | cons k keys ih =>
    simp only [Pool.popHashes, ih, Multimap.contains_pop, mem_cons]
    tauto

theorem popHashes_subset (id : Nat) (m : Multimap (Key H) Nat) (keys : List (Key H)) :
    ∀ key ∈ (Pool.popHashes id m keys).2, key ∈ keys := by
  induction keys generalizing m with
  | nil => simp [Pool.popHashes]
  | cons k keys ih =>
    intro key hkey
    simp only [Pool.popHashes] at hkey
    split_ifs at hkey
    · rcases mem_cons.mp hkey with rfl | hkey
      · exact mem_cons_self
      · exact mem_cons_of_mem _ (ih _ key hkey)
    · exact mem_cons_of_mem _ (ih _ key hkey)

section Evict

variable (p) (id : Nat)

@[simp] theorem evictHash_enableCaching : (p.evictHash id).enableCaching = p.enableCaching := rfl

@[simp] theorem evictHash_evictionQueue : (p.evictHash id).evictionQueue = p.evictionQueue := rfl

@[simp] theorem evictHash_reuseWatchers : (p.evictHash id).reuseWatchers = p.reuseWatchers := rfl

@[simp] theorem evictHash_free : (p.evictHash id).free = p.free := rfl

@[simp] theorem evictHash_log : (p.evictHash id).log = p.log := rfl

@[simp]
theorem evictHash_refCnt (id' : Nat) :
    ((p.evictHash id).block id').refCnt = (p.block id').refCnt := by
  by_cases h : id' = id
  · subst h
    simp [Pool.evictHash, Pool.removeCachedBlockHashes, Block.resetHash]
  · simp [Pool.evictHash, Pool.removeCachedBlockHashes, h]

theorem records_evictHash (key : Key H) (id' : Nat) :
    Records (p.evictHash id) key id' ↔ Records p key id' ∧ id' ≠ id := by
  by_cases h : id' = id
  · subst h
    simp [Records, Pool.evictHash, Pool.removeCachedBlockHashes, Block.resetHash]
  · simp [Records, Pool.evictHash, Pool.removeCachedBlockHashes, h]

theorem contains_evictHash (key : Key H) (id' : Nat) :
    (p.evictHash id).hashToBlock.contains key id' = true ↔
      p.hashToBlock.contains key id' = true ∧ ¬(id' = id ∧ Records p key id) := by
  have hkeys : key ∈ (p.block id).blockHash.toList ++ p.hashesByBlock id ↔ Records p key id := by
    rw [mem_append, Option.mem_toList, Records]
  rw [← hkeys, ← contains_popHashes]
  rfl

end Evict

/-- A block whose hashes are removed is found under none. -/
theorem Inv.evictHash (h : Inv cfg out p) (id : Nat) : Inv cfg out (p.evictHash id) where
  places := h.places.congr rfl rfl rfl (evictHash_refCnt p id)
  table := by
    constructor
    · intro key id'
      rw [contains_evictHash, records_evictHash, h.table.recorded]
      constructor
      · rintro ⟨hrec, hne⟩
        refine ⟨hrec, fun hid => hne ⟨hid, hid ▸ hrec⟩⟩
      · rintro ⟨hrec, hne⟩
        exact ⟨hrec, fun hid => hne hid.1⟩
    · intro key id' hrec
      exact h.table.held key id' ((records_evictHash p id key id').mp hrec).1
  logged := by
    refine ⟨h.logged.watchers, h.logged.allowed, fun key id' hrec => ?_⟩
    exact h.logged.fresh key id' ((records_evictHash p id key id').mp hrec).1

/-! ## Recording a hash -/

section Insert

variable (p) (key : Key H) (id : Nat) (numTokens : Option Nat)

theorem insertBlockHash_enableCaching :
    (p.insertBlockHash key id numTokens).enableCaching = p.enableCaching := by
  unfold Pool.insertBlockHash
  split_ifs <;> rfl

theorem insertBlockHash_evictionQueue :
    (p.insertBlockHash key id numTokens).evictionQueue = p.evictionQueue := by
  unfold Pool.insertBlockHash
  split_ifs <;> rfl

theorem insertBlockHash_reuseWatchers :
    (p.insertBlockHash key id numTokens).reuseWatchers = p.reuseWatchers := by
  unfold Pool.insertBlockHash
  split_ifs <;> rfl

theorem insertBlockHash_free : (p.insertBlockHash key id numTokens).free = p.free := by
  unfold Pool.insertBlockHash
  split_ifs <;> rfl

theorem insertBlockHash_refCnt (id' : Nat) :
    ((p.insertBlockHash key id numTokens).block id').refCnt = (p.block id').refCnt := by
  unfold Pool.insertBlockHash
  split_ifs
  · rfl
  · by_cases h : id' = id
    · subst h
      simp
    · simp [h]
  · rfl
  · rfl

theorem insertBlockHash_log :
    (p.insertBlockHash key id numTokens).log = p.log ∧
        ((p.block id).blockHash = some key ∨ p.hashToBlock.contains key id = true) ∨
      (p.insertBlockHash key id numTokens).log = p.log ++ [.cached key id] := by
  unfold Pool.insertBlockHash
  split_ifs with h
  · exact .inl ⟨rfl, h⟩
  · exact .inr rfl
  · exact .inr rfl
  · exact .inr rfl

variable {p}

/-- The block records the hash besides what it recorded. -/
theorem Table.records_insert (h : Table cfg p) (key' : Key H) (id' : Nat) :
    Records (p.insertBlockHash key id numTokens) key' id' ↔
      (key' = key ∧ id' = id) ∨ Records p key' id' := by
  unfold Pool.insertBlockHash
  split_ifs with hkey hnone hmem
  · -- the block records the hash already
    have hrec : Records p key id := by
      rcases hkey with hkey | hkey
      · exact .inl hkey
      · exact (h.recorded key id).mp hkey
    constructor
    · exact .inr
    · rintro (⟨rfl, rfl⟩ | hrec')
      · exact hrec
      · exact hrec'
  · by_cases hid : id' = id
    · subst hid
      simp [Records, hnone, eq_comm]
    · simp [Records, hid]
  · by_cases hid : id' = id
    · subst hid
      simp only [Records, Function.update_self]
      constructor
      · exact .inr
      · rintro (⟨rfl, -⟩ | hrec)
        · exact .inr hmem
        · exact hrec
    · simp [Records, hid]
  · by_cases hid : id' = id
    · subst hid
      simp only [Records, Function.update_self, mem_append, mem_singleton]
      tauto
    · simp [Records, hid]

theorem Table.contains_insert (h : Table cfg p) (key' : Key H) (id' : Nat) :
    (p.insertBlockHash key id numTokens).hashToBlock.contains key' id' = true ↔
      (key' = key ∧ id' = id) ∨ p.hashToBlock.contains key' id' = true := by
  have hrecords := h.records_insert key id numTokens key' id'
  by_cases hkey : (p.block id).blockHash = some key ∨ p.hashToBlock.contains key id = true
  · rw [h.recorded, ← hrecords, Pool.insertBlockHash, if_pos hkey, h.recorded]
  · rw [← Multimap.contains_insert, Pool.insertBlockHash, if_neg hkey]

end Insert

/-- Recording a hash of a block that is in use or in the queue. -/
theorem Inv.insertBlockHash (h : Inv cfg out p) (key : Key H) (numTokens : Option Nat)
    (hfree : id ∉ p.free) (hnull : id ≠ cfg.nullBlock) (hmode : p.enableCaching = true) :
    Inv cfg out (p.insertBlockHash key id numTokens) where
  places := h.places.congr (insertBlockHash_enableCaching p key id numTokens)
    (insertBlockHash_evictionQueue p key id numTokens) (insertBlockHash_free p key id numTokens)
    (insertBlockHash_refCnt p key id numTokens)
  table := by
    constructor
    · intro key' id'
      rw [h.table.contains_insert, h.table.records_insert, h.table.recorded]
    · intro key' id' hrec
      rw [insertBlockHash_free, insertBlockHash_enableCaching]
      rcases (h.table.records_insert key id numTokens key' id').mp hrec with ⟨-, rfl⟩ | hrec
      · exact ⟨hfree, hnull, hmode⟩
      · exact h.table.held key' id' hrec
  logged := by
    rcases insertBlockHash_log p key id numTokens with ⟨hlog, hkey⟩ | hlog
    · have hrec : Records p key id := by
        rcases hkey with hkey | hkey
        · exact .inl hkey
        · exact (h.table.recorded key id).mp hkey
      refine ⟨?_, by rw [hlog]; exact h.logged.allowed, ?_⟩
      · intro id'
        rw [hlog, insertBlockHash_reuseWatchers, h.logged.watchers]
      · intro key' id' hrec'
        rw [hlog]
        rcases (h.table.records_insert key id numTokens key' id').mp hrec' with ⟨rfl, rfl⟩ | hrec'
        · exact h.logged.fresh _ _ hrec
        · exact h.logged.fresh _ _ hrec'
    · refine ⟨?_, ?_, ?_⟩
      · intro id'
        rw [hlog, pending_append, insertBlockHash_reuseWatchers]
        exact h.logged.watchers id'
      · rw [hlog, eachTime_snoc]
        exact ⟨h.logged.allowed, trivial⟩
      · intro key' id' hrec'
        rw [hlog]
        rcases (h.table.records_insert key id numTokens key' id').mp hrec' with ⟨rfl, rfl⟩ | hrec'
        · exact fresh_cached _ _ _
        · exact (h.logged.fresh _ _ hrec').append (by simp) (by simp)

/-! ## Blocks that leave the pool -/

/-- A watcher is called once. -/
theorem Inv.notifyReuse (h : Inv cfg out p) (id : Nat) : Inv cfg out (p.notifyReuse id) where
  places := h.places.congr (notifyReuse_enableCaching p id) (notifyReuse_evictionQueue p id)
    (notifyReuse_free p id) fun id' => by rw [notifyReuse_block]
  table := by
    constructor
    · intro key id'
      rw [notifyReuse_hashToBlock, records_notifyReuse, h.table.recorded]
    · intro key id' hrec
      rw [notifyReuse_free, notifyReuse_enableCaching]
      exact h.table.held key id' ((records_notifyReuse p id key id').mp hrec)
  logged := by
    have hrecords : ∀ key id', Records (p.notifyReuse id) key id' → Records p key id' :=
      fun key id' => (records_notifyReuse p id key id').mp
    have hwatchers := notifyReuse_reuseWatchers p id
    cases hget : p.reuseWatchers.get? id with
    | none =>
      have hsame : p.notifyReuse id = p := by
        unfold Pool.notifyReuse
        rw [hget]
      rw [hsame]
      exact h.logged
    | some watcher =>
      have hlog : (p.notifyReuse id).log = p.log ++ [.called id watcher] := by
        unfold Pool.notifyReuse
        rw [hget]
      refine ⟨?_, ?_, ?_⟩
      · intro id'
        rw [hlog, pending_append, hwatchers, pendingStep]
        by_cases hid : id' = id
        · rw [if_pos hid.symm, if_pos hid]
        · rw [if_neg (Ne.symm hid), if_neg hid, h.logged.watchers]
      · rw [hlog, eachTime_snoc]
        exact ⟨h.logged.allowed, (h.logged.watchers id).trans hget⟩
      · intro key id' hrec
        rw [hlog]
        exact (h.logged.fresh key id' (hrecords key id' hrec)).append (by simp) (by simp)

omit [DecidableEq H] in
/-- Blocks are returned when their watchers have been called. -/
theorem eachTime_returned {ids : List Nat} (h : EachTime Allowed log)
    (hnone : ∀ id ∈ ids, pending log id = none) :
    EachTime Allowed (log ++ ids.map .returned) ∧
      ∀ id, pending (log ++ ids.map .returned) id = pending log id := by
  induction ids generalizing log with
  | nil => simpa using h
  | cons id ids ih =>
    have hsame : ∀ id', pending (log ++ [.returned id]) id' = pending log id' :=
      fun id' => pending_append _ _ _
    have hnext : EachTime Allowed (log ++ [.returned id]) :=
      eachTime_snoc.mpr ⟨h, hnone id mem_cons_self⟩
    obtain ⟨heach, hpending⟩ := ih hnext
      fun id' hid' => (hsame id').trans (hnone id' (mem_cons_of_mem _ hid'))
    rw [map_cons, append_cons]
    exact ⟨heach, fun id' => (hpending id').trans (hsame id')⟩

omit [DecidableEq H] in
theorem Fresh.append_returned {ids : List Nat} {key : Key H} (h : Fresh log key id)
    (hid : id ∉ ids) : Fresh (log ++ ids.map .returned) key id := by
  induction ids generalizing log with
  | nil => simpa using h
  | cons id' ids ih =>
    rw [mem_cons, not_or] at hid
    rw [map_cons, append_cons]
    exact ih (h.append (by simp) (by simpa using Ne.symm hid.1)) hid.2

/-- The block records no hash and has no watcher. -/
def Released (p : Pool H W) (id : Nat) : Prop :=
  (∀ key, ¬Records p key id) ∧ p.reuseWatchers.get? id = none

/-- A block leaves. -/
theorem Inv.release (h : Inv cfg out p) (id : Nat) : Inv cfg out (p.release id) :=
  (h.evictHash id).notifyReuse id

/-- A block that leaves is released, and those that left stay so. -/
theorem released_release (p : Pool H W) (id : Nat) {id' : Nat} (h : id' = id ∨ Released p id') :
    Released (p.release id) id' := by
  constructor
  · intro key hrec
    obtain ⟨hrec, hne⟩ := (records_evictHash p id key id').mp ((records_notifyReuse _ id key id').mp hrec)
    rcases h with h | h
    · exact hne h
    · exact h.1 key hrec
  · rw [Pool.release, notifyReuse_reuseWatchers, evictHash_reuseWatchers]
    rcases h with h | h
    · rw [if_pos h]
    · split_ifs
      · rfl
      · exact h.2

/-- Blocks leave one after the other. -/
theorem Inv.foldl_release (h : Inv cfg out p) (ids : List Nat) :
    Inv cfg out (ids.foldl Pool.release p) ∧
      ∀ id, id ∈ ids ∨ Released p id → Released (ids.foldl Pool.release p) id := by
  induction ids generalizing p with
  | nil => exact ⟨h, fun id hid => hid.resolve_left (by simp)⟩
  | cons id ids ih =>
    obtain ⟨hinv, hreleased⟩ := ih (h.release id)
    refine ⟨hinv, fun id' hid' => hreleased id' ?_⟩
    rcases hid' with hid' | hid'
    · rcases mem_cons.mp hid' with rfl | hid'
      · exact .inr (released_release p id' (.inl rfl))
      · exact .inl hid'
    · exact .inr (released_release p id (.inr hid'))

theorem foldl_release_frame (ids : List Nat) (p : Pool H W) :
    (ids.foldl Pool.release p).enableCaching = p.enableCaching ∧
      (ids.foldl Pool.release p).evictionQueue = p.evictionQueue ∧
      ∀ id, ((ids.foldl Pool.release p).block id).refCnt = (p.block id).refCnt := by
  induction ids generalizing p with
  | nil => exact ⟨rfl, rfl, fun _ => rfl⟩
  | cons id ids ih =>
    obtain ⟨hmode, hqueue, href⟩ := ih (p.release id)
    refine ⟨hmode.trans (by simp [Pool.release]), hqueue.trans (by simp [Pool.release]), ?_⟩
    intro id'
    exact (href id').trans (by simp [Pool.release])

/-- Released blocks go back to the manager. -/
theorem Inv.managerFree (h : Inv cfg out p) (hreleased : ∀ id ∈ out, Released p id) :
    Inv cfg [] (p.managerFree out) where
  places := by
    have hp := h.places
    refine ⟨hp.queue_nodup, hp.null_queue, hp.off, hp.nonneg, ?_, ?_, ?_, by simp, ?_⟩
    · intro id hnull hpos
      obtain ⟨hids, hqueue, hfree, hout⟩ := hp.referenced id hnull hpos
      exact ⟨hids, hqueue, by simp [Pool.managerFree, hfree, hout], by simp⟩
    · intro id hid
      obtain ⟨hzero, hids, hfree, hout⟩ := hp.queued id hid
      exact ⟨hzero, hids, by simp [Pool.managerFree, hfree, hout], by simp⟩
    · intro id hid
      rcases mem_append.mp hid with hid | hid
      · obtain ⟨hzero, hids, hnull, -⟩ := hp.freed id hid
        exact ⟨hzero, hids, hnull, by simp⟩
      · obtain ⟨hzero, hids, hnull⟩ := hp.outside id hid
        exact ⟨hzero, hids, hnull, by simp⟩
    · intro id hids hnull
      have hcover := hp.cover id hids hnull
      simp only [Pool.managerFree, mem_append, not_mem_nil, or_false]
      tauto
  table := by
    refine ⟨h.table.recorded, ?_⟩
    intro key id hrec
    obtain ⟨hfree, hnull, hmode⟩ := h.table.held key id hrec
    refine ⟨?_, hnull, hmode⟩
    rw [Pool.managerFree, mem_append, not_or]
    exact ⟨hfree, fun hid => (hreleased id hid).1 key hrec⟩
  logged := by
    obtain ⟨heach, hpending⟩ := eachTime_returned h.logged.allowed fun id (hid : id ∈ out) =>
      (h.logged.watchers id).trans (hreleased id hid).2
    refine ⟨fun id => (hpending id).trans (h.logged.watchers id), heach, ?_⟩
    intro key id hrec
    exact (h.logged.fresh key id hrec).append_returned fun hid => (hreleased id hid).1 key hrec

/-! ## The eviction queue -/

/-- Blocks are taken from the queue. -/
theorem Inv.takeQueue (h : Inv cfg [] p) {front rest : List Nat}
    (hqueue : p.evictionQueue.Perm (front ++ rest)) :
    Inv cfg front { p with evictionQueue := rest } where
  places := by
    have hp := h.places
    have hnodup := hp.queue_nodup
    rw [hqueue.nodup_iff, nodup_append] at hnodup
    have hmem : ∀ id, id ∈ p.evictionQueue ↔ id ∈ front ∨ id ∈ rest := by
      intro id
      rw [hqueue.mem_iff, mem_append]
    refine ⟨hnodup.2.1, ?_, ?_, hp.nonneg, ?_, ?_, ?_, ?_, ?_⟩
    · exact fun hnull => hp.null_queue ((hmem _).mpr (.inr hnull))
    · intro hoff
      have hempty := hp.off hoff
      rw [hempty] at hqueue
      exact (append_eq_nil_iff.mp hqueue.symm.eq_nil).2
    · intro id hnull hpos
      obtain ⟨hids, hout, hfree, -⟩ := hp.referenced id hnull hpos
      rw [hmem, not_or] at hout
      exact ⟨hids, hout.2, hfree, hout.1⟩
    · intro id hid
      obtain ⟨hzero, hids, hfree, -⟩ := hp.queued id ((hmem id).mpr (.inr hid))
      exact ⟨hzero, hids, hfree, fun hfront => hnodup.2.2 id hfront id hid rfl⟩
    · intro id hid
      obtain ⟨hzero, hids, hnull, -⟩ := hp.freed id hid
      refine ⟨hzero, hids, hnull, fun hfront => ?_⟩
      exact (hp.queued id ((hmem id).mpr (.inl hfront))).2.2.1 hid
    · intro id hid
      obtain ⟨hzero, hids, -⟩ := hp.queued id ((hmem id).mpr (.inl hid))
      exact ⟨hzero, hids, fun hnull => hp.null_queue (hnull ▸ (hmem id).mpr (.inl hid))⟩
    · intro id hids hnull
      have hcover := hp.cover id hids hnull
      rw [hmem] at hcover
      simp only [not_mem_nil, or_false] at hcover ⊢
      tauto
  table := ⟨h.table.recorded, h.table.held⟩
  logged := ⟨h.logged.watchers, h.logged.allowed, h.logged.fresh⟩

/-- Flushing the queue. -/
theorem Inv.flushEvictionQueue (h : Inv cfg [] p) : Inv cfg [] p.flushEvictionQueue := by
  have htaken := h.takeQueue (List.Perm.of_eq (append_nil p.evictionQueue).symm)
  obtain ⟨hinv, hreleased⟩ := htaken.foldl_release p.evictionQueue
  exact hinv.managerFree fun id hid => hreleased id (.inl hid)

theorem flushEvictionQueue_frame (p : Pool H W) :
    p.flushEvictionQueue.enableCaching = p.enableCaching ∧ p.flushEvictionQueue.evictionQueue = [] ∧
      ∀ id, (p.flushEvictionQueue.block id).refCnt = (p.block id).refCnt :=
  foldl_release_frame p.evictionQueue { p with evictionQueue := [] }

/-- The pool is flushed where the manager is short. -/
theorem Inv.maybeRelievePressure (h : Inv cfg [] p) (available : Nat) :
    Inv cfg [] (p.maybeRelievePressure cfg available) := by
  unfold Pool.maybeRelievePressure
  split_ifs
  · exact h
  · exact h.flushEvictionQueue
  · exact h

/-- Blocks go to the end of the queue. -/
theorem Inv.appendQueue (h : Inv cfg out p) (hnodup : out.Nodup) (hmode : p.enableCaching = true) :
    Inv cfg [] { p with evictionQueue := p.evictionQueue ++ out } where
  places := by
    have hp := h.places
    refine ⟨?_, ?_, ?_, hp.nonneg, ?_, ?_, ?_, by simp, ?_⟩
    · rw [nodup_append]
      exact ⟨hp.queue_nodup, hnodup, fun id hid id' hid' heq =>
        (hp.queued id hid).2.2.2 (heq ▸ hid')⟩
    · rw [mem_append, not_or]
      exact ⟨hp.null_queue, fun hnull => (hp.outside _ hnull).2.2 rfl⟩
    · intro hoff
      exact absurd (hmode.symm.trans hoff) (by simp)
    · intro id hnull hpos
      obtain ⟨hids, hqueue, hfree, hout⟩ := hp.referenced id hnull hpos
      exact ⟨hids, by simp [hqueue, hout], hfree, by simp⟩
    · intro id hid
      rcases mem_append.mp hid with hid | hid
      · obtain ⟨hzero, hids, hfree, -⟩ := hp.queued id hid
        exact ⟨hzero, hids, hfree, by simp⟩
      · obtain ⟨hzero, hids, -⟩ := hp.outside id hid
        exact ⟨hzero, hids, fun hfree => (hp.freed id hfree).2.2.2 hid, by simp⟩
    · intro id hid
      obtain ⟨hzero, hids, hnull, -⟩ := hp.freed id hid
      exact ⟨hzero, hids, hnull, by simp⟩
    · intro id hids hnull
      have hcover := hp.cover id hids hnull
      simp only [mem_append, not_mem_nil, or_false]
      tauto
  table := ⟨h.table.recorded, h.table.held⟩
  logged := ⟨h.logged.watchers, h.logged.allowed, h.logged.fresh⟩

end ArcticPlatform.PrefixPool
