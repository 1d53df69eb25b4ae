import ArcticPlatform.PrefixPool.Calls

/-!
# Hashes and modes

Blocks in use are recorded under hashes, hashes move from block to block, and the cache is
emptied or switched on and off.

Main results:

- Theorems `Inv.cacheFullBlocks`, `Inv.cachePartialBlock`,
  `Inv.moveBlockHashes`: hashes that are recorded.
- Theorems `Inv.resetPrefixCache`, `Inv.setCachingEnabled`: the cache is emptied.
-/

namespace ArcticPlatform.PrefixPool

open Dicts Multimaps Runs Slices List
open Option hiding mem_map_of_mem

variable {H W : Type} [DecidableEq H] {cfg : Config H} {p p' : Pool H W} {out : List Nat}

/-! ## Caching -/

/-- The block is the null block or is referenced. -/
def InUse (cfg : Config H) (p : Pool H W) (id : Nat) : Prop :=
  id = cfg.nullBlock ∨ 0 < (p.block id).refCnt

variable {id : Nat}

omit [DecidableEq H] in
theorem Places.not_free (h : Places cfg out p) (hnull : id ≠ cfg.nullBlock)
    (hused : InUse cfg p id) : id ∉ p.free :=
  (h.referenced id hnull (hused.resolve_left hnull)).2.2.1

/-- What recording hashes of blocks in use keeps. -/
structure Cached (cfg : Config H) (p p' : Pool H W) : Prop where
  inv : Inv cfg [] p'
  mode : p'.enableCaching = p.enableCaching
  refCnt : ∀ id, (p'.block id).refCnt = (p.block id).refCnt

theorem Cached.refl (h : Inv cfg [] p) : Cached cfg p p := ⟨h, rfl, fun _ => rfl⟩

theorem Cached.trans {q : Pool H W} (h : Cached cfg p p') (h' : Cached cfg p' q) : Cached cfg p q :=
  ⟨h'.inv, h'.mode.trans h.mode, fun id => (h'.refCnt id).trans (h.refCnt id)⟩

/-- A block in use is recorded under one more hash, after its own may have been removed. -/
theorem Inv.cachedInsert (h : Inv cfg [] p) (hmode : p.enableCaching = true)
    (hnull : id ≠ cfg.nullBlock) (hused : InUse cfg p id) (key : Key H) (numTokens : Option Nat) :
    Cached cfg p (p.insertBlockHash key id numTokens) ∧
      Cached cfg p ((p.evictHash id).insertBlockHash key id numTokens) := by
  have hfree := h.places.not_free hnull hused
  constructor
  · exact ⟨h.insertBlockHash key numTokens hfree hnull hmode,
      insertBlockHash_enableCaching p key id numTokens, insertBlockHash_refCnt p key id numTokens⟩
  · refine ⟨(h.evictHash id).insertBlockHash key numTokens hfree hnull hmode,
      insertBlockHash_enableCaching _ key id numTokens, ?_⟩
    intro id'
    rw [insertBlockHash_refCnt, evictHash_refCnt]

variable {mask : Option (List Bool)}

theorem Inv.cacheFullBlock (h : Inv cfg [] p) (hmode : p.enableCaching = true) {hashes : List H}
    {numCached blockSize group id i : Nat} (hused : InUse cfg p id)
    (hstep : Pool.cacheFullBlock cfg hashes mask numCached blockSize group p (id, i) = some p') :
    Cached cfg p p' := by
  simp only [Pool.cacheFullBlock] at hstep
  split_ifs at hstep with hskip
  · obtain rfl := some.inj hstep
    exact .refl h
  · rw [not_or] at hskip
    obtain ⟨hash, -, hrest⟩ := bind_eq_some_iff.mp hstep
    have hinsert := h.cachedInsert hmode hskip.1 hused (hash, group)
      (some ((numCached + i + 1) * blockSize))
    split at hrest
    · obtain rfl := some.inj hrest
      exact hinsert.1
    · obtain rfl := some.inj hrest
      exact .refl h
    · split_ifs at hrest
      obtain rfl := some.inj hrest
      exact hinsert.2

theorem Inv.foldlM_cacheFullBlock {hashes : List H}
    {numCached blockSize group : Nat} (entries : List (Nat × Nat)) (h : Inv cfg [] p)
    (hmode : p.enableCaching = true) (hused : ∀ entry ∈ entries, InUse cfg p entry.1)
    (hstep : entries.foldlM (Pool.cacheFullBlock cfg hashes mask numCached blockSize group) p =
      some p') : Cached cfg p p' := by
  induction entries generalizing p with
  | nil =>
    obtain rfl := some.inj hstep
    exact .refl h
  | cons entry entries ih =>
    rw [foldlM_cons] at hstep
    obtain ⟨q, hfirst, hrest⟩ := bind_eq_some_iff.mp hstep
    have hcached := h.cacheFullBlock hmode (hused entry mem_cons_self) hfirst
    refine hcached.trans (ih hcached.inv (hcached.mode.trans hmode) ?_ hrest)
    intro entry' hentry'
    rw [InUse, hcached.refCnt]
    exact hused entry' (mem_cons_of_mem _ hentry')

/-- Caching full blocks that are in use. -/
theorem Inv.cacheFullBlocks (h : Inv cfg [] p) {blockHashes : List H} {blocks : List Nat}
    {numCached numFull blockSize group : Nat} (hused : ∀ id ∈ blocks, InUse cfg p id)
    (hstep : p.cacheFullBlocks cfg blockHashes blocks numCached numFull blockSize group mask =
      some p') : Inv cfg [] p' := by
  simp only [Pool.cacheFullBlocks] at hstep
  by_cases hoff : (!p.enableCaching) = true ∨ numFull ≤ numCached
  · rw [if_pos hoff] at hstep
    obtain rfl := some.inj hstep
    exact h
  · rw [if_neg hoff] at hstep
    by_cases hbad : blockHashes.length < numFull ∨
        mask.any (fun m => m.length ≠ (slice blocks numCached numFull).length) ∨
        (blockSize ≠ cfg.hashBlockSize ∧ blockSize % cfg.hashBlockSize ≠ 0)
    · rw [if_pos hbad] at hstep
      exact absurd hstep (by simp)
    · rw [if_neg hbad] at hstep
      have hmode : p.enableCaching = true := by
        by_contra hon
        exact hoff (.inl (by simpa using hon))
      apply (Inv.foldlM_cacheFullBlock _ h hmode _ hstep).inv
      intro entry hentry
      apply hused
      have hmem : entry.1 ∈ slice blocks numCached numFull := fst_mem_of_mem_zipIdx hentry
      exact mem_of_mem_drop (mem_of_mem_take hmem)

/-- Caching a partial block that is in use. -/
theorem Inv.cachePartialBlock (h : Inv cfg [] p) {blockHashes : List H}
    {id numTokens group blockSize : Nat} (hused : InUse cfg p id)
    (hstep : p.cachePartialBlock cfg blockHashes id numTokens group blockSize = some p') :
    Inv cfg [] p' := by
  simp only [Pool.cachePartialBlock] at hstep
  by_cases hoff : (!p.enableCaching) = true ∨ id = cfg.nullBlock
  · rw [if_pos hoff] at hstep
    obtain rfl := some.inj hstep
    exact h
  · rw [if_neg hoff] at hstep
    rw [not_or] at hoff
    split_ifs at hstep with hsizes
    obtain ⟨hash, -, hrest⟩ := bind_eq_some_iff.mp hstep
    have hinsert := h.cachedInsert (by simpa using hoff.1) hoff.2 hused (hash, group)
      (some numTokens)
    obtain rfl := some.inj hrest
    split_ifs
    · exact hinsert.2.inv
    · exact hinsert.1.inv

/-! ## Moving and removing hashes -/

theorem records_of_removed {src : Nat} {key : Key H}
    (hkey : key ∈ (p.removeCachedBlockHashes src).2) : Records p key src := by
  have hmem := popHashes_subset src p.hashToBlock _ key hkey
  rw [mem_append, mem_toList] at hmem
  exact hmem

theorem Inv.foldl_insertBlockHash (h : Inv cfg out p) (numTokens : Option Nat) (keys : List (Key H))
    (hfree : id ∉ p.free) (hnull : id ≠ cfg.nullBlock)
    (hmode : keys ≠ [] → p.enableCaching = true) :
    Inv cfg out (keys.foldl (fun p key => p.insertBlockHash key id numTokens) p) := by
  induction keys generalizing p with
  | nil => exact h
  | cons key keys ih =>
    have hon := hmode (by simp)
    apply ih (h.insertBlockHash key numTokens hfree hnull hon)
    · rw [insertBlockHash_free]
      exact hfree
    · intro _
      rw [insertBlockHash_enableCaching]
      exact hon

/-- Hashes move to a block in use. -/
theorem Inv.moveBlockHashes (h : Inv cfg [] p) {src dst : Nat} (hnull : dst ≠ cfg.nullBlock)
    (hused : 0 < (p.block dst).refCnt) (hstep : p.moveBlockHashes src dst = some p') :
    Inv cfg [] p' := by
  simp only [Pool.moveBlockHashes] at hstep
  split_ifs at hstep
  obtain rfl := some.inj hstep
  apply (h.evictHash src).foldl_insertBlockHash _ _ (h.places.not_free hnull (.inr hused)) hnull
  intro hkeys
  obtain ⟨key, hkey⟩ := exists_mem_of_ne_nil _ hkeys
  exact (h.table.held key src (records_of_removed hkey)).2.2

theorem Inv.evictBlocks (h : Inv cfg [] p) (ids : List Nat) : Inv cfg [] (p.evictBlocks ids) :=
  (h.foldl_evictHash ids).1

/-! ## Emptying the cache -/

omit [DecidableEq H] in
theorem eachTime_called {entries : List (Nat × W)} {log : List (Event H W)}
    (h : EachTime Allowed log) (hnodup : (entries.map Prod.fst).Nodup)
    (hpending : ∀ entry ∈ entries, pending log entry.1 = some entry.2) :
    EachTime Allowed (log ++ entries.map fun entry => .called entry.1 entry.2) ∧
      ∀ id, pending (log ++ entries.map fun entry => .called entry.1 entry.2) id =
        if id ∈ entries.map Prod.fst then none else pending log id := by
  induction entries generalizing log with
  | nil => simpa using h
  | cons entry entries ih =>
    rw [map_cons, nodup_cons] at hnodup
    have hsame : ∀ id, pending (log ++ [.called entry.1 entry.2]) id =
        if entry.1 = id then none else pending log id := fun id => pending_append _ _ _
    have hnext : EachTime Allowed (log ++ [.called entry.1 entry.2]) :=
      eachTime_snoc.mpr ⟨h, hpending entry mem_cons_self⟩
    have hrest : ∀ entry' ∈ entries,
        pending (log ++ [.called entry.1 entry.2]) entry'.1 = some entry'.2 := by
      intro entry' hentry'
      have hne : entry.1 ≠ entry'.1 := fun heq =>
        hnodup.1 (heq ▸ mem_map_of_mem hentry')
      rw [hsame, if_neg hne]
      exact hpending entry' (mem_cons_of_mem _ hentry')
    obtain ⟨heach, hafter⟩ := ih hnext hnodup.2 hrest
    rw [map_cons, append_cons]
    refine ⟨heach, fun id => ?_⟩
    rw [hafter, hsame, map_cons]
    by_cases hmem : id ∈ entries.map Prod.fst
    · rw [if_pos hmem, if_pos (mem_cons_of_mem _ hmem)]
    · rw [if_neg hmem]
      by_cases hid : entry.1 = id
      · rw [if_pos hid, if_pos (hid ▸ mem_cons_self)]
      · rw [if_neg hid, if_neg]
        rintro (_ | ⟨_, hmem'⟩)
        · exact hid rfl
        · exact hmem hmem'

omit [DecidableEq H] in
theorem Fresh.append_called {entries : List (Nat × W)} {log : List (Event H W)} {key : Key H}
    (h : Fresh log key id) :
    Fresh (log ++ entries.map fun entry => .called entry.1 entry.2) key id := by
  induction entries generalizing log with
  | nil => simpa using h
  | cons entry entries ih =>
    rw [map_cons, append_cons]
    exact ih (h.append (by simp) (by simp))

theorem Inv.callWatchers (h : Inv cfg out p) : Inv cfg out p.callWatchers where
  places := h.places.congr rfl rfl rfl fun _ => rfl
  table := ⟨h.table.recorded, h.table.held⟩
  logged := by
    have hpending : ∀ entry ∈ p.reuseWatchers.entries, pending p.log entry.1 = some entry.2 :=
      fun entry hentry => (h.logged.watchers entry.1).trans (Dict.get?_eq_some _ |>.mpr hentry)
    obtain ⟨heach, hafter⟩ := eachTime_called h.logged.allowed p.reuseWatchers.nodup hpending
    refine ⟨fun id => (hafter id).trans ?_, heach, fun key id hrec => ?_⟩
    · rw [Pool.callWatchers, Dict.get?_empty]
      split_ifs with hmem
      · rfl
      · exact (h.logged.watchers id).trans (Dict.get?_eq_none _ |>.mpr hmem)
    · exact (h.logged.fresh key id hrec).append_called

/-- The map is emptied together with what the blocks record; the mode may change when the queue is
empty. -/
theorem Inv.clear (h : Inv cfg [] p) (hqueue : p.evictionQueue = []) {block : Nat → Block H}
    {enabled : Bool} (href : ∀ id, (block id).refCnt = (p.block id).refCnt)
    (hnone : ∀ id, (block id).blockHash = none) :
    Inv cfg [] { p with
      hashToBlock := .empty
      hashesByBlock := fun _ => []
      block := block
      enableCaching := enabled } := by
  have hp := h.places
  have hrecords : ∀ key id, ¬Records { p with
      hashToBlock := .empty
      hashesByBlock := fun _ => []
      block := block
      enableCaching := enabled } key id := by
    intro key id hrec
    rcases hrec with hrec | hrec
    · simp [hnone] at hrec
    · simp at hrec
  refine ⟨?_, ⟨?_, ?_⟩, h.logged.watchers, h.logged.allowed, ?_⟩
  · refine ⟨hp.queue_nodup, hp.null_queue, fun _ => hqueue, ?_, ?_, ?_, ?_, by simp, ?_⟩ <;>
      intro id <;> simp only [href]
    · exact hp.nonneg id
    · exact hp.referenced id
    · exact hp.queued id
    · exact hp.freed id
    · exact hp.cover id
  · intro key id
    simp only [Multimap.contains_empty, Bool.false_eq_true, false_iff]
    exact hrecords key id
  · exact fun key id hrec => absurd hrec (hrecords key id)
  · exact fun key id hrec => absurd hrec (hrecords key id)

/-- Resetting the cache. -/
theorem Inv.resetPrefixCache (h : Inv cfg [] p) : Inv cfg [] p.resetPrefixCache :=
  h.callWatchers.flushEvictionQueue.clear (flushEvictionQueue_frame _).2.1 (fun _ => rfl)
    fun _ => rfl

/-- Switching caching on or off. -/
theorem Inv.setCachingEnabled (h : Inv cfg [] p) (enabled : Bool) :
    Inv cfg [] (p.setCachingEnabled cfg enabled) := by
  rw [Pool.setCachingEnabled]
  split_ifs with hoff
  · have hflushed := h.flushEvictionQueue
    apply hflushed.clear (flushEvictionQueue_frame p).2.1
    · intro id
      split_ifs <;> rfl
    · intro id
      split_ifs with hid
      · -- the null block records no hash
        by_contra hhash
        obtain ⟨key, hkey⟩ := ne_none_iff_exists'.mp hhash
        exact (hflushed.table.held key id (.inl hkey)).2.1 hid
      · rfl
  · have hmode : enabled = false → p.enableCaching = false := by
      intro hen
      by_contra hon
      exact hoff ⟨by simpa using hon, by simp [hen]⟩
    refine ⟨?_, ⟨h.table.recorded, ?_⟩, h.logged.watchers, h.logged.allowed, h.logged.fresh⟩
    · have hp := h.places
      exact ⟨hp.queue_nodup, hp.null_queue, fun hen => hp.off (hmode hen), hp.nonneg,
        hp.referenced, hp.queued, hp.freed, hp.outside, hp.cover⟩
    · intro key id hrec
      obtain ⟨hfree, hnull, hon⟩ := h.table.held key id hrec
      refine ⟨hfree, hnull, ?_⟩
      by_contra hen
      rw [hmode (by simpa using hen)] at hon
      exact absurd hon (by simp)

end ArcticPlatform.PrefixPool
