import ArcticPlatform.Library.Results
import ArcticPlatform.PrefixPool.Caching

/-!
# Ownership of blocks

In every run every block is referenced, in the eviction queue or free at the manager, a
cached block is found under exactly the hashes it records, and the watcher of a block is
called before the block is handed out again or returned.  `free_blocks` does not call
the watchers when caching is off; the result is about runs in which it frees no watched block
in that mode.

Main results:

- Theorem `pool_ownership`: what every run keeps.
- Theorem `freeBlocks_forgets_watcher`: a run that returns a block whose watcher
  has not been called.
-/

namespace ArcticPlatform.PrefixPool

open Dicts Multimaps Runs Option

variable {H W : Type} [DecidableEq H] {cfg : Config H} {p p' : Pool H W}

/-! ## Preconditions -/

instance (p : Pool H W) (n : Nat) (answer : Option (List Nat)) : Decidable (Answers p n answer) :=
  inferInstanceAs (Decidable (∀ ids, answer = some ids → _))

instance (cfg : Config H) (p : Pool H W) (blocks : List Nat) : Decidable (Held cfg p blocks) :=
  inferInstanceAs (Decidable (_ ∧ _))

instance (cfg : Config H) (p : Pool H W) (id : Nat) : Decidable (InUse cfg p id) :=
  inferInstanceAs (Decidable (_ ∨ _))

instance (cfg : Config H) (p : Pool H W) (id : Nat) : Decidable (Touchable cfg p id) :=
  inferInstanceAs (Decidable (_ ∨ _))

/-- The precondition of a call; a call whose assertions fail is not enabled. -/
def Pre (cfg : Config H) (p : Pool H W) : Act H W → Prop
  | .getNewBlocks n _ answer => Answers p n answer
  | .cacheFullBlocks _ blocks _ _ _ _ _ => ∀ id ∈ blocks, InUse cfg p id
  | .cachePartialBlock _ id _ _ _ => InUse cfg p id
  | .touch blocks => ∀ id ∈ blocks, Touchable cfg p id
  | .freeBlocks blocks _ => Held cfg p blocks
  | .moveBlockHashes _ dst => dst ≠ cfg.nullBlock ∧ 0 < (p.block dst).refCnt
  | _ => True

/-- A block that is freed for good while caching is off has no watcher. -/
def NotWatched (cfg : Config H) (p : Pool H W) : Act H W → Prop
  | .freeBlocks blocks _ =>
    p.enableCaching = false → ∀ id ∈ blocks, id ≠ cfg.nullBlock →
      (p.block id).refCnt = 1 → p.reuseWatchers.get? id = none
  | _ => True

/-- A call within its precondition that frees no watched block while caching is off. -/
def Guarded (cfg : Config H) (p : Pool H W) (act : Act H W) : Prop :=
  Pre cfg p act ∧ NotWatched cfg p act

instance (cfg : Config H) (p : Pool H W) : ∀ act, Decidable (Pre cfg p act)
  | .getNewBlocks n _ answer => inferInstanceAs (Decidable (Answers p n answer))
  | .cacheFullBlocks _ blocks _ _ _ _ _ =>
    inferInstanceAs (Decidable (∀ id ∈ blocks, InUse cfg p id))
  | .cachePartialBlock _ id _ _ _ => inferInstanceAs (Decidable (InUse cfg p id))
  | .touch blocks => inferInstanceAs (Decidable (∀ id ∈ blocks, Touchable cfg p id))
  | .freeBlocks blocks _ => inferInstanceAs (Decidable (Held cfg p blocks))
  | .moveBlockHashes _ dst =>
    inferInstanceAs (Decidable (dst ≠ cfg.nullBlock ∧ 0 < (p.block dst).refCnt))
  | .unpinBlocks .. | .evictBlocks _ | .resetPrefixCache | .setCachingEnabled _ =>
    inferInstanceAs (Decidable True)

instance (cfg : Config H) (p : Pool H W) : ∀ act, Decidable (Guarded cfg p act)
  | .freeBlocks blocks _ => inferInstanceAs (Decidable (Held cfg p blocks ∧
      (p.enableCaching = false → ∀ id ∈ blocks, id ≠ cfg.nullBlock →
        (p.block id).refCnt = 1 → p.reuseWatchers.get? id = none)))
  | .getNewBlocks .. | .cacheFullBlocks .. | .cachePartialBlock .. | .touch _ | .unpinBlocks ..
  | .evictBlocks _ | .moveBlockHashes .. | .resetPrefixCache | .setCachingEnabled _ =>
    inferInstanceAs (Decidable (Pre cfg p _ ∧ True))

/-! ## Runs -/

/-- The block is in exactly one of three places. -/
def InOnePlace (p : Pool H W) (id : Nat) : Prop :=
  (0 < (p.block id).refCnt ∧ id ∉ p.evictionQueue ∧ id ∉ p.free) ∨
    ((p.block id).refCnt = 0 ∧ p.enableCaching = true ∧ id ∈ p.evictionQueue ∧ id ∉ p.free) ∨
    ((p.block id).refCnt = 0 ∧ id ∉ p.evictionQueue ∧ id ∈ p.free)

omit [DecidableEq H] in
theorem Places.inOnePlace (h : Places cfg [] p) {id : Nat} (hids : id ∈ cfg.ids)
    (hnull : id ≠ cfg.nullBlock) : InOnePlace p id := by
  rcases h.cover id hids hnull with hpos | hid | hid | hid
  · obtain ⟨-, hqueue, hfree, -⟩ := h.referenced id hnull hpos
    exact .inl ⟨hpos, hqueue, hfree⟩
  · obtain ⟨hzero, -, hfree, -⟩ := h.queued id hid
    refine .inr (.inl ⟨hzero, ?_, hid, hfree⟩)
    by_contra hoff
    rw [h.off (by simpa using hoff)] at hid
    simp at hid
  · obtain ⟨hzero, -⟩ := h.freed id hid
    exact .inr (.inr ⟨hzero, fun hqueue => (h.queued id hqueue).2.2.1 hid, hid⟩)
  · simp at hid

theorem inv_new (cfg : Config H) (on : Bool) : Inv cfg [] (new cfg on : Pool H W) where
  places := by
    refine ⟨List.nodup_nil, by simp [new], fun _ => rfl, by simp [new], by simp [new],
      by simp [new], ?_, by simp, ?_⟩
    · intro id hid
      simpa [new] using hid
    · intro id hids hnull
      exact .inr (.inr (.inl (by simpa [new] using ⟨hids, hnull⟩)))
  table := by
    constructor
    · intro key id
      simp [new, Records]
    · intro key id hrec
      simp [new, Records] at hrec
  logged := by
    refine ⟨fun _ => rfl, eachTime_nil, ?_⟩
    intro key id hrec
    simp [new, Records] at hrec

theorem Inv.step (h : Inv cfg [] p) {act : Act H W} (hok : Guarded cfg p act)
    (hstep : step cfg p act = some p') : Inv cfg [] p' := by
  cases act with
  | getNewBlocks n available answer => exact h.getNewBlocks hok.1 hstep
  | cacheFullBlocks => exact h.cacheFullBlocks hok.1 hstep
  | cachePartialBlock => exact h.cachePartialBlock hok.1 hstep
  | touch blocks =>
    obtain rfl := some.inj hstep
    exact h.touch hok.1
  | freeBlocks blocks available =>
    obtain rfl := some.inj hstep
    exact h.freeBlocks available hok.1 hok.2
  | unpinBlocks => exact h.unpinBlocks hstep
  | evictBlocks ids =>
    obtain rfl := some.inj hstep
    exact h.evictBlocks ids
  | moveBlockHashes src dst => exact h.moveBlockHashes hok.1.1 hok.1.2 hstep
  | resetPrefixCache =>
    obtain rfl := some.inj hstep
    exact h.resetPrefixCache
  | setCachingEnabled enabled =>
    obtain rfl := some.inj hstep
    exact h.setCachingEnabled enabled

/-- `get_one_block` finds blocks that the map holds under the hash. -/
def GetsOne (getOne : Multimap (Key H) Nat → Key H → Option Nat) : Prop :=
  ∀ m key id, getOne m key = some id → m.contains key id = true

/-- A block that is found under a hash is not free and has not been handed out or returned since it
was cached under the hash. -/
theorem Inv.getCachedBlock (h : Inv cfg [] p)
    {getOne : Multimap (Key H) Nat → Key H → Option Nat} (hget : GetsOne getOne) {hash : H}
    {groups ids : List Nat} (hcached : p.getCachedBlock getOne hash groups = some ids) :
    List.Forall₂ (fun group id => id ∉ p.free ∧ Fresh p.log (hash, group) id) groups ids := by
  rw [Pool.getCachedBlock] at hcached
  split_ifs at hcached
  apply (Results.forall₂_of_mapM_eq_some hcached).imp
  intro group id hone
  have hrec := (h.table.recorded _ _).mp (hget _ _ _ hone)
  exact ⟨(h.table.held _ _ hrec).1, h.logged.fresh _ _ hrec⟩

/-- What the pool owes its callers. -/
structure Owned (cfg : Config H) (p : Pool H W) : Prop where
  place : ∀ id ∈ cfg.ids, id ≠ cfg.nullBlock → InOnePlace p id
  recorded : ∀ key id, p.hashToBlock.contains key id = true ↔ Records p key id
  cached : ∀ getOne, GetsOne getOne → ∀ hash groups ids,
    p.getCachedBlock getOne hash groups = some ids →
    List.Forall₂ (fun group id => id ∉ p.free ∧ Fresh p.log (hash, group) id) groups ids
  watchers : ∀ id, p.reuseWatchers.get? id = pending p.log id
  allowed : EachTime Allowed p.log

/-- In every run of guarded calls every block is in one place, the map holds what the blocks record,
cached blocks are fresh, and watchers are called in time. -/
theorem pool_ownership (cfg : Config H) (on : Bool) :
    ∀ p : Pool H W, Reaches (step cfg) (Guarded cfg) (new cfg on) p → Owned cfg p := by
  intro p hp
  have hinv : Inv cfg [] p := hp.invariant (inv_new cfg on) fun _ _ _ h hok hstep => h.step hok hstep
  constructor
  · exact fun id hids hnull => hinv.places.inOnePlace hids hnull
  · exact hinv.table.recorded
  · exact fun getOne hget hash groups ids => hinv.getCachedBlock hget
  · exact fun id => (hinv.logged.watchers id).symm
  · exact hinv.logged.allowed

/-- Four blocks, the first of them the null block. -/
def fourBlocks : Config Nat where
  nullBlock := 0
  ids := [0, 1, 2, 3]
  pressureThreshold := 0
  hashBlockSize := 4
  mergedHashes := fun hashes _ _ => hashes

/-- A watched block is cached, waits in the queue and is handed out again. -/
theorem pool_ownership_reuse :
    ∃ p : Pool Nat String, Reaches (step fourBlocks) (Guarded fourBlocks) (new fourBlocks true) p ∧
      p.log = [.handedOut 1, .handedOut 2, .cached (7, 0) 1, .cached (8, 0) 2,
        .registered 1 "reader", .called 1 "reader", .handedOut 1] ∧
      p.evictionQueue = [2] ∧ p.free = [3] ∧ Owned fourBlocks p := by
  have hrun : ∃ p : Pool Nat String,
      Reaches (step fourBlocks) (Guarded fourBlocks) (new fourBlocks true) p ∧
      p.log = [.handedOut 1, .handedOut 2, .cached (7, 0) 1, .cached (8, 0) 2,
        .registered 1 "reader", .called 1 "reader", .handedOut 1] ∧
      p.evictionQueue = [2] ∧ p.free = [3] := by
    apply exists_reaches [.getNewBlocks 2 3 (some [1, 2]),
      .cacheFullBlocks [7, 8] [1, 2] 0 2 4 0 none, .touch [1], .unpinBlocks [1] "reader" 1,
      .freeBlocks [1, 2] 1, .getNewBlocks 1 1 none]
    decide
  obtain ⟨p, hp, hlog, hqueue, hfree⟩ := hrun
  exact ⟨p, hp, hlog, hqueue, hfree, pool_ownership fourBlocks true p hp⟩

/-- A block is unpinned while another reference is left, caching is switched off, and the last
reference is freed: the block goes back to the manager and its watcher has not been called. -/
theorem freeBlocks_forgets_watcher :
    ∃ p : Pool Nat String, Reaches (step fourBlocks) (Pre fourBlocks) (new fourBlocks true) p ∧
      p.log = [.handedOut 1, .registered 1 "reader", .returned 1] ∧ ¬ Owned fourBlocks p := by
  have hrun : ∃ p : Pool Nat String,
      Reaches (step fourBlocks) (Pre fourBlocks) (new fourBlocks true) p ∧
      p.log = [.handedOut 1, .registered 1 "reader", .returned 1] := by
    apply exists_reaches [.getNewBlocks 1 3 (some [1]), .touch [1], .unpinBlocks [1] "reader" 2,
      .setCachingEnabled false, .freeBlocks [1] 2]
    decide
  obtain ⟨p, hp, hlog⟩ := hrun
  refine ⟨p, hp, hlog, fun howned => ?_⟩
  have hallowed := howned.allowed [.handedOut 1, .registered 1 "reader"] (.returned 1) [] hlog
  simp [Allowed, pending, pendingStep] at hallowed

end ArcticPlatform.PrefixPool
