import ArcticPlatform.PrefixPool.Ownership

/-!
# Failed allocations

`get_new_blocks` refuses a request that is above the number of free blocks before it touches
the pool.  When the manager then has fewer blocks than it reported, the call raises after it has
taken blocks from the eviction queue.

Main results:

- Theorem `losesNoBlock_iff`: the failed calls after which every block is where it was.
-/

namespace ArcticPlatform.PrefixPool

open Runs List

variable {H W : Type} [DecidableEq H] {cfg : Config H} {p p' : Pool H W}

/-- `get_num_free_blocks`, with what the manager reports. -/
def Pool.getNumFreeBlocks (p : Pool H W) (available : Nat) : Nat :=
  (if p.enableCaching then p.evictionQueue.length else 0) + available

/-- `get_new_blocks` with its result: the pool it leaves, and the blocks or the error. -/
def Pool.getNewBlocksResult (p : Pool H W) (n available : Nat) (answer : Option (List Nat)) :
    Pool H W × Except String (List Nat) :=
  if p.getNumFreeBlocks available < n then
    (p, .error s!"Cannot get {n} free blocks from the pool")
  else
    let taken := p.takenCount n
    let reused := p.evictionQueue.take taken
    let p' := reused.foldl Pool.reuse { p with evictionQueue := p.evictionQueue.drop taken }
    let remaining := n - taken
    if remaining = 0 then (p', .ok reused)
    else
      match answer with
      | none => (p', .error s!"kvcached: failed to allocate {remaining} blocks")
      | some ids =>
        let p' := { p' with free := p'.free.filter (· ∉ ids) }
        if ids.length < remaining then
          (p', .error s!"kvcached: failed to allocate {remaining} blocks")
        else (ids.foldl Pool.allocate p', .ok (reused ++ ids))

/-- Its pool is that of `getNewBlocks`, and the old one for a request that is refused. -/
theorem Pool.getNewBlocksResult_fst (p : Pool H W) (n available : Nat) (answer : Option (List Nat)) :
    (p.getNewBlocksResult n available answer).1 = (p.getNewBlocks n available answer).getD p := by
  unfold getNewBlocksResult Pool.getNewBlocks getNumFreeBlocks
  by_cases hfew : (if p.enableCaching then p.evictionQueue.length else 0) + available < n
  · rw [if_pos hfew, if_pos hfew, Option.getD_none]
  rw [if_neg hfew, if_neg hfew]
  by_cases hrest : n - p.takenCount n = 0
  · simp only [if_pos hrest, Option.getD_some]
  · cases answer with
    | none => simp only [if_neg hrest, Option.getD_some]
    | some ids =>
      simp only [if_neg hrest]
      split <;> rfl

/-- Every block is owned as before: no reference is left behind, none is missing from the queue or
at the manager, and as many blocks can be handed out. -/
structure LosesNoBlock (p p' : Pool H W) : Prop where
  refCnt : ∀ id, (p'.block id).refCnt = (p.block id).refCnt
  queue : p'.evictionQueue.Perm p.evictionQueue
  free : p'.free.Perm p.free
  obtainable : p.getNumFreeBlocks p.free.length ≤ p'.getNumFreeBlocks p'.free.length

omit [DecidableEq H] in
theorem losesNoBlock_refl (p : Pool H W) : LosesNoBlock p p :=
  ⟨fun _ => rfl, Perm.refl _, Perm.refl _, le_rfl⟩

theorem foldl_reuse_frame (ids : List Nat) (p : Pool H W) :
    (ids.foldl Pool.reuse p).evictionQueue = p.evictionQueue ∧
      (ids.foldl Pool.reuse p).free = p.free := by
  induction ids generalizing p with
  | nil => exact ⟨rfl, rfl⟩
  | cons id ids ih =>
    obtain ⟨hqueue, hfree⟩ := ih (p.reuse id)
    rw [foldl_cons, hqueue, hfree]
    simp [Pool.reuse, Pool.record, Pool.setRefCnt]

theorem raised_frame {n available : Nat} {answer : Option (List Nat)} {e : String}
    (henough : ¬p.getNumFreeBlocks available < n)
    (hraise : p.getNewBlocksResult n available answer = (p', .error e)) :
    0 < n - p.takenCount n ∧ p'.evictionQueue = p.evictionQueue.drop (p.takenCount n) ∧
      p'.free = p.free.filter (· ∉ answer.getD []) ∧
      (p.takenCount n = 0 → p'.block = p.block ∧ p'.enableCaching = p.enableCaching) := by
  obtain ⟨hqueue, hfree⟩ := foldl_reuse_frame (p.evictionQueue.take (p.takenCount n))
    { p with evictionQueue := p.evictionQueue.drop (p.takenCount n) }
  unfold Pool.getNewBlocksResult at hraise
  rw [if_neg henough] at hraise
  dsimp only at hraise
  split_ifs at hraise with hnone
  · cases hraise
  · have hself : ∀ q : Pool H W, p.takenCount n = 0 →
        (p.evictionQueue.take (p.takenCount n)).foldl Pool.reuse q = q := by
      intro q hzero
      rw [hzero, take_zero, foldl_nil]
    refine ⟨pos_of_ne_zero hnone, ?_⟩
    cases answer with
    | none =>
      cases hraise
      refine ⟨hqueue, by simpa using hfree, fun hzero => ?_⟩
      rw [hself _ hzero]
      exact ⟨rfl, rfl⟩
    | some ids =>
      dsimp only at hraise
      split_ifs at hraise
      · cases hraise
        refine ⟨hqueue, by rw [hfree]; rfl, fun hzero => ?_⟩
        rw [hself _ hzero]
        exact ⟨rfl, rfl⟩
      · cases hraise

/-- The failed calls after which every block is where it was: those that are refused at once, and
those that have taken no block from the queue and got none from the manager. -/
theorem losesNoBlock_iff {n available : Nat} {answer : Option (List Nat)} {e : String}
    (hanswer : ∀ ids ∈ answer, ∀ id ∈ ids, id ∈ p.free)
    (hraise : p.getNewBlocksResult n available answer = (p', .error e)) :
    LosesNoBlock p p' ↔ p.getNumFreeBlocks available < n ∨
        ((p.enableCaching = false ∨ p.evictionQueue = []) ∧ (answer = none ∨ answer = some [])) := by
  by_cases hfew : p.getNumFreeBlocks available < n
  · have hsame : p' = p := by
      unfold Pool.getNewBlocksResult at hraise
      rw [if_pos hfew] at hraise
      cases hraise
      rfl
    rw [hsame]
    exact iff_of_true (losesNoBlock_refl p) (.inl hfew)
  · obtain ⟨hremaining, hqueue, hfree, hkept⟩ := raised_frame hfew hraise
    have htaken : p.takenCount n = 0 ↔ p.enableCaching = false ∨ p.evictionQueue = [] := by
      unfold Pool.takenCount
      split_ifs with hcaching
      · rw [Nat.min_eq_zero_iff, length_eq_zero_iff]
        simp only [hcaching, Bool.true_eq_false, false_or]
        exact ⟨fun h => h.resolve_left (by omega), Or.inr⟩
      · simp [hcaching]
    have hle : p.takenCount n ≤ p.evictionQueue.length := by
      unfold Pool.takenCount
      split_ifs
      · exact min_le_right _ _
      · exact zero_le
    rw [← htaken]
    constructor
    · intro hkeeps
      right
      constructor
      · have hlength := hkeeps.queue.length_eq
        rw [hqueue, length_drop] at hlength
        omega
      · cases hof : answer with
        | none => exact .inl rfl
        | some ids =>
          right
          have hlength := hkeeps.free.length_eq
          rw [hfree, hof, Option.getD_some, length_filter_eq_length_iff] at hlength
          have hnot : ∀ id ∈ ids, False := by
            intro id hid
            simpa [hid] using hlength id (hanswer ids hof id hid)
          rw [eq_nil_iff_forall_not_mem.mpr hnot]
    · rintro (habsurd | ⟨hzero, hnothing⟩)
      · exact absurd habsurd hfew
      · obtain ⟨hblock, hcaching⟩ := hkept hzero
        have hempty : answer.getD [] = [] := by
          rcases hnothing with rfl | rfl <;> rfl
        rw [hzero, drop_zero] at hqueue
        rw [hempty] at hfree
        have hsame : p'.free = p.free := by simpa using hfree
        refine ⟨fun id => by rw [hblock], by rw [hqueue], by rw [hsame], ?_⟩
        rw [Pool.getNumFreeBlocks, Pool.getNumFreeBlocks, hcaching, hqueue, hsame]

/-- A block waits in the queue, two are asked for, and the manager has none left: the waiting block
is referenced by nobody and is neither in the queue nor at the manager. -/
theorem getNewBlocks_loses_block :
    ∃ p p' : Pool Nat String,
      Reaches (step fourBlocks) (Guarded fourBlocks) (new fourBlocks true) p ∧
      p.getNewBlocksResult 2 2 none = (p', .error "kvcached: failed to allocate 1 blocks") ∧
      (p'.block 1).refCnt = 1 ∧ p'.evictionQueue = [] ∧ p'.free = [2, 3] ∧ ¬LosesNoBlock p p' := by
  have hrun : ∃ p : Pool Nat String,
      Reaches (step fourBlocks) (Guarded fourBlocks) (new fourBlocks true) p ∧
      (p.block 1).refCnt = 0 ∧ (p.getNewBlocksResult 2 2 none).2 =
        .error "kvcached: failed to allocate 1 blocks" ∧
      ((p.getNewBlocksResult 2 2 none).1.block 1).refCnt = 1 ∧
      (p.getNewBlocksResult 2 2 none).1.evictionQueue = [] ∧
      (p.getNewBlocksResult 2 2 none).1.free = [2, 3] := by
    apply exists_reaches [.getNewBlocks 1 3 (some [1]), .freeBlocks [1] 2]
    decide
  obtain ⟨p, hp, hbefore, hresult, hafter, hqueue, hfree⟩ := hrun
  refine ⟨p, _, hp, Prod.ext rfl hresult, hafter, hqueue, hfree, fun hkeeps => ?_⟩
  have hsame := hkeeps.refCnt 1
  rw [hafter, hbefore] at hsame
  cases hsame

/-- With an empty queue and nothing from the manager the pool is as it was. -/
theorem losesNoBlock_iff_empty_queue :
    LosesNoBlock (new fourBlocks true : Pool Nat String)
        ((new fourBlocks true : Pool Nat String).getNewBlocksResult 2 3 none).1 ↔
      (new fourBlocks true : Pool Nat String).getNumFreeBlocks 3 < 2 ∨
        (((new fourBlocks true : Pool Nat String).enableCaching = false ∨
          (new fourBlocks true : Pool Nat String).evictionQueue = []) ∧
            ((none : Option (List Nat)) = none ∨ (none : Option (List Nat)) = some [])) :=
  losesNoBlock_iff (e := "kvcached: failed to allocate 2 blocks") (by simp)
    (Prod.ext rfl (by decide))

end ArcticPlatform.PrefixPool
