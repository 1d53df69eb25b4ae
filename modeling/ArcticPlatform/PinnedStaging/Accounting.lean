import ArcticPlatform.Library.Runs
import ArcticPlatform.PinnedStaging.Model

/-!
# Accounting of the pinned staging cache

Every path on which a buffer leaves the cache takes it out of its pool, out of the
first-in-first-out order and out of the counters, so the three agree.

Main results:

- Theorem `Inv.remove`: a buffer leaves the cache.
- Theorem `evictWhile_spec`: what an eviction loop keeps, and that it ends.
- Theorem `shrunk_finalizeStep`: the end of a step only takes buffers out.
-/

namespace ArcticPlatform.PinnedStaging

open Dicts Runs List

variable {DType : Type} [DecidableEq DType]

/-! ## The invariant of the cache -/

/-- The capacity of a strided buffer is the size of its storage. -/
def Entry.Sized (elementSize : DType → Nat) (e : Entry DType) : Prop :=
  e.key.isContiguous = false → ∃ shape stride, e.key.shape = some shape ∧
    e.key.stride = some stride ∧ e.capacityBytes = stridedNumel shape stride * elementSize e.key.dtype

/-- The pools, the order and the counters agree. -/
structure Inv (elementSize : DType → Nat) (c : Cache DType) : Prop where
  ids : (c.pinnedFifo.map Entry.id).Nodup
  pools : ∀ key, (c.pool key).Perm (c.pinnedFifo.filter (·.key = key))
  nonempty : ∀ key pool, c.pinnedFree.get? key = some pool → pool ≠ []
  tensors : c.cacheTensors = c.pinnedFifo.length
  bytes : c.cacheBytes = ((c.pinnedFifo.map Entry.capacityBytes).sum : Nat)
  fresh : ∀ e ∈ c.pinnedFifo, e.id < c.nextId
  sized : ∀ e ∈ c.pinnedFifo, e.Sized elementSize

variable {elementSize : DType → Nat}

theorem inv_init : Inv elementSize (Cache.init : Cache DType) where
  ids := nodup_nil
  pools := fun _ => Perm.nil
  nonempty := by intro key pool h; cases h
  tensors := rfl
  bytes := rfl
  fresh := by intro e h; cases h
  sized := by intro e h; cases h

variable {e : Entry DType}

omit [DecidableEq DType] in
/-- A buffer in a list without repetitions, and the others. -/
theorem perm_cons_eraseP {l : List (Entry DType)} (he : e ∈ l) (hids : (l.map Entry.id).Nodup) :
    l.Perm (e :: l.eraseP (·.id = e.id)) := by
  induction l with
  | nil => cases he
  | cons a l ih =>
    rw [map_cons, nodup_cons] at hids
    by_cases ha : a.id = e.id
    · have heq : a = e := by
        rcases mem_cons.mp he with rfl | hmem
        · rfl
        · exact absurd (ha ▸ mem_map_of_mem hmem) hids.1
      rw [eraseP_cons_of_pos (by simpa using ha), heq]
    · have hmem : e ∈ l := (mem_cons.mp he).resolve_left fun h => ha (h ▸ rfl)
      rw [eraseP_cons_of_neg (by simpa using ha)]
      exact ((ih hmem hids.2).cons a).trans (Perm.swap e a _)

variable {c : Cache DType}

theorem Inv.mem_pool (h : Inv elementSize c) {key : PoolKey DType} :
    e ∈ c.pool key ↔ e ∈ c.pinnedFifo ∧ e.key = key := by
  rw [(h.pools key).mem_iff, mem_filter, decide_eq_true_eq]

theorem pool_setPool (c : Cache DType) (key key' : PoolKey DType) (pool : List (Entry DType)) :
    (c.setPool key pool).pool key' = if key' = key then pool else c.pool key' := by
  by_cases hempty : pool.isEmpty
  · rw [Cache.setPool, if_pos hempty, Cache.pool, Dict.get?_erase]
    split
    · exact (List.isEmpty_iff.mp hempty).symm
    · rfl
  · rw [Cache.setPool, if_neg hempty, Cache.pool, Dict.get?_set]
    split <;> rfl

theorem get?_setPool (hne : ∀ key pool, c.pinnedFree.get? key = some pool → pool ≠ [])
    (key : PoolKey DType) (pool : List (Entry DType)) (key' : PoolKey DType)
    (pool' : List (Entry DType)) (h : (c.setPool key pool).pinnedFree.get? key' = some pool') :
    pool' ≠ [] := by
  by_cases hempty : pool.isEmpty
  · rw [Cache.setPool, if_pos hempty, Dict.get?_erase] at h
    split at h
    · cases h
    · exact hne key' pool' h
  · rw [Cache.setPool, if_neg hempty, Dict.get?_set] at h
    split at h
    · cases h
      exact fun hnil => hempty (List.isEmpty_iff.mpr hnil)
    · exact hne key' pool' h

/-- A buffer leaves the cache. -/
theorem Inv.remove (h : Inv elementSize c) (he : e ∈ c.pinnedFifo) {pool : List (Entry DType)}
    (hpool : (c.pool e.key).Perm (e :: pool)) :
    Inv elementSize ((c.setPool e.key pool).popFifo e) := by
  have hperm := perm_cons_eraseP he h.ids
  have hmem : ∀ x ∈ c.pinnedFifo.eraseP (·.id = e.id), x ∈ c.pinnedFifo :=
    fun x hx => mem_of_mem_eraseP hx
  refine ⟨?_, fun key => ?_, get?_setPool h.nonempty e.key pool, ?_, ?_, fun x hx => h.fresh x (hmem x hx),
    fun x hx => h.sized x (hmem x hx)⟩
  · exact h.ids.sublist (Sublist.map _ (eraseP_sublist))
  · change ((c.setPool e.key pool).pool key).Perm
      ((c.pinnedFifo.eraseP (·.id = e.id)).filter (·.key = key))
    have hfilter := hperm.filter (·.key = key)
    rw [pool_setPool]
    split
    · rename_i hkey
      subst hkey
      rw [filter_cons_of_pos (by simp)] at hfilter
      exact ((hpool.symm.trans (h.pools e.key)).trans hfilter).cons_inv
    · rename_i hkey
      rw [filter_cons_of_neg (by simpa using Ne.symm hkey)] at hfilter
      exact (h.pools key).trans hfilter
  · have hlength := hperm.length_eq
    rw [length_cons] at hlength
    change c.cacheTensors - 1 = ((c.pinnedFifo.eraseP (·.id = e.id)).length : Int)
    rw [h.tensors, hlength]
    omega
  · have hsum := (hperm.map Entry.capacityBytes).sum_eq
    rw [map_cons, sum_cons] at hsum
    change c.cacheBytes - e.capacityBytes =
      (((c.pinnedFifo.eraseP (·.id = e.id)).map Entry.capacityBytes).sum : Nat)
    rw [h.bytes, hsum]
    omega

/-! ## Eviction -/

/-- The eviction of a buffer that is in the cache. -/
theorem Inv.evictAndRelease (h : Inv elementSize c) (he : e ∈ c.pinnedFifo) :
    Inv elementSize (c.evictAndRelease e) := by
  have hmem : e ∈ c.pool e.key := h.mem_pool.mpr ⟨he, rfl⟩
  have hids : ((c.pool e.key).map Entry.id).Nodup := by
    rw [((h.pools e.key).map Entry.id).nodup_iff]
    exact h.ids.sublist (Sublist.map _ filter_sublist)
  cases hget : c.pinnedFree.get? e.key with
  | none =>
    rw [Cache.pool, hget] at hmem
    cases hmem
  | some pool =>
    have hpool : c.pool e.key = pool := by rw [Cache.pool, hget]; rfl
    have hremove := h.remove he (perm_cons_eraseP hmem hids)
    simp only [Cache.evictAndRelease, hget]
    rw [hpool] at hremove
    exact ⟨hremove.ids, hremove.pools, hremove.nonempty, hremove.tensors, hremove.bytes, hremove.fresh,
      hremove.sized⟩

theorem fifo_evictAndRelease (c : Cache DType) (e : Entry DType) :
    (c.evictAndRelease e).pinnedFifo = c.pinnedFifo.eraseP (·.id = e.id) := by
  simp only [Cache.evictAndRelease]
  split
  · rfl
  · simp only [Cache.popFifo, Cache.setPool]

theorem nextId_evictAndRelease (c : Cache DType) (e : Entry DType) :
    (c.evictAndRelease e).nextId = c.nextId := by
  simp only [Cache.evictAndRelease]
  split <;> rfl

theorem length_evictAndRelease (he : e ∈ c.pinnedFifo) :
    (c.evictAndRelease e).pinnedFifo.length + 1 = c.pinnedFifo.length := by
  rw [fifo_evictAndRelease, length_eraseP_of_mem he (by simp)]
  exact Nat.sub_add_cancel (length_pos_of_mem he)

/-- An eviction loop keeps what every eviction of a picked buffer keeps.  It ends, where its condition
fails or nothing is picked. -/
theorem evictWhile_spec {I : Cache DType → Prop} {guard : Cache DType → Bool}
    {pick : Cache DType → Option (Entry DType)} (stop : Cache DType → Cache DType)
    (hpick : ∀ c e, I c → guard c = true → pick c = some e →
      e ∈ c.pinnedFifo ∧ I (c.evictAndRelease e)) {rounds : Nat} (h : I c)
    (hrounds : c.pinnedFifo.length < rounds) :
    ∃ c', I c' ∧ ((guard c' = false ∧ evictWhile guard pick stop rounds c = some c') ∨
      (guard c' = true ∧ pick c' = none ∧ evictWhile guard pick stop rounds c = some (stop c'))) := by
  induction rounds generalizing c with
  | zero => omega
  | succ rounds ih =>
    cases hguard : guard c with
    | false => exact ⟨c, h, .inl ⟨hguard, by simp [evictWhile, hguard]⟩⟩
    | true =>
      cases he : pick c with
      | none => exact ⟨c, h, .inr ⟨hguard, he, by simp [evictWhile, hguard, he]⟩⟩
      | some e =>
        obtain ⟨hmem, hnext⟩ := hpick c e h hguard he
        have hlength := length_evictAndRelease hmem
        obtain ⟨c', hc', hend⟩ := ih hnext (by omega)
        exact ⟨c', hc', by simpa [evictWhile, hguard, he] using hend⟩

theorem mem_pickCapEvictionEntry (h : c.pickCapEvictionEntry = some e) :
    e ∈ c.pinnedFifo ∧ c.mergedRetained e.capacityBytes < cachedCount c.pinnedFifo e.capacityBytes := by
  obtain ⟨cap, -, hcap⟩ := exists_of_findSome?_eq_some h
  split at hcap
  · cases hcap
  · rename_i hexcess
    have hfound := find?_some hcap
    simp only [decide_eq_true_eq] at hfound
    exact ⟨mem_of_find?_eq_some hcap, hfound ▸ not_le.mp hexcess⟩

omit [DecidableEq DType] in
theorem mem_largest {entries : List (Entry DType)} (h : largest entries = some e) :
    e ∈ entries := by
  refine foldlRecOn (motive := fun best => ∀ e, best = some e → e ∈ entries) entries _ (by simp) ?_ e h
  intro best hbest a ha e he
  cases best with
  | none => exact Option.some.inj he ▸ ha
  | some b =>
    simp only at he
    split at he
    · exact Option.some.inj he ▸ ha
    · exact hbest e he

/-! ## What evictions leave -/

/-- A cache that only buffers have left. -/
structure Shrunk (elementSize : DType → Nat) (c c' : Cache DType) : Prop where
  inv : Inv elementSize c'
  sub : c'.pinnedFifo ⊆ c.pinnedFifo
  nextId : c'.nextId = c.nextId
  bytes : c'.cacheBytes ≤ c.cacheBytes
  hard : c'.hardMaxSizeBytes = c.hardMaxSizeBytes

theorem Shrunk.refl (h : Inv elementSize c) : Shrunk elementSize c c :=
  ⟨h, List.Subset.refl _, rfl, le_rfl, rfl⟩

theorem Shrunk.trans {c c' c'' : Cache DType} (h : Shrunk elementSize c c')
    (h' : Shrunk elementSize c' c'') : Shrunk elementSize c c'' :=
  ⟨h'.inv, List.Subset.trans h'.sub h.sub, h'.nextId.trans h.nextId, h'.bytes.trans h.bytes,
    h'.hard.trans h.hard⟩

theorem bytes_evictAndRelease (c : Cache DType) (e : Entry DType) :
    (c.evictAndRelease e).cacheBytes = c.cacheBytes - e.capacityBytes := by
  simp only [Cache.evictAndRelease]
  split <;> rfl

theorem hard_evictAndRelease (c : Cache DType) (e : Entry DType) :
    (c.evictAndRelease e).hardMaxSizeBytes = c.hardMaxSizeBytes := by
  simp only [Cache.evictAndRelease]
  split <;> rfl

theorem Shrunk.evict {c c' : Cache DType} (h : Shrunk elementSize c c') (he : e ∈ c'.pinnedFifo) :
    Shrunk elementSize c (c'.evictAndRelease e) := by
  refine ⟨h.inv.evictAndRelease he, ?_, (nextId_evictAndRelease c' e).trans h.nextId, ?_,
    (hard_evictAndRelease c' e).trans h.hard⟩
  · rw [fifo_evictAndRelease]
    exact List.Subset.trans eraseP_sublist.subset h.sub
  · have hbytes := h.bytes
    rw [bytes_evictAndRelease]
    omega

/-- The fields that no buffer count depends on. -/
theorem Inv.congr {c c' : Cache DType} (h : Inv elementSize c) (hfree : c'.pinnedFree = c.pinnedFree)
    (hfifo : c'.pinnedFifo = c.pinnedFifo) (htensors : c'.cacheTensors = c.cacheTensors)
    (hbytes : c'.cacheBytes = c.cacheBytes) (hnext : c'.nextId = c.nextId) :
    Inv elementSize c' where
  ids := hfifo ▸ h.ids
  pools := fun key => by rw [Cache.pool, hfree, hfifo]; exact h.pools key
  nonempty := hfree ▸ h.nonempty
  tensors := by rw [htensors, hfifo]; exact h.tensors
  bytes := by rw [hbytes, hfifo]; exact h.bytes
  fresh := by rw [hfifo, hnext]; exact h.fresh
  sized := hfifo ▸ h.sized

theorem Shrunk.congr {c c' c'' : Cache DType} (h : Shrunk elementSize c c')
    (hfree : c''.pinnedFree = c'.pinnedFree) (hfifo : c''.pinnedFifo = c'.pinnedFifo)
    (htensors : c''.cacheTensors = c'.cacheTensors) (hbytes : c''.cacheBytes = c'.cacheBytes)
    (hnext : c''.nextId = c'.nextId) (hhard : c''.hardMaxSizeBytes = c'.hardMaxSizeBytes) :
    Shrunk elementSize c c'' :=
  ⟨h.inv.congr hfree hfifo htensors hbytes hnext, hfifo ▸ h.sub, hnext.trans h.nextId,
    hbytes ▸ h.bytes, hhard.trans h.hard⟩

theorem shrunk_keepRetained {c c' : Cache DType} (h : Shrunk elementSize c c') (allowAuto : Bool) :
    Shrunk elementSize c (c'.keepRetained allowAuto) := by
  unfold Cache.keepRetained
  split
  · exact h.congr rfl rfl rfl rfl rfl rfl
  · exact h

/-- An eviction loop ends and leaves a smaller cache. -/
theorem shrunk_evictWhile {guard : Cache DType → Bool} {pick : Cache DType → Option (Entry DType)}
    {stop : Cache DType → Cache DType} (h : Inv elementSize c)
    (hpick : ∀ c e, pick c = some e → e ∈ c.pinnedFifo)
    (hstop : ∀ c', Shrunk elementSize c c' → Shrunk elementSize c (stop c')) {rounds : Nat}
    (hrounds : c.pinnedFifo.length < rounds) :
    ∃ c', evictWhile guard pick stop rounds c = some c' ∧ Shrunk elementSize c c' := by
  obtain ⟨c', hc', ⟨-, hend⟩ | ⟨-, -, hend⟩⟩ := evictWhile_spec
    (I := Shrunk elementSize c) stop (fun d e hd _ he => ⟨hpick d e he, hd.evict (hpick d e he)⟩)
    (Shrunk.refl h) hrounds
  · exact ⟨c', hend, hc'⟩
  · exact ⟨stop c', hend, hstop c' hc'⟩

theorem shrunk_evictIfNeeded (h : Inv elementSize c) (allowAuto : Bool) :
    ∃ c', c.evictIfNeeded allowAuto = some c' ∧ Shrunk elementSize c c' := by
  unfold Cache.evictIfNeeded
  split
  · exact ⟨c, rfl, Shrunk.refl h⟩
  · simp only
    split
    · exact shrunk_evictWhile h (fun d e he => mem_of_mem_head? he) (fun _ hd => hd) (by omega)
    · exact shrunk_evictWhile h (fun d e he => (mem_pickCapEvictionEntry he).1)
        (fun d hd => shrunk_keepRetained hd allowAuto) (by omega)

theorem shrunk_evictDownToAutoCap (h : Inv elementSize c) :
    ∃ c', c.evictDownToAutoCap = some c' ∧ Shrunk elementSize c c' := by
  unfold Cache.evictDownToAutoCap
  split
  · exact ⟨c, rfl, Shrunk.refl h⟩
  · exact shrunk_evictWhile h (fun d e he => mem_largest he) (fun _ hd => hd) (by omega)

/-- Different buffers of the cache are evicted one after the other. -/
theorem shrunk_foldl (h : Inv elementSize c) {es : List (Entry DType)}
    (hids : (es.map Entry.id).Nodup) (hmem : ∀ e ∈ es, e ∈ c.pinnedFifo) :
    Shrunk elementSize c (es.foldl Cache.evictAndRelease c) ∧
      ∀ x ∈ c.pinnedFifo, x.id ∉ es.map Entry.id →
        x ∈ (es.foldl Cache.evictAndRelease c).pinnedFifo := by
  induction es generalizing c with
  | nil => exact ⟨Shrunk.refl h, fun x hx _ => hx⟩
  | cons e es ih =>
    rw [map_cons, nodup_cons] at hids
    have he := hmem e mem_cons_self
    have hstay : ∀ x ∈ c.pinnedFifo, x.id ≠ e.id → x ∈ (c.evictAndRelease e).pinnedFifo := by
      intro x hx hne
      rw [fifo_evictAndRelease, mem_eraseP_of_neg (by simpa using hne)]
      exact hx
    obtain ⟨hshrunk, hrest⟩ := ih (h.evictAndRelease he) hids.2 fun x hx =>
      hstay x (hmem x (mem_cons_of_mem _ hx)) fun heq => hids.1 (heq ▸ mem_map_of_mem hx)
    refine ⟨((Shrunk.refl h).evict he).trans hshrunk, fun x hx hnot => ?_⟩
    rw [map_cons, mem_cons, not_or] at hnot
    exact hrest x (hstay x hx hnot.1) hnot.2

/-- The unneeded buffers of a pool are dropped. -/
theorem shrunk_prunePool (key : PoolKey DType) (retained stepCounts : Counter)
    {entries : List (Entry DType)} (hids : (entries.map Entry.id).Nodup) (caps rest : List Nat)
    (hrest : rest.Nodup) (byCap : Nat → Nat) (h : Inv elementSize c)
    (hmem : ∀ e ∈ entries, e.capacityBytes ∈ rest → e ∈ c.pinnedFifo) :
    Shrunk elementSize c (Cache.prunePool key retained stepCounts entries caps rest byCap c) := by
  induction rest generalizing byCap c with
  | nil => exact Shrunk.refl h
  | cons cap rest ih =>
    rw [nodup_cons] at hrest
    simp only [Cache.prunePool]
    generalize (if key.isContiguous then contiguousSmallerTierExcess cap caps byCap retained stepCounts
      else byCap cap - retained.count cap) = excess
    have hsub : ((entries.filter (·.capacityBytes = cap)).take excess).Sublist entries :=
      (take_sublist _ _).trans filter_sublist
    have hevicted : ∀ e ∈ (entries.filter (·.capacityBytes = cap)).take excess,
        e ∈ entries ∧ e.capacityBytes = cap := by
      intro e he
      simpa using mem_filter.mp (mem_of_mem_take he)
    obtain ⟨hshrunk, hstay⟩ := shrunk_foldl h (hids.sublist (hsub.map Entry.id)) fun e he =>
      hmem e (hevicted e he).1 (by rw [(hevicted e he).2]; exact mem_cons_self)
    refine hshrunk.trans (ih hrest.2 _ hshrunk.inv fun e he hcap => ?_)
    refine hstay e (hmem e he (mem_cons_of_mem _ hcap)) fun hid => ?_
    -- the evicted buffers have another capacity
    obtain ⟨x, hx, hxid⟩ := mem_map.mp hid
    have hxe : x = e := inj_on_of_nodup_map hids (hevicted x hx).1 he hxid
    rw [← hxe, (hevicted x hx).2] at hcap
    exact hrest.1 hcap

omit [DecidableEq DType] in
theorem nodup_capacities (entries : List (Entry DType)) : (capacities entries).Nodup :=
  (perm_insertionSort _ _).nodup_iff.mpr (nodup_dedup _)

theorem shrunk_pruneExcessCachedEntries (h : Inv elementSize c) :
    Shrunk elementSize c c.pruneExcessCachedEntries := by
  unfold Cache.pruneExcessCachedEntries
  simp only
  generalize c.pinnedFree.keys = keys
  generalize c.pinnedFifo.map Entry.id = fifoSet
  generalize stepCapacityMultisetByKey c.stepRecords = stepByKey
  induction keys generalizing c with
  | nil => exact Shrunk.refl h
  | cons key keys ih =>
    rw [foldl_cons]
    split
    · exact ih h
    · have hids : (((c.pool key).filter fun e => decide (e.id ∈ fifoSet)).map Entry.id).Nodup := by
        have hpool : ((c.pool key).map Entry.id).Nodup := by
          rw [((h.pools key).map Entry.id).nodup_iff]
          exact h.ids.sublist (Sublist.map _ filter_sublist)
        exact hpool.sublist (Sublist.map _ filter_sublist)
      have hpool := shrunk_prunePool key ((c.retainedCapacityCounts.get? key).getD .empty)
        ((stepByKey.get? key).getD .empty) hids
        (capacities ((c.pool key).filter fun e => decide (e.id ∈ fifoSet)))
        (capacities ((c.pool key).filter fun e => decide (e.id ∈ fifoSet))) (nodup_capacities _)
        (cachedCount ((c.pool key).filter fun e => decide (e.id ∈ fifoSet))) h
        fun e he _ => (h.mem_pool.mp (mem_filter.mp he).1).1
      exact hpool.trans (ih hpool.inv)

/-! ## The operations -/

theorem nextId_foldl (c : Cache DType) (es : List (Entry DType)) :
    (es.foldl Cache.evictAndRelease c).nextId = c.nextId := by
  induction es generalizing c with
  | nil => rfl
  | cons e es ih => rw [foldl_cons, ih, nextId_evictAndRelease]

theorem hard_foldl (c : Cache DType) (es : List (Entry DType)) :
    (es.foldl Cache.evictAndRelease c).hardMaxSizeBytes = c.hardMaxSizeBytes := by
  induction es generalizing c with
  | nil => rfl
  | cons e es ih => rw [foldl_cons, ih, hard_evictAndRelease]

theorem shrunk_clear (h : Inv elementSize c) : Shrunk elementSize c c.clear where
  inv := ⟨nodup_nil, fun _ => Perm.nil, by rintro key pool ⟨⟩, rfl, rfl, by rintro e ⟨⟩,
    by rintro e ⟨⟩⟩
  sub := nil_subset _
  nextId := nextId_foldl c c.pinnedFifo
  bytes := by
    rw [h.bytes]
    exact Int.natCast_nonneg _
  hard := hard_foldl c c.pinnedFifo

/-- The cache with a new policy, before the eviction. -/
def Cache.withPolicy (c : Cache DType) (enabled : Bool) (bucketSizeBytes : Nat)
    (hardMaxSizeBytes : Option Nat) : Cache DType :=
  let c' := { c with enabled, bucketSizeBytes, hardMaxSizeBytes }
  if c.enabled ≠ enabled ∨ c.bucketSizeBytes ≠ bucketSizeBytes ∨ c.hardMaxSizeBytes ≠ hardMaxSizeBytes then
    c'.clear.resetLearnedState
  else c'

/-- A new policy is set, and the cache is evicted down to it. -/
theorem configure_eq (c : Cache DType) (enabled : Bool) (bucketSizeBytes : Nat)
    (hardMaxSizeBytes : Option Nat) :
    c.configure enabled bucketSizeBytes hardMaxSizeBytes =
      ((c.withPolicy enabled bucketSizeBytes hardMaxSizeBytes).evictIfNeeded true).map fun c' =>
        (decide (c.enabled ≠ enabled ∨ c.bucketSizeBytes ≠ bucketSizeBytes ∨
          c.hardMaxSizeBytes ≠ hardMaxSizeBytes), c') := by
  simp only [Cache.configure, Cache.withPolicy, decide_eq_true_eq]

/-- A new policy takes effect. -/
theorem shrunk_withPolicy (h : Inv elementSize c) (enabled : Bool) (bucketSizeBytes : Nat)
    (hardMaxSizeBytes : Option Nat) :
    Shrunk elementSize { c with enabled, bucketSizeBytes, hardMaxSizeBytes }
      (c.withPolicy enabled bucketSizeBytes hardMaxSizeBytes) := by
  have hpolicy : Inv elementSize { c with enabled, bucketSizeBytes, hardMaxSizeBytes } :=
    h.congr rfl rfl rfl rfl rfl
  unfold Cache.withPolicy
  simp only
  split
  · exact (shrunk_clear hpolicy).congr rfl rfl rfl rfl rfl rfl
  · exact Shrunk.refl hpolicy

theorem shrunk_maybeShrinkAutoCap (h : Inv elementSize c) (needed : Nat) :
    Shrunk elementSize c (c.maybeShrinkAutoCap needed).2 := by
  unfold Cache.maybeShrinkAutoCap
  repeat' split
  all_goals first | exact Shrunk.refl h | exact (Shrunk.refl h).congr rfl rfl rfl rfl rfl rfl

/-- The end of a step. -/
theorem shrunk_finalizeStep (h : Inv elementSize c) :
    ∃ c', c.finalizeStep = some c' ∧ Shrunk elementSize c c' := by
  have hrecord : Shrunk elementSize c c.recordStepCapacityMultisets :=
    (Shrunk.refl h).congr rfl rfl rfl rfl rfl rfl
  unfold Cache.finalizeStep
  simp only
  generalize c.recordStepCapacityMultisets = c₁ at hrecord ⊢
  have hshrink := hrecord.trans
    (shrunk_maybeShrinkAutoCap hrecord.inv (stepNeededFootprintBytes c₁.stepRecords))
  generalize c₁.maybeShrinkAutoCap (stepNeededFootprintBytes c₁.stepRecords) = r at hshrink ⊢
  obtain ⟨shrank, c₂⟩ := r
  simp only at hshrink ⊢
  generalize stepFootprintBytes c₁.stepRecords = stepBytes
  have hauto : Shrunk elementSize c
      (if c₂.hardMaxSizeBytes.isNone && !shrank && decide (stepBytes > 0) &&
          c₂.autoMaxSizeBytes.all (fun autoMax => decide (stepBytes > autoMax)) then
        { c₂ with autoMaxSizeBytes := some stepBytes, autoShrinkStreak := 0 }
      else c₂) := by
    split
    · exact hshrink.congr rfl rfl rfl rfl rfl rfl
    · exact hshrink
  generalize (if c₂.hardMaxSizeBytes.isNone && !shrank && decide (stepBytes > 0) &&
      c₂.autoMaxSizeBytes.all (fun autoMax => decide (stepBytes > autoMax)) then
        { c₂ with autoMaxSizeBytes := some stepBytes, autoShrinkStreak := 0 }
      else c₂) = c₃ at hauto ⊢
  have hprune := hauto.trans (shrunk_pruneExcessCachedEntries hauto.inv)
  generalize c₃.pruneExcessCachedEntries = c₄ at hprune ⊢
  have hlast : ∀ c', Shrunk elementSize c c' → Shrunk elementSize c { c' with stepRecords := [] } :=
    fun c' hc' => hc'.congr rfl rfl rfl rfl rfl rfl
  split
  · split
    · obtain ⟨c', hc', hshrunk⟩ := shrunk_evictDownToAutoCap hprune.inv
      exact ⟨_, by rw [hc']; rfl, hlast c' (hprune.trans hshrunk)⟩
    · obtain ⟨c', hc', hshrunk⟩ := shrunk_evictIfNeeded hprune.inv true
      exact ⟨_, by rw [hc']; rfl, hlast c' (hprune.trans hshrunk)⟩
  · exact ⟨_, rfl, hlast c₄ hprune⟩

end ArcticPlatform.PinnedStaging
