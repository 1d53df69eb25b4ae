import ArcticPlatform.PinnedStaging.Held
import Mathlib.Algebra.Order.BigOperators.Group.Finset

/-!
# The hard maximum of the pinned staging cache

The eviction down to the maximum passes over the buffers that learned counts retain.  When these
alone are over the maximum, so is the cache.  The counts are learned from the releases of a step, where
a buffer that is used twice counts twice.

Main results:

- Theorem `evictIfNeeded_hard`: what an eviction down to a hard maximum reaches.
- Theorem `accounting_within_hard_maximum`: the accounting of every run, and when the cache is
  within its hard maximum.
- Theorem `release_over_hard_maximum`: a release that leaves the cache over its maximum.
-/

namespace ArcticPlatform.PinnedStaging

open Dicts Runs List

variable {DType : Type} [DecidableEq DType] {elementSize : DType → Nat}

/-! ## Retained bytes -/

/-- The bytes of the cached buffers that learned counts retain. -/
def Cache.retainedBytes (c : Cache DType) : Nat :=
  ∑ cap ∈ (c.pinnedFifo.map Entry.capacityBytes).toFinset,
    cap * min (cachedCount c.pinnedFifo cap) (c.mergedRetained cap)

omit [DecidableEq DType] in
theorem count_capacities (entries : List (Entry DType)) (cap : Nat) :
    (entries.map Entry.capacityBytes).count cap = cachedCount entries cap := by
  rw [count_eq_countP, countP_map, cachedCount]
  rfl

variable {c : Cache DType}

theorem Inv.bytes_eq (h : Inv elementSize c) :
    c.cacheBytes = (∑ cap ∈ (c.pinnedFifo.map Entry.capacityBytes).toFinset,
      cap * cachedCount c.pinnedFifo cap : Nat) := by
  rw [h.bytes, Finset.sum_list_count]
  congr 1
  refine Finset.sum_congr rfl fun cap _ => ?_
  rw [count_capacities, smul_eq_mul, mul_comm]

theorem Inv.retainedBytes_le (h : Inv elementSize c) : (c.retainedBytes : Int) ≤ c.cacheBytes := by
  rw [h.bytes_eq]
  exact_mod_cast Finset.sum_le_sum fun cap _ => Nat.mul_le_mul_left cap (min_le_left _ _)

theorem Inv.bytes_eq_retained (h : Inv elementSize c)
    (hnone : ∀ cap ∈ c.pinnedFifo.map Entry.capacityBytes,
      cachedCount c.pinnedFifo cap ≤ c.mergedRetained cap) : c.cacheBytes = c.retainedBytes := by
  rw [h.bytes_eq, Cache.retainedBytes]
  congr 1
  refine Finset.sum_congr rfl fun cap hcap => ?_
  rw [min_eq_left (hnone cap (mem_toFinset.mp hcap))]

theorem mergedRetained_evictAndRelease (c : Cache DType) (e : Entry DType) (cap : Nat) :
    (c.evictAndRelease e).mergedRetained cap = c.mergedRetained cap := by
  simp only [Cache.evictAndRelease]
  split <;> rfl

theorem Inv.retainedBytes_evict (h : Inv elementSize c) {e : Entry DType} (he : e ∈ c.pinnedFifo)
    (hexcess : c.mergedRetained e.capacityBytes < cachedCount c.pinnedFifo e.capacityBytes) :
    (c.evictAndRelease e).retainedBytes = c.retainedBytes := by
  have hperm := perm_cons_eraseP he h.ids
  have hcount : ∀ cap, cachedCount c.pinnedFifo cap =
      cachedCount (c.pinnedFifo.eraseP (·.id = e.id)) cap + if e.capacityBytes = cap then 1 else 0 := by
    intro cap
    rw [cachedCount, hperm.countP_eq, countP_cons, cachedCount]
    simp
  have hterm : ∀ cap, min (cachedCount (c.pinnedFifo.eraseP (·.id = e.id)) cap) (c.mergedRetained cap) =
      min (cachedCount c.pinnedFifo cap) (c.mergedRetained cap) := by
    intro cap
    have hcap := hcount cap
    by_cases heq : e.capacityBytes = cap
    · subst heq
      rw [if_pos rfl] at hcap
      omega
    · rw [if_neg heq] at hcap
      rw [hcap, add_zero]
  simp only [Cache.retainedBytes, fifo_evictAndRelease, mergedRetained_evictAndRelease, hterm]
  refine Finset.sum_subset ?_ fun cap _ hnot => ?_
  · intro cap hcap
    rw [mem_toFinset] at hcap ⊢
    exact (List.Sublist.map _ eraseP_sublist).subset hcap
  · have hzero : cachedCount (c.pinnedFifo.eraseP (·.id = e.id)) cap = 0 := by
      rw [← count_capacities, count_eq_zero]
      exact fun hmem => hnot (mem_toFinset.mpr hmem)
    rw [← hterm, hzero, Nat.zero_min, mul_zero]

/-! ## Eviction down to the hard maximum -/

theorem le_retained_of_pick_none (h : c.pickCapEvictionEntry = none) :
    ∀ cap ∈ c.pinnedFifo.map Entry.capacityBytes,
      cachedCount c.pinnedFifo cap ≤ c.mergedRetained cap := by
  intro cap hcap
  have hmem : cap ∈ capacities c.pinnedFifo := by
    rw [capacities, (perm_insertionSort _ _).mem_iff, mem_dedup]
    exact hcap
  by_contra hexcess
  have hnone := (findSome?_eq_none_iff.mp h) cap hmem
  rw [if_neg hexcess] at hnone
  obtain ⟨e, he, rfl⟩ := mem_map.mp hcap
  have hno := find?_eq_none.mp hnone e he
  simp at hno

/-- An eviction down to a hard maximum ends within it if and only if the retained buffers are. -/
theorem evictIfNeeded_hard (h : Inv elementSize c) {maxSizeBytes : Nat}
    (hhard : c.hardMaxSizeBytes = some maxSizeBytes) (allowAuto : Bool) :
    ∃ c', c.evictIfNeeded allowAuto = some c' ∧
      (c'.cacheBytes ≤ maxSizeBytes ↔ maxSizeBytes = 0 ∨ c.retainedBytes ≤ maxSizeBytes) := by
  simp only [Cache.evictIfNeeded, Cache.effectiveMaxSizeBytes, hhard]
  split
  · rename_i hzero
    have hstep : ∀ (d : Cache DType) (e : Entry DType), Shrunk elementSize c d →
        (!d.pinnedFifo.isEmpty) = true → d.pinnedFifo.head? = some e →
          e ∈ d.pinnedFifo ∧ Shrunk elementSize c (d.evictAndRelease e) := by
      intro d e hd _ he
      have hmem := mem_of_mem_head? he
      exact ⟨hmem, hd.evict hmem⟩
    obtain ⟨c', hc', ⟨hguard, hend⟩ | ⟨hguard, hpick, -⟩⟩ :=
      evictWhile_spec id hstep (Shrunk.refl h) (Nat.lt_succ_self _)
    · refine ⟨c', hend, iff_of_true ?_ (.inl hzero)⟩
      have hempty : c'.pinnedFifo = [] := by simpa using hguard
      rw [hc'.inv.bytes, hempty]
      simp
    · rw [head?_eq_none_iff.mp hpick] at hguard
      cases hguard
  · rename_i hne
    have hstep : ∀ (d : Cache DType) (e : Entry DType),
        Shrunk elementSize c d ∧ d.retainedBytes = c.retainedBytes →
          Cache.over maxSizeBytes d = true → d.pickCapEvictionEntry = some e → e ∈ d.pinnedFifo ∧
            Shrunk elementSize c (d.evictAndRelease e) ∧
              (d.evictAndRelease e).retainedBytes = c.retainedBytes := by
      rintro d e ⟨hd, hretained⟩ _ he
      obtain ⟨hmem, hexcess⟩ := mem_pickCapEvictionEntry he
      exact ⟨hmem, hd.evict hmem, (hd.inv.retainedBytes_evict hmem hexcess).trans hretained⟩
    obtain ⟨c', ⟨hc', hretained⟩, ⟨hguard, hend⟩ | ⟨hguard, hpick, hend⟩⟩ :=
      evictWhile_spec (Cache.keepRetained allowAuto) hstep ⟨Shrunk.refl h, rfl⟩ (Nat.lt_succ_self _)
    · have hle : c'.cacheBytes ≤ maxSizeBytes := by
        by_contra hover
        have hempty : c'.pinnedFifo = [] := by
          simpa [Cache.over, not_le.mp hover] using hguard
        rw [hc'.inv.bytes, hempty] at hover
        simp at hover
      have hretainedLe := hc'.inv.retainedBytes_le
      exact ⟨c', hend, iff_of_true hle (.inr (by omega))⟩
    · have hbytes := hc'.inv.bytes_eq_retained (le_retained_of_pick_none hpick)
      have hover : (maxSizeBytes : Int) < c'.cacheBytes := by
        simp only [Cache.over, Bool.and_eq_true, decide_eq_true_eq] at hguard
        exact hguard.1
      have hstop : (c'.keepRetained allowAuto).cacheBytes = c'.cacheBytes := by
        unfold Cache.keepRetained
        split <;> rfl
      refine ⟨_, hend, iff_of_false (by rw [hstop]; omega) ?_⟩
      rintro (hzero | hfits)
      · exact hne hzero
      · omega

/-! ## Runs -/

variable {SlotId : Type} [DecidableEq SlotId] {slots : SlotId → Slot DType}

/-- The cache is within its hard maximum, if it has one. -/
def WithinHardMaximum (s : System DType SlotId) : Prop :=
  ∀ maxSizeBytes, s.cache.hardMaxSizeBytes = some maxSizeBytes → s.cache.cacheBytes ≤ maxSizeBytes

/-- A call that evicts down to the hard maximum. -/
def EvictsDown (s : System DType SlotId) : Event SlotId → Prop
  | .release slot _ => (s.held slot).isSome
  | .configure _ _ _ => True
  | _ => False

/-- The buffers that learned counts retain are within the hard maximum: in a release, among the cached
buffers and the released one, and in a configuration that does not change the policy, among the
cached ones.  A maximum of zero retains nothing. -/
def RetainedFits (elementSize : DType → Nat) (slots : SlotId → Slot DType) (s : System DType SlotId) :
    Event SlotId → Prop
  | .release slot event => ∀ entry maxSizeBytes, s.held slot = some entry →
      s.cache.hardMaxSizeBytes = some maxSizeBytes → maxSizeBytes = 0 ∨
        (s.cache.giveBack elementSize (slots slot) entry event).retainedBytes ≤ maxSizeBytes
  | .configure enabled bucketSizeBytes hardMaxSizeBytes => ∀ maxSizeBytes,
      hardMaxSizeBytes = some maxSizeBytes → maxSizeBytes = 0 ∨
        (s.cache.withPolicy enabled bucketSizeBytes hardMaxSizeBytes).retainedBytes ≤ maxSizeBytes
  | _ => True

instance (elementSize : DType → Nat) (slots : SlotId → Slot DType) (s : System DType SlotId) :
    DecidablePred (RetainedFits elementSize slots s)
  | .release slot event =>
    decidable_of_iff (∀ entry ∈ s.held slot, ∀ maxSizeBytes ∈ s.cache.hardMaxSizeBytes,
      maxSizeBytes = 0 ∨
        (s.cache.giveBack elementSize (slots slot) entry event).retainedBytes ≤ maxSizeBytes)
      ⟨fun h entry m hentry hm => h entry hentry m hm, fun h entry hentry m hm => h entry m hentry hm⟩
  | .configure enabled bucketSizeBytes hardMaxSizeBytes =>
    inferInstanceAs (Decidable (∀ maxSizeBytes ∈ hardMaxSizeBytes, maxSizeBytes = 0 ∨
      (s.cache.withPolicy enabled bucketSizeBytes hardMaxSizeBytes).retainedBytes ≤ maxSizeBytes))
  | .acquire _ | .finalizeStep | .clear => isTrue trivial

omit [DecidableEq SlotId] in
theorem within_evictIfNeeded (h : Inv elementSize c) (allowAuto : Bool) {cache : Cache DType}
    (hcache : c.evictIfNeeded allowAuto = some cache) (held : SlotId → Option (Entry DType)) :
    WithinHardMaximum (⟨cache, held⟩ : System DType SlotId) ↔ ∀ maxSizeBytes,
      c.hardMaxSizeBytes = some maxSizeBytes →
        maxSizeBytes = 0 ∨ c.retainedBytes ≤ maxSizeBytes := by
  obtain ⟨c', hc', hshrunk⟩ := shrunk_evictIfNeeded h allowAuto
  obtain rfl : c' = cache := Option.some.inj (hc'.symm.trans hcache)
  simp only [WithinHardMaximum, hshrunk.hard]
  refine forall₂_congr fun maxSizeBytes hhard => ?_
  obtain ⟨c'', hc'', hiff⟩ := evictIfNeeded_hard h hhard allowAuto
  obtain rfl : c'' = c' := Option.some.inj (hc''.symm.trans hcache)
  exact hiff

/-- A call that evicts ends within the hard maximum if and only if the retained buffers fit. -/
theorem within_iff_retainedFits {s s' : System DType SlotId} (h : Apart elementSize slots s)
    {e : Event SlotId} (hstep : s.step elementSize slots e = some s') (hevicts : EvictsDown s e) :
    WithinHardMaximum s' ↔ RetainedFits elementSize slots s e := by
  cases e with
  | release slot event =>
    obtain ⟨entry, hentry⟩ := Option.isSome_iff_exists.mp hevicts
    simp only [System.step, hentry] at hstep
    obtain ⟨cache, hcache, rfl⟩ := Option.map_eq_some_iff.mp hstep
    rw [within_evictIfNeeded (h.giveBack hentry event).cache false hcache]
    constructor
    · intro hfits entry' maxSizeBytes hentry' hhard
      obtain rfl : entry = entry' := Option.some.inj (hentry.symm.trans hentry')
      exact hfits maxSizeBytes hhard
    · exact fun hfits maxSizeBytes hhard => hfits entry maxSizeBytes hentry hhard
  | configure enabled bucketSizeBytes hardMaxSizeBytes =>
    simp only [System.step, configure_eq, Option.map_map] at hstep
    obtain ⟨cache, hcache, rfl⟩ := Option.map_eq_some_iff.mp hstep
    have hpolicy := shrunk_withPolicy h.cache enabled bucketSizeBytes hardMaxSizeBytes
    have hwithin := within_evictIfNeeded hpolicy.inv true hcache s.held
    rw [hpolicy.hard] at hwithin
    exact hwithin
  | acquire slot => exact absurd hevicts id
  | finalizeStep => exact absurd hevicts id
  | clear => exact absurd hevicts id

theorem acquire_bytes (c : Cache DType) (slot : Slot DType) :
    (c.acquire elementSize slot).2.cacheBytes ≤ c.cacheBytes ∧
      (c.acquire elementSize slot).2.hardMaxSizeBytes = c.hardMaxSizeBytes := by
  unfold Cache.acquire
  cases hpop : c.popEntry elementSize slot with
  | none => exact ⟨le_rfl, rfl⟩
  | some p =>
    simp only [Cache.popEntry] at hpop
    split at hpop
    · cases hpop
    · obtain ⟨entry, -, rfl⟩ := Option.map_eq_some_iff.mp hpop
      refine ⟨?_, rfl⟩
      simp only [Cache.popFifo, Cache.setPool]
      omega

/-- The cache stays within its hard maximum where the retained buffers fit. -/
theorem WithinHardMaximum.step {s s' : System DType SlotId} (h : Apart elementSize slots s)
    (hwithin : WithinHardMaximum s) {e : Event SlotId} (hfits : RetainedFits elementSize slots s e)
    (hstep : s.step elementSize slots e = some s') : WithinHardMaximum s' := by
  have hsmaller : ∀ {c : Cache DType} (held : SlotId → Option (Entry DType)),
      c.cacheBytes ≤ s.cache.cacheBytes → c.hardMaxSizeBytes = s.cache.hardMaxSizeBytes →
        WithinHardMaximum (⟨c, held⟩ : System DType SlotId) :=
    fun held hbytes hhard maxSizeBytes hmax => hbytes.trans (hwithin maxSizeBytes (hhard ▸ hmax))
  cases e with
  | acquire slot =>
    cases hstep
    exact hsmaller _ (acquire_bytes s.cache (slots slot)).1 (acquire_bytes s.cache (slots slot)).2
  | release slot event =>
    cases hentry : s.held slot with
    | none =>
      simp only [System.step, hentry] at hstep
      cases hstep
      exact hwithin
    | some entry =>
      refine (within_iff_retainedFits h hstep ?_).mpr hfits
      simp only [EvictsDown, hentry, Option.isSome_some]
  | finalizeStep =>
    obtain ⟨c', hc', hshrunk⟩ := shrunk_finalizeStep h.cache
    simp only [System.step, hc', Option.map_some] at hstep
    cases hstep
    exact hsmaller _ hshrunk.bytes hshrunk.hard
  | configure enabled bucketSizeBytes hardMaxSizeBytes =>
    exact (within_iff_retainedFits h hstep trivial).mpr hfits
  | clear =>
    cases hstep
    exact hsmaller _ (shrunk_clear h.cache).bytes (shrunk_clear h.cache).hard

/-- In every run every call ends, the pools, the order and the counters agree, and buffers in the
cache and those that slots hold are kept apart; a call that evicts down to the hard maximum ends within it
if and only if the retained buffers fit.  In every run in which they fit, the cache is always within its
hard maximum. -/
theorem accounting_within_hard_maximum (hslots : ∀ slot, (slots slot).Fits elementSize)
    (s : System DType SlotId) :
    (Reaches (System.step elementSize slots) Always .init s →
      Apart elementSize slots s ∧ ∀ e, ∃ s', s.step elementSize slots e = some s' ∧
        (EvictsDown s e → (WithinHardMaximum s' ↔ RetainedFits elementSize slots s e))) ∧
    (Reaches (System.step elementSize slots) (RetainedFits elementSize slots) .init s →
      WithinHardMaximum s) := by
  have hnext : ∀ (t : System DType SlotId) e t', Apart elementSize slots t →
      t.step elementSize slots e = some t' → Apart elementSize slots t' := by
    intro t e t' ht hstep
    obtain ⟨t'', ht'', hapart⟩ := ht.step hslots e
    obtain rfl : t'' = t' := Option.some.inj (ht''.symm.trans hstep)
    exact hapart
  constructor
  · intro hs
    have hapart : Apart elementSize slots s :=
      hs.invariant apart_init fun t e t' ht _ hstep => hnext t e t' ht hstep
    refine ⟨hapart, fun e => ?_⟩
    obtain ⟨s', hs', -⟩ := hapart.step hslots e
    exact ⟨s', hs', within_iff_retainedFits hapart hs'⟩
  · intro hs
    have hinit : Apart elementSize slots (.init : System DType SlotId) ∧
        WithinHardMaximum (.init : System DType SlotId) := ⟨apart_init, by rintro m ⟨⟩⟩
    have hboth : Apart elementSize slots s ∧ WithinHardMaximum s :=
      hs.invariant (I := fun t => Apart elementSize slots t ∧ WithinHardMaximum t) hinit
        fun t e t' ht hfits hstep => ⟨hnext t e t' ht.1 hstep, ht.2.step ht.1 hfits hstep⟩
    exact hboth.2

/-- A slot of one mebibyte, with elements of two bytes. -/
def mebibyteSlot : Slot Unit := ⟨[512, 1024], [1024, 1], (), true⟩

/-- A buffer is used and given back. -/
def oneUse : List (Event Nat) :=
  [.configure true (2 ^ 20) (some (3 * 2 ^ 19)), .acquire 0, .release 0 none]

/-- Then the cache holds it, in order and within the hard maximum. -/
theorem accounting_within_hard_maximum_oneUse :
    ∃ s : System Unit Nat, s.cache.cacheBytes = 2 ^ 20 ∧ WithinHardMaximum s ∧
      Apart (fun _ => 2) (fun _ => mebibyteSlot) s ∧
      ∀ e, ∃ s', s.step (fun _ => 2) (fun _ => mebibyteSlot) e = some s' ∧ (EvictsDown s e →
        (WithinHardMaximum s' ↔ RetainedFits (fun _ => 2) (fun _ => mebibyteSlot) s e)) := by
  have hslots : ∀ slot : Nat, ((fun _ => mebibyteSlot) slot).Fits fun _ => 2 :=
    fun _ => ⟨by decide, by rintro ⟨⟩⟩
  obtain ⟨s, hs, hbytes⟩ : ∃ s : System Unit Nat,
      Reaches (System.step (fun _ => 2) fun _ => mebibyteSlot)
        (RetainedFits (fun _ => 2) fun _ => mebibyteSlot) .init s ∧ s.cache.cacheBytes = 2 ^ 20 :=
    exists_reaches oneUse (by decide)
  have h := accounting_within_hard_maximum hslots s
  exact ⟨s, hbytes, h.2 hs, h.1 hs.always⟩

/-- In the first step two slots use one buffer, one after the other; in the second they use a
buffer each. -/
def twoUses : List (Event Nat) :=
  oneUse ++ [.acquire 1, .release 1 none, .finalizeStep, .acquire 2, .acquire 3, .release 2 none]

/-- The last release leaves two mebibytes in a cache of at most one and a half. -/
theorem release_over_hard_maximum :
    ∃ s : System Unit Nat, Reaches (System.step (fun _ => 2) fun _ => mebibyteSlot) Always .init s ∧
      (s.step (fun _ => 2) (fun _ => mebibyteSlot) (.release 3 none)).map
        (fun s' => (s'.cache.hardMaxSizeBytes, s'.cache.cacheBytes)) =
          some (some (3 * 2 ^ 19), 2 ^ 21) := exists_reaches twoUses (by decide)

end ArcticPlatform.PinnedStaging
