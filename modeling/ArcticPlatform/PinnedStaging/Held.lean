import ArcticPlatform.PinnedStaging.Accounting

/-!
# Buffers that slots hold

A buffer that is acquired leaves the cache and comes back when its slot is released.  So a buffer
is in the cache or with one slot, in every run of acquisitions, releases, ends of steps and
changes of the policy.

Main results:

- Theorem `acquire_spec`: the buffer that a slot gets.
- Theorem `Apart.step`: buffers in the cache and buffers that slots hold are kept apart.
-/

namespace ArcticPlatform.PinnedStaging

open Dicts Runs List

variable {DType : Type} [DecidableEq DType] {elementSize : DType → Nat}

/-! ## Acquire -/

/-- What the offload manager promises of a slot: elements have a size, and the elements of a strided slot
do not overlap. -/
structure Slot.Fits (elementSize : DType → Nat) (slot : Slot DType) : Prop where
  size : 0 < elementSize slot.dtype
  strided : slot.isContiguous = false → slot.shape.prod ≤ stridedNumel slot.shape slot.stride

/-- A buffer that a slot can use. -/
structure Entry.Serves (elementSize : DType → Nat) (e : Entry DType) (slot : Slot DType) : Prop where
  key : e.key = PoolKey.fromSlot slot
  bytes : slot.nbytes elementSize ≤ e.capacityBytes
  sized : e.Sized elementSize

section

omit [DecidableEq DType]

theorem le_roundUp (value multiple : Nat) : value ≤ roundUp value multiple := by
  unfold roundUp
  split
  · exact le_rfl
  · have hmod := Nat.div_add_mod (value + multiple - 1) multiple
    have hlt := Nat.mod_lt (value + multiple - 1) (show 0 < multiple by omega)
    rw [mul_comm] at hmod
    omega

theorem roundUp_div_mul {value multiple : Nat} (h : 0 < multiple) :
    roundUp value multiple / multiple * multiple = roundUp value multiple := by
  unfold roundUp
  rw [if_neg (by omega), Nat.mul_div_cancel _ h]

theorem bestFit_some {nbytes : Nat} {pool : List (Entry DType)} {idx : Nat}
    (h : bestFit nbytes pool = some idx) : ∃ e, pool[idx]? = some e ∧ nbytes ≤ e.capacityBytes := by
  obtain ⟨⟨i, cap⟩, hfound, rfl⟩ := Option.map_eq_some_iff.mp h
  -- whatever entry is best so far is one of the pool that is large enough
  refine List.foldlRecOn (motive := fun best => ∀ i cap, best = some (i, cap) →
    ∃ e, pool[i]? = some e ∧ nbytes ≤ e.capacityBytes) pool.zipIdx _ (by simp) ?_ i cap hfound
  intro best hbest p hp i cap hi
  obtain ⟨hlt, hget⟩ := mem_zipIdx' hp
  have hp : pool[p.2]? = some p.1 := by rw [hget, getElem?_eq_getElem hlt]
  simp only at hi
  split at hi
  · exact hbest i cap hi
  · rename_i hlarge
    split at hi
    · cases hi
      exact ⟨p.1, hp, not_lt.mp hlarge⟩
    · split at hi
      · cases hi
        exact ⟨p.1, hp, not_lt.mp hlarge⟩
      · exact hbest i cap hi

end

variable {slot : Slot DType}

omit [DecidableEq DType] in
theorem fromSlot_strided (h : slot.isContiguous = false) :
    PoolKey.fromSlot slot = ⟨false, slot.dtype, some slot.shape, some slot.stride⟩ := by
  simp [PoolKey.fromSlot, h]

omit [DecidableEq DType] in
theorem isContiguous_fromSlot (slot : Slot DType) :
    (PoolKey.fromSlot slot).isContiguous = slot.isContiguous := by
  unfold PoolKey.fromSlot
  split
  · rename_i h
    exact h.symm
  · rename_i h
    exact (Bool.eq_false_iff.mpr h).symm

variable {e : Entry DType}

omit [DecidableEq DType] in
theorem nbytes_le_of_sized (hslot : slot.Fits elementSize) (hkey : e.key = PoolKey.fromSlot slot)
    (hsized : e.Sized elementSize) (hstrided : slot.isContiguous = false) :
    slot.nbytes elementSize ≤ e.capacityBytes := by
  have hfrom := fromSlot_strided hstrided
  obtain ⟨shape, stride, hshape, hstride, hcapacity⟩ := hsized (by rw [hkey, hfrom])
  rw [hkey, hfrom] at hshape hstride hcapacity
  cases hshape
  cases hstride
  rw [hcapacity]
  exact Nat.mul_le_mul_right _ (hslot.strided hstrided)

variable {c : Cache DType}

/-- A buffer is popped from the pool of a slot. -/
theorem popEntry_spec (h : Inv elementSize c) (hslot : slot.Fits elementSize) {c' : Cache DType}
    (hpop : c.popEntry elementSize slot = some (e, c')) :
    e.Serves elementSize slot ∧ Inv elementSize c' ∧ e ∈ c.pinnedFifo ∧
      c'.pinnedFifo = c.pinnedFifo.eraseP (·.id = e.id) ∧ c'.nextId = c.nextId := by
  simp only [Cache.popEntry] at hpop
  split at hpop
  · cases hpop
  · rename_i idx hidx
    obtain ⟨entry, hget, hpair⟩ := Option.map_eq_some_iff.mp hpop
    cases hpair
    obtain ⟨hlt, hentry⟩ := List.getElem?_eq_some_iff.mp hget
    obtain ⟨hmem, hkey⟩ := h.mem_pool.mp (mem_of_getElem? hget)
    have hperm : (c.pool e.key).Perm (e :: (c.pool (PoolKey.fromSlot slot)).eraseIdx idx) := by
      rw [hkey, ← hentry]
      exact (getElem_cons_eraseIdx_perm hlt).symm
    have hremove := h.remove hmem hperm
    rw [hkey] at hremove
    refine ⟨⟨hkey, ?_, h.sized e hmem⟩, hremove, hmem, rfl, rfl⟩
    cases hcontiguous : slot.isContiguous with
    | true =>
      rw [hcontiguous, if_pos rfl] at hidx
      obtain ⟨e', he', hbytes⟩ := bestFit_some hidx
      obtain rfl : e' = e := Option.some.inj (he'.symm.trans hget)
      exact hbytes
    | false => exact nbytes_le_of_sized hslot hkey (h.sized e hmem) hcontiguous

/-- A new buffer is as large as its slot needs. -/
theorem allocateEntry_spec (c : Cache DType) (hslot : slot.Fits elementSize) :
    (c.allocateEntry elementSize slot).1.Serves elementSize slot := by
  have hsized : (c.allocateEntry elementSize slot).1.Sized elementSize := by
    intro hkey
    have hstrided : slot.isContiguous = false := (isContiguous_fromSlot slot).symm.trans hkey
    refine ⟨slot.shape, slot.stride, ?_, ?_, ?_⟩
    · simp only [Cache.allocateEntry, fromSlot_strided hstrided]
    · simp only [Cache.allocateEntry, fromSlot_strided hstrided]
    · simp only [Cache.allocateEntry, fromSlot_strided hstrided, hstrided, Bool.false_eq_true, if_false]
  refine ⟨rfl, ?_, hsized⟩
  cases hcontiguous : slot.isContiguous with
  | true =>
    simp only [Cache.allocateEntry, hcontiguous, if_true]
    rw [roundUp_div_mul hslot.size]
    exact (le_roundUp _ _).trans (le_roundUp _ _)
  | false => exact nbytes_le_of_sized hslot rfl hsized hcontiguous

/-- The buffer that a slot gets, from the cache or a new one. -/
theorem acquire_spec (h : Inv elementSize c) (hslot : slot.Fits elementSize) :
    (c.acquire elementSize slot).1.Serves elementSize slot ∧
      Inv elementSize (c.acquire elementSize slot).2 ∧
      (((c.acquire elementSize slot).1 ∈ c.pinnedFifo ∧ (c.acquire elementSize slot).2.pinnedFifo =
            c.pinnedFifo.eraseP (·.id = (c.acquire elementSize slot).1.id) ∧
          (c.acquire elementSize slot).2.nextId = c.nextId) ∨
        ((c.acquire elementSize slot).1.id = c.nextId ∧
          (c.acquire elementSize slot).2.pinnedFifo = c.pinnedFifo ∧
          (c.acquire elementSize slot).2.nextId = c.nextId + 1)) := by
  unfold Cache.acquire
  cases hpop : c.popEntry elementSize slot with
  | none =>
    refine ⟨allocateEntry_spec c hslot, ?_, .inr ⟨rfl, rfl, rfl⟩⟩
    exact ⟨h.ids, h.pools, h.nonempty, h.tensors, h.bytes,
      fun x hx => Nat.lt_succ_of_lt (h.fresh x hx), h.sized⟩
  | some p =>
    obtain ⟨hserves, hinv, hmem, hfifo, hnext⟩ := popEntry_spec h hslot hpop
    exact ⟨hserves, hinv, .inl ⟨hmem, hfifo, hnext⟩⟩

/-! ## Release -/

theorem Inv.giveBack (h : Inv elementSize c) (hout : e.id ∉ c.pinnedFifo.map Entry.id)
    (hfresh : e.id < c.nextId) (hsized : e.Sized elementSize) (slot : Slot DType)
    (event : Option Nat) :
    Inv elementSize (c.giveBack elementSize slot e event) where
  ids := by
    simp only [Cache.giveBack, map_append, map_cons, map_nil]
    exact nodup_append.mpr ⟨h.ids, nodup_singleton _, fun a ha b hb hab =>
      hout (by rw [← mem_singleton.mp hb, ← hab]; exact ha)⟩
  pools := fun key => by
    simp only [Cache.giveBack, Cache.pool, Dict.get?_set, filter_append]
    split
    · rename_i hkey
      subst hkey
      rw [Option.getD_some, filter_singleton]
      simpa [Cache.pool] using (h.pools e.key).append_right _
    · rename_i hkey
      rw [filter_singleton]
      simpa [Cache.pool, Ne.symm hkey] using h.pools key
  nonempty := fun key pool hpool => by
    simp only [Cache.giveBack, Dict.get?_set] at hpool
    split at hpool
    · cases hpool
      simp
    · exact h.nonempty key pool hpool
  tensors := by simp [Cache.giveBack, h.tensors]
  bytes := by simp [Cache.giveBack, h.bytes]
  fresh := by
    intro x hx
    rcases mem_append.mp hx with hold | hnew
    · exact h.fresh x hold
    · rw [mem_singleton.mp hnew]
      exact hfresh
  sized := by
    intro x hx
    rcases mem_append.mp hx with hold | hnew
    · exact h.sized x hold
    · rw [mem_singleton.mp hnew]
      exact hsized

/-! ## Slots -/

variable {SlotId : Type} [DecidableEq SlotId]

/-- The cache, and the entry of every slot. -/
structure System (DType SlotId : Type) [DecidableEq DType] where
  cache : Cache DType
  held : SlotId → Option (Entry DType)

/-- A call of the cache. -/
inductive Event (SlotId : Type)
  | acquire (slot : SlotId)
  | release (slot : SlotId) (event : Option Nat)
  | finalizeStep
  | configure (enabled : Bool) (bucketSizeBytes : Nat) (hardMaxSizeBytes : Option Nat)
  | clear

/-- No slot has an entry. -/
def System.init : System DType SlotId := ⟨.init, fun _ => none⟩

/-- The state after a call, where its loops end. -/
def System.step (elementSize : DType → Nat) (slots : SlotId → Slot DType) (s : System DType SlotId) :
    Event SlotId → Option (System DType SlotId)
  | .acquire slot =>
    let (entry, cache) := s.cache.acquire elementSize (slots slot)
    some ⟨cache, Function.update s.held slot (some entry)⟩
  | .release slot event =>
    match s.held slot with
    | none => some s
    | some entry =>
      (s.cache.release elementSize (slots slot) entry event).map fun cache =>
        ⟨cache, Function.update s.held slot none⟩
  | .finalizeStep => s.cache.finalizeStep.map fun cache => { s with cache }
  | .configure enabled bucketSizeBytes hardMaxSizeBytes =>
    (s.cache.configure enabled bucketSizeBytes hardMaxSizeBytes).map fun (_, cache) => { s with cache }
  | .clear => some { s with cache := s.cache.clear }

/-- The cache is in order, and a buffer that a slot holds is out of the cache and with no other slot. -/
structure Apart (elementSize : DType → Nat) (slots : SlotId → Slot DType) (s : System DType SlotId) :
    Prop where
  cache : Inv elementSize s.cache
  out : ∀ slot e, s.held slot = some e →
    e.id ∉ s.cache.pinnedFifo.map Entry.id ∧ e.id < s.cache.nextId
  once : ∀ slot slot' e e', s.held slot = some e → s.held slot' = some e' → e.id = e'.id → slot = slot'
  serves : ∀ slot e, s.held slot = some e → e.Serves elementSize (slots slot)

variable {slots : SlotId → Slot DType}

omit [DecidableEq SlotId] in
theorem apart_init : Apart elementSize slots (System.init : System DType SlotId) where
  cache := inv_init
  out := by rintro slot e ⟨⟩
  once := by rintro slot slot' e e' ⟨⟩
  serves := by rintro slot e ⟨⟩

variable {s : System DType SlotId}

section

variable (h : Apart elementSize slots s)
include h

omit [DecidableEq SlotId] in
theorem Apart.shrunk {cache : Cache DType}
    (hcache : Shrunk elementSize s.cache cache) : Apart elementSize slots { s with cache } where
  cache := hcache.inv
  out := fun slot e he => by
    obtain ⟨hout, hfresh⟩ := h.out slot e he
    exact ⟨fun hmem => hout (map_subset _ hcache.sub hmem), hcache.nextId.symm ▸ hfresh⟩
  once := h.once
  serves := h.serves

omit [DecidableEq SlotId] in
theorem Apart.withPolicy (enabled : Bool) (bucketSizeBytes : Nat) (hardMaxSizeBytes : Option Nat) :
    Apart elementSize slots
      { s with cache := { s.cache with enabled, bucketSizeBytes, hardMaxSizeBytes } } :=
  ⟨h.cache.congr rfl rfl rfl rfl rfl, h.out, h.once, h.serves⟩

/-- A slot gets a buffer. -/
theorem Apart.acquire (slot : SlotId) (hslot : (slots slot).Fits elementSize) :
    Apart elementSize slots ⟨(s.cache.acquire elementSize (slots slot)).2,
      Function.update s.held slot (some (s.cache.acquire elementSize (slots slot)).1)⟩ := by
  obtain ⟨hserves, hinv, hfrom⟩ := acquire_spec h.cache hslot
  generalize (s.cache.acquire elementSize (slots slot)).1 = e at hserves hfrom ⊢
  generalize (s.cache.acquire elementSize (slots slot)).2 = cache at hinv hfrom ⊢
  -- the buffer is no longer in the cache, and no slot had it
  have hnew : e.id ∉ cache.pinnedFifo.map Entry.id ∧ e.id < cache.nextId := by
    rcases hfrom with ⟨hmem, hfifo, hnext⟩ | ⟨hid, hfifo, hnext⟩
    · have hperm := (perm_cons_eraseP hmem h.cache.ids).map Entry.id
      have hnodup := hperm.nodup_iff.mp h.cache.ids
      rw [map_cons, nodup_cons] at hnodup
      exact ⟨hfifo ▸ hnodup.1, hnext ▸ h.cache.fresh e hmem⟩
    · refine ⟨fun hmem => ?_, by omega⟩
      obtain ⟨x, hx, hxid⟩ := mem_map.mp (hfifo ▸ hmem)
      have hlt := h.cache.fresh x hx
      omega
  have hothers : ∀ slot' e', s.held slot' = some e' → e'.id ≠ e.id ∧
      e'.id ∉ cache.pinnedFifo.map Entry.id ∧ e'.id < cache.nextId := by
    intro slot' e' he'
    obtain ⟨hout, hlt⟩ := h.out slot' e' he'
    rcases hfrom with ⟨hmem, hfifo, hnext⟩ | ⟨hid, hfifo, hnext⟩
    · refine ⟨fun heq => hout (heq ▸ mem_map_of_mem hmem), fun hin => hout ?_, hnext ▸ hlt⟩
      rw [hfifo] at hin
      exact (List.Sublist.map _ eraseP_sublist).subset hin
    · exact ⟨by omega, hfifo ▸ hout, by omega⟩
  have hheld : ∀ slot' e', Function.update s.held slot (some e) slot' = some e' →
      (slot' = slot ∧ e' = e) ∨ s.held slot' = some e' := by
    intro slot' e' he'
    rw [Function.update_apply] at he'
    split at he'
    · rename_i hslot'
      exact .inl ⟨hslot', (Option.some.inj he').symm⟩
    · exact .inr he'
  refine ⟨hinv, fun slot' e' he' => ?_, fun a b ea eb hea heb hid => ?_, fun slot' e' he' => ?_⟩
  · rcases hheld slot' e' he' with ⟨-, rfl⟩ | hold
    · exact hnew
    · exact (hothers slot' e' hold).2
  · rcases hheld a ea hea with ⟨rfl, rfl⟩ | holda <;> rcases hheld b eb heb with ⟨rfl, rfl⟩ | holdb
    · rfl
    · exact absurd hid.symm (hothers b eb holdb).1
    · exact absurd hid (hothers a ea holda).1
    · exact h.once a b ea eb holda holdb hid
  · rcases hheld slot' e' he' with ⟨rfl, rfl⟩ | hold
    · exact hserves
    · exact h.serves slot' e' hold

theorem Apart.giveBack {slot : SlotId} (he : s.held slot = some e) (event : Option Nat) :
    Apart elementSize slots ⟨s.cache.giveBack elementSize (slots slot) e event,
      Function.update s.held slot none⟩ := by
  obtain ⟨hout, hlt⟩ := h.out slot e he
  have hheld : ∀ slot' e', Function.update s.held slot none slot' = some e' →
      slot' ≠ slot ∧ s.held slot' = some e' := by
    intro slot' e' he'
    rw [Function.update_apply] at he'
    split at he'
    · cases he'
    · rename_i hne
      exact ⟨hne, he'⟩
  refine ⟨h.cache.giveBack hout hlt (h.serves slot e he).sized (slots slot) event,
    fun slot' e' he' => ?_, fun a b ea eb hea heb => ?_, fun slot' e' he' => ?_⟩
  · obtain ⟨hne, hold⟩ := hheld slot' e' he'
    obtain ⟨hout', hlt'⟩ := h.out slot' e' hold
    refine ⟨fun hmem => ?_, hlt'⟩
    simp only [Cache.giveBack, map_append, map_cons, map_nil, mem_append, mem_singleton] at hmem
    rcases hmem with hin | heq
    · exact hout' hin
    · exact hne (h.once slot' slot e' e hold he heq)
  · exact h.once a b ea eb (hheld a ea hea).2 (hheld b eb heb).2
  · exact h.serves slot' e' (hheld slot' e' he').2

end

/-- Every call ends, and keeps the buffers apart. -/
theorem Apart.step (hslots : ∀ slot, (slots slot).Fits elementSize) (h : Apart elementSize slots s)
    (e : Event SlotId) :
    ∃ s', s.step elementSize slots e = some s' ∧ Apart elementSize slots s' := by
  cases e with
  | acquire slot => exact ⟨_, rfl, h.acquire slot (hslots slot)⟩
  | release slot event =>
    cases he : s.held slot with
    | none => exact ⟨s, by simp [System.step, he], h⟩
    | some entry =>
      have hback := h.giveBack he event
      obtain ⟨cache, hcache, hshrunk⟩ := shrunk_evictIfNeeded hback.cache false
      exact ⟨_, by simp only [System.step, he, Cache.release, hcache, Option.map_some],
        hback.shrunk hshrunk⟩
  | finalizeStep =>
    obtain ⟨cache, hcache, hshrunk⟩ := shrunk_finalizeStep h.cache
    exact ⟨_, by simp only [System.step, hcache, Option.map_some], h.shrunk hshrunk⟩
  | configure enabled bucketSizeBytes hardMaxSizeBytes =>
    have hpolicy := shrunk_withPolicy h.cache enabled bucketSizeBytes hardMaxSizeBytes
    obtain ⟨cache, hcache, hshrunk⟩ := shrunk_evictIfNeeded hpolicy.inv true
    refine ⟨{ s with cache }, by simp only [System.step, configure_eq, hcache, Option.map_some], ?_⟩
    exact (h.withPolicy enabled bucketSizeBytes hardMaxSizeBytes).shrunk (hpolicy.trans hshrunk)
  | clear => exact ⟨_, rfl, h.shrunk (shrunk_clear h.cache)⟩

end ArcticPlatform.PinnedStaging
