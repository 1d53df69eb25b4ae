import ArcticPlatform.RouterReplay.Cache

/-!
# Router replay: the books of a cache

A cache keeps an array, its size and two times for each id in four dictionaries,
and the sum of the sizes in a counter.  The dictionaries and the counter agree
after every trace of operations, whatever the clock says.

Main results:

- Theorem `evicts_evictForPut`: what an eviction leaves of the books.
- Theorem `insertEntry_cases`: what a put can do.
- Theorem `run_keeps_books`: the books agree after every trace.
-/

namespace ArcticPlatform.RouterReplay

open Dicts List

namespace Cache

variable {A V : Type} {nbytes : A → Nat} {c c₀ : Cache A}

/-! ## Books that agree -/

/-- The four dictionaries have the same ids, the sizes are those of the arrays, and the counter is
their sum. -/
structure Consistent (nbytes : A → Nat) (c : Cache A) : Prop where
  sizes : ∀ sid, c.sizes.get? sid = (c.data.get? sid).map nbytes
  created : ∀ sid, (c.createdAt.get? sid).isSome = (c.data.get? sid).isSome
  touched : ∀ sid, (c.lastTouched.get? sid).isSome = (c.data.get? sid).isSome
  bytes : c.bytesInUse = c.sizes.total id

theorem consistent_init (maxBytes : Nat) (tx : Option TxSettings) :
    (init maxBytes tx : Cache A).Consistent nbytes := by
  constructor <;> simp [init]

theorem consistent_clear (c : Cache A) : c.clear.Consistent nbytes := by
  constructor <;> simp [clear]

theorem consistent_expireTombstones (hc : c.Consistent nbytes) (tx : TxSettings) (now : ℚ) :
    (c.expireTombstones tx now).Consistent nbytes := by
  unfold expireTombstones
  split
  · exact hc
  · exact ⟨hc.sizes, hc.created, hc.touched, hc.bytes⟩

theorem consistent_removeEntry (hc : c.Consistent nbytes) (sid : String) :
    (c.removeEntry sid).1.Consistent nbytes := by
  constructor
  case sizes =>
    intro x
    by_cases hx : x = sid
    · simp [removeEntry, hx]
    · simp [removeEntry, hx, hc.sizes x]
  case created =>
    intro x
    by_cases hx : x = sid
    · simp [removeEntry, hx]
    · simp [removeEntry, hx, hc.created x]
  case touched =>
    intro x
    by_cases hx : x = sid
    · simp [removeEntry, hx]
    · simp [removeEntry, hx, hc.touched x]
  case bytes =>
    have htotal := c.sizes.total_erase id sid
    have hbytes := hc.bytes
    simp only [Option.map_id_fun, id_eq] at htotal
    simp only [removeEntry]
    omega

/-! ## Evictions -/

/-- What a run of evictions has left of the books of `c₀`, on the way to an entry of `new` bytes for
`sampleId`. -/
structure Evicts (nbytes : A → Nat) (c₀ : Cache A) (sampleId : String) (new : Nat)
    (s : Cache A × Int) : Prop where
  consistent : s.1.Consistent nbytes
  projected : s.2 = s.1.bytesInUse - (s.1.sizes.get? sampleId).getD 0 + new
  subset : ∀ sid a, s.1.data.get? sid = some a → c₀.data.get? sid = some a
  maxBytes : s.1.maxBytes = c₀.maxBytes
  bytes_le : s.1.bytesInUse ≤ c₀.bytesInUse

variable {sampleId : String} {new : Nat} {s : Cache A × Int}

theorem evicts_removeEntry (hs : Evicts nbytes c₀ sampleId new s) {sid : String}
    (hsid : sid ≠ sampleId) :
    Evicts nbytes c₀ sampleId new ((s.1.removeEntry sid).1, s.2 - (s.1.removeEntry sid).2) := by
  constructor
  case consistent => exact consistent_removeEntry hs.consistent sid
  case projected =>
    have hprojected := hs.projected
    simp only [removeEntry, Dict.get?_erase_ne _ (Ne.symm hsid)]
    omega
  case subset =>
    intro x a hx
    apply hs.subset
    simp only [removeEntry, Dict.get?_erase] at hx
    split at hx
    · cases hx
    · exact hx
  case maxBytes => exact hs.maxBytes
  case bytes_le =>
    have hle := hs.bytes_le
    simp only [removeEntry]
    omega

theorem evicts_evictExpired {ids : List String} (hids : ∀ sid ∈ ids, sid ≠ sampleId)
    (hs : Evicts nbytes c₀ sampleId new s) : Evicts nbytes c₀ sampleId new (evictExpired ids s) := by
  induction ids generalizing s with
  | nil => exact hs
  | cons sid rest ih =>
    have hrest : ∀ x ∈ rest, x ≠ sampleId := fun x hx => hids x (mem_cons_of_mem _ hx)
    rw [evictExpired]
    split
    · exact ih hrest (evicts_removeEntry hs (hids sid mem_cons_self))
    · exact ih hrest hs

theorem evicts_evictTtl (hs : Evicts nbytes c₀ sampleId new s) (tx : TxSettings) (now : ℚ) :
    Evicts nbytes c₀ sampleId new (evictTtl tx sampleId now s) := by
  unfold evictTtl
  split
  · apply evicts_evictExpired _ hs
    intro sid hsid
    obtain ⟨p, hp, rfl⟩ := mem_map.mp hsid
    have := (mem_filter.mp hp).2
    simp only [decide_eq_true_eq] at this
    exact this.1
  · exact hs

theorem evicts_lruLoop {tx : TxSettings} {now : ℚ} {target : Int} {respectMinAge : Bool}
    {candidates : List (ℚ × String)} (hcandidates : ∀ p ∈ candidates, p.2 ≠ sampleId)
    (hs : Evicts nbytes c₀ sampleId new s) :
    Evicts nbytes c₀ sampleId new (lruLoop tx now target respectMinAge candidates s) := by
  induction candidates generalizing s with
  | nil => exact hs
  | cons p rest ih =>
    have hrest : ∀ x ∈ rest, x.2 ≠ sampleId := fun x hx => hcandidates x (mem_cons_of_mem _ hx)
    rw [lruLoop]
    split
    · exact hs
    · split
      · exact ih hrest hs
      · exact ih hrest (evicts_removeEntry hs (hcandidates p mem_cons_self))

theorem evicts_evictLru (hs : Evicts nbytes c₀ sampleId new s) (tx : TxSettings) (now : ℚ)
    (target : Int) (respectMinAge : Bool) :
    Evicts nbytes c₀ sampleId new (evictLru tx sampleId now target respectMinAge s) := by
  apply evicts_lruLoop _ hs
  intro p hp
  have hp := (mem_insertionSort _).mp hp
  obtain ⟨sid, hsid, rfl⟩ := mem_map.mp hp
  simpa using (mem_filter.mp hsid).2

/-- The evictions before an insert. -/
theorem evicts_evictForPut (hs : Evicts nbytes c₀ sampleId new s) (now : ℚ) :
    Evicts nbytes c₀ sampleId new (evictForPut sampleId now s) := by
  unfold evictForPut
  split
  · exact hs
  · rename_i tx _
    have h₁ := evicts_evictTtl hs tx now
    dsimp only
    split
    · exact h₁
    · have h₂ := evicts_evictLru h₁ tx now
        (lowWatermark tx (evictTtl tx sampleId now s).1.maxBytes) true
      split
      · exact h₂
      · exact evicts_evictLru h₂ tx now _ false

/-! ## What a put can do -/

theorem evicts_start (hc : c.Consistent nbytes) (sampleId : String) (new : Nat) :
    Evicts nbytes c sampleId new
      (c, c.bytesInUse - (c.sizes.get? sampleId).getD 0 + new) where
  consistent := hc
  projected := rfl
  subset := fun _ _ h => h
  maxBytes := rfl
  bytes_le := le_refl _

theorem consistent_store {array : A} (hs : Evicts nbytes c₀ sampleId (nbytes array) s) (now : ℚ) :
    (s.1.store nbytes sampleId array now s.2).Consistent nbytes := by
  have hc := hs.consistent
  constructor
  case sizes =>
    intro x
    by_cases hx : x = sampleId
    · simp [store, hx]
    · simp [store, hx, hc.sizes x]
  case created =>
    intro x
    simp only [store]
    by_cases hx : x = sampleId
    · subst hx
      split
      · rename_i hpresent
        rw [hc.created, hpresent]
        simp
      · simp
    · split
      · simp [hx, hc.created x]
      · simp [hx, hc.created x]
  case touched =>
    intro x
    by_cases hx : x = sampleId
    · simp [store, hx]
    · simp [store, hx, hc.touched x]
  case bytes =>
    have htotal := s.1.sizes.total_set id sampleId (nbytes array)
    have hbytes := hc.bytes
    have hprojected := hs.projected
    simp only [Option.map_id_fun, id_eq] at htotal
    simp only [store]
    omega

/-- An insert stores the array behind evictions, or raises behind evictions. -/
theorem insertEntry_cases {array : A} {now : ℚ} {r : Except CacheError Bool} {c' : Cache A}
    (hc : c.Consistent nbytes) (h : c.insertEntry nbytes sampleId array now = (r, c')) :
    ∃ s, Evicts nbytes c sampleId (nbytes array) s ∧
      ((s.2 > c.maxBytes ∧ r = .error (.full s.2 c.maxBytes sampleId) ∧ c' = s.1) ∨
        (s.2 ≤ c.maxBytes ∧ r = .ok true ∧ c' = s.1.store nbytes sampleId array now s.2)) := by
  have hs := evicts_evictForPut (evicts_start hc sampleId (nbytes array)) now
  refine ⟨_, hs, ?_⟩
  simp only [insertEntry] at h
  rw [hs.maxBytes] at h
  split at h
  · rename_i hfull
    cases h
    exact .inl ⟨hfull, rfl, rfl⟩
  · rename_i hroom
    cases h
    exact .inr ⟨Int.not_lt.mp hroom, rfl, rfl⟩

/-! ## Traces -/

/-- A call of a cache, with what the clock says. -/
inductive Op (V : Type) where
  | put (sampleId : String) (value : V) (now : ℚ)
  | putNew (sampleId : String) (value : V) (before now : ℚ)
  | get (sampleId : String) (now : ℚ)
  | pop (sampleId : String)
  | discard (sampleIds : List String) (now : ℚ)
  | clear
  | snapshot (now : ℚ)

/-- A cache with a record of the last array that was stored under each id. -/
structure Traced (A : Type) where
  cache : Cache A
  last : String → Option A

/-- A new cache, under which nothing was stored. -/
def Traced.init (maxBytes : Nat) (tx : Option TxSettings) : Traced A :=
  ⟨.init maxBytes tx, fun _ => none⟩

/-- Record the outcome of a put. -/
def Traced.afterPut (t : Traced A) (sampleId : String) (array : A)
    (r : Except CacheError Bool × Cache A) : Traced A :=
  match r with
  | (.ok true, c) => ⟨c, Function.update t.last sampleId (some array)⟩
  | (_, c) => ⟨c, t.last⟩

section Traces

variable (coerce : V → A) (nbytes : A → Nat)

/-- One call. -/
def Traced.step (t : Traced A) : Op V → Traced A
  | .put sampleId value now =>
    t.afterPut sampleId (coerce value) (t.cache.put coerce nbytes sampleId value now)
  | .putNew sampleId value before now =>
    t.afterPut sampleId (coerce value) (t.cache.putNew coerce nbytes sampleId value before now)
  | .get sampleId now => { t with cache := (t.cache.get sampleId now).2 }
  | .pop sampleId => { t with cache := (t.cache.pop sampleId).2 }
  | .discard sampleIds now => { t with cache := t.cache.discard sampleIds now }
  | .clear => { t with cache := t.cache.clear }
  | .snapshot now => { t with cache := (t.cache.snapshot now).2 }

/-- A trace of calls from a new cache. -/
def Traced.run (maxBytes : Nat) (tx : Option TxSettings) (ops : List (Op V)) : Traced A :=
  ops.foldl (Traced.step coerce nbytes) (.init maxBytes tx)

end Traces

/-- The books agree, the bytes are within the limit, and a present id has the last array that was
stored under it. -/
structure Books (nbytes : A → Nat) (maxBytes : Nat) (c : Cache A) (last : String → Option A) :
    Prop where
  consistent : c.Consistent nbytes
  maxBytes_eq : c.maxBytes = maxBytes
  bytes_le : c.bytesInUse ≤ maxBytes
  held : ∀ sid a, c.data.get? sid = some a → last sid = some a

variable {maxBytes : Nat} {last : String → Option A}

section

variable (hc : Books nbytes maxBytes c last)
include hc

theorem Books.shrink {c' : Cache A}
    (hconsistent : c'.Consistent nbytes) (hmax : c'.maxBytes = c.maxBytes)
    (hbytes : c'.bytesInUse ≤ c.bytesInUse)
    (hsubset : ∀ sid a, c'.data.get? sid = some a → c.data.get? sid = some a) :
    Books nbytes maxBytes c' last where
  consistent := hconsistent
  maxBytes_eq := hmax.trans hc.maxBytes_eq
  bytes_le := le_trans hbytes hc.bytes_le
  held := fun sid a h => hc.held sid a (hsubset sid a h)

theorem books_expireTombstones (tx : TxSettings) (now : ℚ) :
    Books nbytes maxBytes (c.expireTombstones tx now) last := by
  apply hc.shrink (consistent_expireTombstones hc.consistent tx now)
  all_goals
    unfold expireTombstones
    split
  all_goals simp

theorem books_suppressPutNew (sampleId : String) (now : ℚ) :
    Books nbytes maxBytes (c.suppressPutNew sampleId now).2 last := by
  unfold suppressPutNew
  split
  · exact hc
  · exact books_expireTombstones hc _ now

theorem books_removeEntry (sid : String) : Books nbytes maxBytes (c.removeEntry sid).1 last := by
  apply hc.shrink (consistent_removeEntry hc.consistent sid) rfl
  · simp only [removeEntry]
    omega
  · intro x a hx
    simp only [removeEntry, Dict.get?_erase] at hx
    split at hx
    · cases hx
    · exact hx

/-- An insert keeps the books, with the array recorded where it was stored. -/
theorem books_insertEntry (sampleId : String) (array : A) (now : ℚ) :
    let t := (⟨c, last⟩ : Traced A).afterPut sampleId array
      (c.insertEntry nbytes sampleId array now)
    Books nbytes maxBytes t.cache t.last := by
  generalize hinsert : c.insertEntry nbytes sampleId array now = result
  obtain ⟨r, c'⟩ := result
  obtain ⟨s, hs, ⟨-, rfl, rfl⟩ | ⟨hroom, rfl, rfl⟩⟩ := insertEntry_cases hc.consistent hinsert
  · exact hc.shrink hs.consistent hs.maxBytes hs.bytes_le hs.subset
  · constructor
    case consistent => exact consistent_store hs now
    case maxBytes_eq => exact hs.maxBytes.trans hc.maxBytes_eq
    case bytes_le =>
      rw [hc.maxBytes_eq] at hroom
      exact hroom
    case held =>
      intro sid a ha
      simp only [Traced.afterPut, store, Dict.get?_set] at ha ⊢
      by_cases hsid : sid = sampleId
      · subst hsid
        simpa using ha
      · rw [if_neg hsid] at ha
        rw [Function.update_of_ne hsid]
        exact hc.held sid a (hs.subset sid a ha)

end

theorem books_basePutNew (coerce : V → A) (hc : Books nbytes maxBytes c last) (sampleId : String)
    (value : V) (now : ℚ) :
    let t := (⟨c, last⟩ : Traced A).afterPut sampleId (coerce value)
      (c.basePutNew coerce nbytes sampleId value now)
    Books nbytes maxBytes t.cache t.last := by
  have hsuppress := books_suppressPutNew hc sampleId now
  unfold basePutNew
  split <;> rename_i heq
  · rw [heq] at hsuppress
    exact hsuppress
  · rw [heq] at hsuppress
    split
    · exact hsuppress
    · exact books_insertEntry hsuppress sampleId (coerce value) now

theorem books_putNew (coerce : V → A) (hc : Books nbytes maxBytes c last) (sampleId : String)
    (value : V) (before now : ℚ) :
    let t := (⟨c, last⟩ : Traced A).afterPut sampleId (coerce value)
      (c.putNew coerce nbytes sampleId value before now)
    Books nbytes maxBytes t.cache t.last := by
  have hsuppress := books_suppressPutNew hc sampleId before
  unfold putNew
  split
  · split <;> rename_i heq
    · rw [heq] at hsuppress
      exact hsuppress
    · rw [heq] at hsuppress
      exact books_basePutNew coerce hsuppress sampleId value now
  · exact books_basePutNew coerce hc sampleId value now

theorem consistent_touch (hc : c.Consistent nbytes) (now : ℚ) {ids : List String}
    (hids : ∀ sid ∈ ids, (c.data.get? sid).isSome) :
    ({ c with lastTouched := ids.foldl (fun t sid => t.set sid now) c.lastTouched } :
      Cache A).Consistent nbytes := by
  refine ⟨hc.sizes, hc.created, ?_, hc.bytes⟩
  have htouched : ∀ (ids : List String) (t : Dict String ℚ),
      (∀ sid ∈ ids, (c.data.get? sid).isSome) →
      (∀ sid, (t.get? sid).isSome = (c.data.get? sid).isSome) →
      ∀ sid, ((ids.foldl (fun t sid => t.set sid now) t).get? sid).isSome =
        (c.data.get? sid).isSome := by
    intro ids
    induction ids with
    | nil => exact fun t _ ht => ht
    | cons x rest ih =>
      intro t hids ht
      apply ih
      · exact fun sid hsid => hids sid (mem_cons_of_mem _ hsid)
      · intro sid
        rw [Dict.get?_set]
        split
        · rename_i hx
          rw [hx, hids x mem_cons_self]
          rfl
        · exact ht sid
  exact htouched ids c.lastTouched hids hc.touched

section

variable (hc : Books nbytes maxBytes c last)
include hc

theorem books_get (sampleId : String) (now : ℚ) :
    Books nbytes maxBytes (c.get sampleId now).2 last := by
  unfold get
  split
  · exact hc
  · rename_i array harray
    have htouch : ∀ sid ∈ [sampleId], (c.data.get? sid).isSome := by
      intro sid hsid
      rw [mem_singleton.mp hsid, harray]
      rfl
    exact hc.shrink (consistent_touch hc.consistent now htouch) rfl (le_refl _) (fun _ _ h => h)

theorem books_snapshot (now : ℚ) : Books nbytes maxBytes (c.snapshot now).2 last := by
  have hkeys : ∀ sid ∈ c.data.keys, (c.data.get? sid).isSome := fun sid hsid =>
    c.data.mem_keys.mp hsid
  exact hc.shrink (consistent_touch hc.consistent now hkeys) rfl (le_refl _) (fun _ _ h => h)

theorem books_pop (sampleId : String) : Books nbytes maxBytes (c.pop sampleId).2 last := by
  unfold pop
  split
  · exact hc
  · exact books_removeEntry hc sampleId

theorem books_discardOne (now : ℚ) (sid : String) :
    Books nbytes maxBytes (c.discardOne now sid) last := by
  have hcons := hc.consistent
  unfold discardOne
  split
  · exact books_removeEntry hc sid
  · split
    · exact hc.shrink ⟨hcons.sizes, hcons.created, hcons.touched, hcons.bytes⟩ rfl (le_refl _)
        (fun _ _ h => h)
    · exact hc

theorem books_discard (sampleIds : List String) (now : ℚ) :
    Books nbytes maxBytes (c.discard sampleIds now) last := by
  have hloop : ∀ (ids : List String) (c : Cache A), Books nbytes maxBytes c last →
      Books nbytes maxBytes (ids.foldl (discardOne now) c) last := by
    intro ids
    induction ids with
    | nil => exact fun c hc => hc
    | cons sid rest ih => exact fun c hc => ih _ (books_discardOne hc now sid)
  unfold discard
  apply hloop
  split
  · exact hc
  · exact books_expireTombstones hc _ now

theorem books_clear : Books nbytes maxBytes c.clear last where
  consistent := consistent_clear c
  maxBytes_eq := hc.maxBytes_eq
  bytes_le := by simp [clear]
  held := by simp [clear]

end

/-- Every call keeps the books. -/
theorem books_step (coerce : V → A) {t : Traced A} (ht : Books nbytes maxBytes t.cache t.last)
    (op : Op V) :
    Books nbytes maxBytes (t.step coerce nbytes op).cache (t.step coerce nbytes op).last := by
  cases op with
  | put sampleId value now => exact books_insertEntry ht sampleId (coerce value) now
  | putNew sampleId value before now => exact books_putNew coerce ht sampleId value before now
  | get sampleId now => exact books_get ht sampleId now
  | pop sampleId => exact books_pop ht sampleId
  | discard sampleIds now => exact books_discard ht sampleIds now
  | clear => exact books_clear ht
  | snapshot now => exact books_snapshot ht now

/-- The books agree after every trace. -/
theorem books_run (coerce : V → A) (nbytes : A → Nat) (maxBytes : Nat) (tx : Option TxSettings)
    (ops : List (Op V)) :
    Books nbytes maxBytes (Traced.run coerce nbytes maxBytes tx ops).cache
      (Traced.run coerce nbytes maxBytes tx ops).last := by
  induction ops using List.reverseRecOn with
  | nil =>
    constructor
    case consistent => exact consistent_init maxBytes tx
    case maxBytes_eq => rfl
    case bytes_le => simp [Traced.run, Traced.init, init]
    case held => simp [Traced.run, Traced.init, init]
  | append_singleton ops op ih =>
    rw [Traced.run, foldl_append]
    exact books_step coerce ih op

/-- After every trace of calls on a base, RX or TX cache, with any clock: the four dictionaries have
the same keys, the counter is the sum of the sizes and within the limit, and each id present maps to
the last array stored under it. -/
theorem run_keeps_books (coerce : V → A) (nbytes : A → Nat) (maxBytes : Nat)
    (tx : Option TxSettings) (ops : List (Op V)) :
    let t := Traced.run coerce nbytes maxBytes tx ops
    let c := t.cache
    (∀ sid, (sid ∈ c.sizes.keys ↔ sid ∈ c.data.keys) ∧
      (sid ∈ c.createdAt.keys ↔ sid ∈ c.data.keys) ∧
      (sid ∈ c.lastTouched.keys ↔ sid ∈ c.data.keys)) ∧
    c.bytesInUse = (c.sizes.entries.map Prod.snd).sum ∧ c.bytesInUse ≤ maxBytes ∧
    ∀ sid array, c.data.get? sid = some array →
      t.last sid = some array ∧ c.sizes.get? sid = some (nbytes array) := by
  intro t c
  have hbooks := books_run coerce nbytes maxBytes tx ops
  have hc := hbooks.consistent
  refine ⟨?_, hc.bytes, hbooks.bytes_le, ?_⟩
  · intro sid
    simp only [Dict.mem_keys]
    refine ⟨?_, ?_, ?_⟩
    · rw [hc.sizes sid, Option.isSome_map]
    · rw [hc.created sid]
    · rw [hc.touched sid]
  · intro sid array harray
    refine ⟨hbooks.held sid array harray, ?_⟩
    rw [hc.sizes sid, harray]
    rfl

/-- There is no room for the third array. -/
example :
    let ops : List (Op (List Nat)) := [.put "a" [1, 2, 3] 0, .put "b" [4, 5] 1, .put "c" [6] 2]
    let c := (Traced.run id length 5 none ops).cache
    c.data.keys = ["a", "b"] ∧ c.bytesInUse = 5 := by decide

end Cache

end ArcticPlatform.RouterReplay
