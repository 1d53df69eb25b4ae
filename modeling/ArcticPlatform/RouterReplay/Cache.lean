import ArcticPlatform.Library.Dict
import ArcticPlatform.RouterReplay.Plan
import Mathlib.Data.Rat.Floor

/-!
# Router replay: caches

An embedding of `_RouterReplayCacheBase` and of its subclasses.  The RX cache is
the base class; the TX cache overrides what happens before an insert: it evicts
expired entries and then the least recently used ones, and it keeps tombstones of
exact replay ids that were discarded before they arrived.

Each operation gets the values of the clock it reads.  Times and the TX settings
are rational numbers.  The counters of `stats` and the log lines are left out.
-/

namespace ArcticPlatform.RouterReplay

open Dicts

/-- The settings of a TX cache. -/
structure TxSettings where
  ttlS : ℚ
  evictMinAgeS : ℚ
  lowWatermarkRatio : ℚ

/-- What a cache raises. -/
inductive CacheError where
  | keyError (key : String)
  | duplicate (ids : List String)
  | full (projected : Int) (maxBytes : Nat) (sampleId : String)
  deriving DecidableEq

/-- A cache of arrays; `tx` has the settings of a TX cache and is `none` for the base class and the
RX cache. -/
structure Cache (A : Type) where
  maxBytes : Nat
  tx : Option TxSettings
  data : Dict String A
  sizes : Dict String Nat
  createdAt : Dict String ℚ
  lastTouched : Dict String ℚ
  bytesInUse : Int
  tombstones : Dict String ℚ

namespace Cache

variable {A V : Type}

/-- An empty cache. -/
def init (maxBytes : Nat) (tx : Option TxSettings) : Cache A where
  maxBytes := maxBytes
  tx := tx
  data := .empty
  sizes := .empty
  createdAt := .empty
  lastTouched := .empty
  bytesInUse := 0
  tombstones := .empty

/-- `_data.pop(sid)` and `_remove_metadata_locked`, with the bytes that are freed. -/
def removeEntry (c : Cache A) (sid : String) : Cache A × Nat :=
  let removedBytes := (c.sizes.get? sid).getD 0
  ({ c with
      data := c.data.erase sid
      sizes := c.sizes.erase sid
      createdAt := c.createdAt.erase sid
      lastTouched := c.lastTouched.erase sid
      bytesInUse := c.bytesInUse - removedBytes }, removedBytes)

/-! ## Tombstones -/

/-- `_expire_tombstones_locked`. -/
def expireTombstones (tx : TxSettings) (now : ℚ) (c : Cache A) : Cache A :=
  if tx.ttlS ≤ 0 then c
  else { c with tombstones := c.tombstones.dropWhile fun p => ¬ now - p.2 < tx.ttlS }

/-- `_suppress_put_new_locked`. -/
def suppressPutNew (sampleId : String) (now : ℚ) (c : Cache A) : Bool × Cache A :=
  match c.tx with
  | none => (false, c)
  | some tx =>
    let c := c.expireTombstones tx now
    (isExactReplayId sampleId && (c.tombstones.get? sampleId).isSome, c)

/-! ## Evictions -/

/-- The loop over the expired ids. -/
def evictExpired : List String → Cache A × Int → Cache A × Int
  | [], s => s
  | sid :: rest, (c, projected) =>
    if (c.data.get? sid).isSome then
      evictExpired rest ((c.removeEntry sid).1, projected - (c.removeEntry sid).2)
    else evictExpired rest (c, projected)

/-- `expired`: the ids past their time to live, the one that is put apart. -/
def expiredIds (tx : TxSettings) (sampleId : String) (now : ℚ) (c : Cache A) : List String :=
  (c.createdAt.entries.filter fun p => p.1 ≠ sampleId ∧ now - p.2 ≥ tx.ttlS).map Prod.fst

/-- The loop over the candidates of `_evict_lru_locked`. -/
def lruLoop (tx : TxSettings) (now : ℚ) (targetBytes : Int) (respectMinAge : Bool) :
    List (ℚ × String) → Cache A × Int → Cache A × Int
  | [], s => s
  | (touchedAt, sid) :: rest, (c, projected) =>
    if projected ≤ targetBytes then (c, projected)
    else if respectMinAge && now - (c.createdAt.get? sid).getD touchedAt < tx.evictMinAgeS then
      lruLoop tx now targetBytes respectMinAge rest (c, projected)
    else
      lruLoop tx now targetBytes respectMinAge rest
        ((c.removeEntry sid).1, projected - (c.removeEntry sid).2)

/-- `candidates`: the ids but the one that is put, least recently touched first. -/
def lruCandidates (sampleId : String) (now : ℚ) (c : Cache A) : List (ℚ × String) :=
  ((c.data.keys.filter (· ≠ sampleId)).map fun sid =>
    ((c.lastTouched.get? sid).getD ((c.createdAt.get? sid).getD now), sid)).insertionSort
      fun a b => a.1 ≤ b.1

/-- `_evict_lru_locked`. -/
def evictLru (tx : TxSettings) (sampleId : String) (now : ℚ) (targetBytes : Int)
    (respectMinAge : Bool) (s : Cache A × Int) : Cache A × Int :=
  lruLoop tx now targetBytes respectMinAge (s.1.lruCandidates sampleId now) s

/-- The expired entries go first. -/
def evictTtl (tx : TxSettings) (sampleId : String) (now : ℚ) (s : Cache A × Int) : Cache A × Int :=
  if tx.ttlS > 0 then evictExpired (s.1.expiredIds tx sampleId now) s else s

/-- `int(max_bytes * low_watermark_ratio)`, at most `max_bytes`. -/
def lowWatermark (tx : TxSettings) (maxBytes : Nat) : Int :=
  min ⌊(maxBytes : ℚ) * tx.lowWatermarkRatio⌋ maxBytes

/-- `_evict_for_put_locked`: with an entry of a TX cache that would not fit, entries are evicted down
to the low watermark, the young ones apart, and then, if need be, the young ones too. -/
def evictForPut (sampleId : String) (now : ℚ) (s : Cache A × Int) : Cache A × Int :=
  match s.1.tx with
  | none => s
  | some tx =>
    let s₁ := evictTtl tx sampleId now s
    if s₁.2 ≤ s₁.1.maxBytes then s₁
    else
      let s₂ := evictLru tx sampleId now (lowWatermark tx s₁.1.maxBytes) true s₁
      if s₂.2 ≤ s₂.1.maxBytes then s₂
      else evictLru tx sampleId now s₂.1.maxBytes false s₂

/-! ## Operations -/

section Operations

variable (coerce : V → A) (nbytes : A → Nat)

/-- The entry is written and its bytes are counted. -/
def store (c : Cache A) (sampleId : String) (array : A) (now : ℚ) (projected : Int) : Cache A :=
  { c with
    createdAt := if (c.data.get? sampleId).isSome then c.createdAt else c.createdAt.set sampleId now
    data := c.data.set sampleId array
    sizes := c.sizes.set sampleId (nbytes array)
    lastTouched := c.lastTouched.set sampleId now
    bytesInUse := projected }

/-- The part of `_put` behind the checks of `put_new`. -/
def insertEntry (c : Cache A) (sampleId : String) (array : A) (now : ℚ) :
    Except CacheError Bool × Cache A :=
  let projected := c.bytesInUse - (c.sizes.get? sampleId).getD 0 + nbytes array
  let s := evictForPut sampleId now (c, projected)
  if s.2 > s.1.maxBytes then (.error (.full s.2 s.1.maxBytes sampleId), s.1)
  else (.ok true, s.1.store nbytes sampleId array now s.2)

/-- `put`; the result tells whether the array was stored. -/
def put (c : Cache A) (sampleId : String) (value : V) (now : ℚ) :
    Except CacheError Bool × Cache A := c.insertEntry nbytes sampleId (coerce value) now

/-- `put_new` of the base class. -/
def basePutNew (c : Cache A) (sampleId : String) (value : V) (now : ℚ) :
    Except CacheError Bool × Cache A :=
  match c.suppressPutNew sampleId now with
  | (true, c) => (.ok false, c)
  | (false, c) =>
    if (c.data.get? sampleId).isSome then (.error (.duplicate [sampleId]), c)
    else c.insertEntry nbytes sampleId (coerce value) now

/-- `put_new`: a TX cache looks at the tombstones of an exact replay id once more, before. -/
def putNew (c : Cache A) (sampleId : String) (value : V) (before now : ℚ) :
    Except CacheError Bool × Cache A :=
  if c.tx.isSome && isExactReplayId sampleId then
    match c.suppressPutNew sampleId before with
    | (true, c) => (.ok false, c)
    | (false, c) => c.basePutNew coerce nbytes sampleId value now
  else c.basePutNew coerce nbytes sampleId value now

end Operations

/-- `pop`. -/
def pop (c : Cache A) (sampleId : String) : Except CacheError A × Cache A :=
  match c.data.get? sampleId with
  | none => (.error (.keyError sampleId), c)
  | some array => (.ok array, (c.removeEntry sampleId).1)

/-- `get`. -/
def get (c : Cache A) (sampleId : String) (now : ℚ) : Except CacheError A × Cache A :=
  match c.data.get? sampleId with
  | none => (.error (.keyError sampleId), c)
  | some array => (.ok array, { c with lastTouched := c.lastTouched.set sampleId now })

/-- One id of `discard`: a TX cache remembers an exact replay id that is absent. -/
def discardOne (now : ℚ) (c : Cache A) (sid : String) : Cache A :=
  if (c.data.get? sid).isSome then (c.removeEntry sid).1
  else if c.tx.isSome && isExactReplayId sid then
    { c with tombstones := (c.tombstones.erase sid).set sid now }
  else c

/-- `discard`. -/
def discard (c : Cache A) (sampleIds : List String) (now : ℚ) : Cache A :=
  let c :=
    match c.tx with
    | none => c
    | some tx => c.expireTombstones tx now
  sampleIds.foldl (discardOne now) c

/-- `clear`. -/
def clear (c : Cache A) : Cache A :=
  { c with
    data := .empty
    sizes := .empty
    createdAt := .empty
    lastTouched := .empty
    tombstones := .empty
    bytesInUse := 0 }

/-- `snapshot` of a TX cache. -/
def snapshot (c : Cache A) (now : ℚ) : Dict String A × Cache A :=
  (c.data, { c with lastTouched := c.data.keys.foldl (fun t sid => t.set sid now) c.lastTouched })

end Cache

end ArcticPlatform.RouterReplay
