import ArcticPlatform.Library.Runs
import ArcticPlatform.RouterReplay.FailedPuts
import Mathlib.Data.List.TakeWhile

/-!
# Router replay: discards and tombstones

What `discard` of a TX cache does with a list of ids.  An id that occurs twice is absent at
its second occurrence, and an exact replay id that is absent gets a tombstone.

Main results:

- Theorem `foldl_discardOne`: what the loop does to each id.
- Theorem `discard_by_set_iff`: when a discard depends on the set of the ids only.
- Theorem `putNew_suppressed_iff`: in runs with such discards, the ids suppressed are those that
  were discarded while they were absent.
-/

namespace ArcticPlatform.RouterReplay

open Dicts Runs List

/-- `discard_sample_ids` of `send`: the ids that a rank has sent to receivers that discard. -/
def sendDiscards (rank : Nat) (plan : List TransferOp) : List String :=
  (plan.filter fun op => op.senderRank = rank && op.discard).map (·.sampleId)

namespace Cache

variable {A V : Type} {c : Cache A} {now : ℚ}

/-! ## One discard -/

/-- The cache in which the loop of `discard` starts. -/
def expired (c : Cache A) (now : ℚ) : Cache A :=
  match c.tx with
  | none => c
  | some tx => c.expireTombstones tx now

/-- The discard leaves a tombstone of an id: it is absent, or it is so at its second occurrence. -/
def Marks (c : Cache A) (ids : List String) (x : String) : Prop :=
  c.tx.isSome ∧ isExactReplayId x ∧ x ∈ ids ∧ (c.data.get? x = none ∨ 1 < ids.count x)

instance (c : Cache A) (ids : List String) (x : String) : Decidable (Marks c ids x) :=
  decidable_of_iff (c.tx.isSome ∧ isExactReplayId x ∧ x ∈ ids ∧
    ((c.data.get? x).isNone ∨ 1 < ids.count x)) (by simp [Marks])

theorem discardOne_tx (c : Cache A) (y : String) : (discardOne now c y).tx = c.tx := by
  unfold discardOne
  split_ifs <;> rfl

theorem get?_data_discardOne (c : Cache A) (y x : String) :
    (discardOne now c y).data.get? x = if x = y then none else c.data.get? x := by
  have habsent : ¬(c.data.get? y).isSome = true →
      c.data.get? x = if x = y then none else c.data.get? x := by
    intro hnone
    by_cases hx : x = y
    · rw [if_pos hx, hx]
      simpa using hnone
    · rw [if_neg hx]
  unfold discardOne
  by_cases hpresent : (c.data.get? y).isSome = true
  · rw [if_pos hpresent]
    exact c.data.get?_erase y x
  · rw [if_neg hpresent]
    refine Eq.trans ?_ (habsent hpresent)
    cases (c.tx.isSome && isExactReplayId y) <;> rfl

theorem get?_tombstones_discardOne (c : Cache A) (y x : String) :
    (discardOne now c y).tombstones.get? x =
      if x = y ∧ c.data.get? y = none ∧ c.tx.isSome ∧ isExactReplayId y then some now
      else c.tombstones.get? x := by
  unfold discardOne
  by_cases hpresent : (c.data.get? y).isSome = true
  · have hsome : c.data.get? y ≠ none := by
      intro hnone
      rw [hnone] at hpresent
      cases hpresent
    simp [hpresent, hsome, removeEntry]
  · have hnone : c.data.get? y = none := by simpa using hpresent
    rw [if_neg hpresent]
    by_cases hexact : (c.tx.isSome && isExactReplayId y) = true
    · rw [if_pos hexact]
      rw [Bool.and_eq_true] at hexact
      dsimp only
      rw [Dict.get?_set, Dict.get?_erase]
      by_cases hx : x = y
      · simp [hx, hnone, hexact]
      · simp [hx]
    · rw [if_neg hexact]
      rw [Bool.and_eq_true] at hexact
      rw [if_neg fun h => hexact h.2.2]

variable (ids : List String)

/-- What the loop does to each id. -/
theorem foldl_discardOne (c : Cache A) (now : ℚ) (x : String) :
    (ids.foldl (discardOne now) c).data.get? x = (if x ∈ ids then none else c.data.get? x) ∧
      (ids.foldl (discardOne now) c).tombstones.get? x =
        if Marks c ids x then some now else c.tombstones.get? x := by
  induction ids generalizing c with
  | nil => simp [Marks]
  | cons y rest ih =>
    rw [foldl_cons]
    obtain ⟨hdata, htombstones⟩ := ih (discardOne now c y)
    rw [hdata, htombstones, get?_data_discardOne, get?_tombstones_discardOne]
    by_cases hx : x = y
    · subst hx
      have hcount : 1 < (x :: rest).count x ↔ x ∈ rest := by
        rw [count_cons_self, Nat.lt_add_left_iff_pos, count_pos_iff]
      simp only [Marks, discardOne_tx, get?_data_discardOne, hcount, mem_cons_self, if_true,
        true_and, true_or, and_true, ite_self]
      by_cases hexact : c.tx.isSome = true ∧ isExactReplayId x = true
      · by_cases hrest : x ∈ rest
        · simp [hexact, hrest]
        · simp [hexact, hrest]
      · have hnot : ∀ P : Prop, ¬(c.tx.isSome = true ∧ isExactReplayId x = true ∧ P) :=
          fun P h => hexact ⟨h.1, h.2.1⟩
        simp [hnot, hexact]
    · have hmarks : Marks (discardOne now c y) rest x ↔ Marks c (y :: rest) x := by
        simp only [Marks, discardOne_tx, get?_data_discardOne,
          count_cons_of_ne (Ne.symm hx), mem_cons, hx, false_or, if_false]
      simp only [hmarks, hx, false_and, if_false, mem_cons, false_or]
      simp

/-- A discard leaves the cache, in which the tombstones have expired, without its ids, and marks the
ids it has to. -/
theorem get?_discard (c : Cache A) (ids : List String) (now : ℚ) (x : String) :
    (c.discard ids now).data.get? x = (if x ∈ ids then none else c.data.get? x) ∧
      (c.discard ids now).tombstones.get? x =
        if Marks c ids x then some now else (c.expired now).tombstones.get? x := by
  have hsame : (c.expired now).data = c.data ∧ (c.expired now).tx = c.tx := by
    unfold expired
    split
    · exact ⟨rfl, rfl⟩
    · unfold expireTombstones
      split_ifs
      · exact ⟨rfl, rfl⟩
      · exact ⟨rfl, rfl⟩
  have hloop := foldl_discardOne ids (c.expired now) now x
  have hmarks : Marks (c.expired now) ids x ↔ Marks c ids x := by
    unfold Marks
    rw [hsame.1, hsame.2]
  rw [hsame.1] at hloop
  simp only [hmarks] at hloop
  exact hloop

/-- The entries and the tombstones after a discard are those after the discard of the same ids
without repetitions. -/
def DependsOnSet (c : Cache A) (ids : List String) (now : ℚ) : Prop :=
  ∀ x, (c.discard ids now).data.get? x = (c.discard ids.dedup now).data.get? x ∧
    (c.discard ids now).tombstones.get? x = (c.discard ids.dedup now).tombstones.get? x

/-- No id that is present gets a tombstone. -/
def SparesPresent (c : Cache A) (ids : List String) (now : ℚ) : Prop :=
  ∀ x, (c.data.get? x).isSome → (c.discard ids now).tombstones.get? x =
    (c.expired now).tombstones.get? x

/-- No exact replay id that is present occurs twice, unless it has a tombstone of this moment. -/
def NoneTwice (c : Cache A) (ids : List String) (now : ℚ) : Prop :=
  c.tx.isSome → ∀ x ∈ ids, isExactReplayId x → (c.data.get? x).isSome →
    (c.expired now).tombstones.get? x ≠ some now → ids.count x ≤ 1

variable {x : String}

theorem marks_dedup_iff {ids : List String} : Marks c ids.dedup x ↔
    c.tx.isSome ∧ isExactReplayId x ∧ x ∈ ids ∧ c.data.get? x = none := by
  have hcount : ¬1 < ids.dedup.count x := not_lt.mpr (nodup_iff_count_le_one.mp ids.nodup_dedup x)
  unfold Marks
  rw [mem_dedup]
  simp only [hcount, or_false]

theorem NoneTwice.marks {ids : List String} (h : NoneTwice c ids now) (hmarks : Marks c ids x)
    (hpresent : (c.data.get? x).isSome) : (c.expired now).tombstones.get? x = some now := by
  obtain ⟨htx, hexact, hmem, habsent | htwice⟩ := hmarks
  · rw [habsent] at hpresent
    cases hpresent
  · by_contra hnot
    exact absurd (h htx x hmem hexact hpresent hnot) (not_le.mpr htwice)

/-- A discard depends on the set of the ids, and spares the ids that are present, exactly when no
exact replay id that is present occurs twice. -/
theorem discard_by_set_iff (c : Cache A) (ids : List String) (now : ℚ) :
    DependsOnSet c ids now ∧ SparesPresent c ids now ↔ NoneTwice c ids now := by
  constructor
  · rintro ⟨-, hspares⟩ htx x hmem hexact hpresent hnot
    by_contra htwice
    have hmarks : Marks c ids x := ⟨htx, hexact, hmem, .inr (not_le.mp htwice)⟩
    have htombstone := hspares x hpresent
    rw [(get?_discard c ids now x).2, if_pos hmarks] at htombstone
    exact hnot htombstone.symm
  · intro h
    refine ⟨?_, ?_⟩
    · intro x
      obtain ⟨hdata, htombstones⟩ := get?_discard c ids now x
      obtain ⟨hdata', htombstones'⟩ := get?_discard c ids.dedup now x
      rw [hdata, hdata', htombstones, htombstones']
      refine ⟨by simp only [mem_dedup], ?_⟩
      cases hget : c.data.get? x with
      | none =>
        have hiff : Marks c ids x ↔ Marks c ids.dedup x := by
          rw [marks_dedup_iff]
          simp [Marks, hget]
        simp only [hiff]
      | some a =>
        have hnot : ¬Marks c ids.dedup x := by
          rw [marks_dedup_iff, hget]
          simp
        rw [if_neg hnot]
        split_ifs with hmarks
        · exact (h.marks hmarks (by rw [hget]; rfl)).symm
        · rfl
    · intro x hpresent
      rw [(get?_discard c ids now x).2]
      split_ifs with hmarks
      · exact (h.marks hmarks hpresent).symm
      · rfl

/-! ## The order of the tombstones -/

/-- The tombstones are in the order of their times, and none is later than a time. -/
def InOrder (d : Dict String ℚ) (time : ℚ) : Prop :=
  d.entries.Pairwise (·.2 ≤ ·.2) ∧ ∀ p ∈ d.entries, p.2 ≤ time

theorem InOrder.later {d : Dict String ℚ} {time time' : ℚ} (h : InOrder d time)
    (hle : time ≤ time') : InOrder d time' := ⟨h.1, fun p hp => le_trans (h.2 p hp) hle⟩

theorem InOrder.sublist {d d' : Dict String ℚ} {time : ℚ} (h : InOrder d time)
    (hsub : d'.entries.Sublist d.entries) : InOrder d' time :=
  ⟨h.1.sublist hsub, fun p hp => h.2 p (hsub.mem hp)⟩

theorem InOrder.renew {d : Dict String ℚ} (h : InOrder d now) (k : String) :
    InOrder ((d.erase k).set k now) now := by
  have hfresh : k ∉ (d.erase k).entries.map Prod.fst := fun hmem =>
    (d.mem_keys_erase.mp hmem).1 rfl
  have hentries : ((d.erase k).set k now).entries = (d.erase k).entries ++ [(k, now)] :=
    assign_of_not_mem hfresh
  have herased : InOrder (d.erase k) now := h.sublist (remove_sublist k d.entries)
  constructor
  · rw [hentries, pairwise_append]
    refine ⟨herased.1, pairwise_singleton _ _, ?_⟩
    intro p hp q hq
    rw [mem_singleton.mp hq]
    exact herased.2 p hp
  · intro p hp
    rw [hentries] at hp
    rcases mem_append.mp hp with hp | hp
    · exact herased.2 p hp
    · rw [mem_singleton.mp hp]

theorem inOrder_foldl_discardOne {c : Cache A} (h : InOrder c.tombstones now) :
    InOrder (ids.foldl (discardOne now) c).tombstones now := by
  induction ids generalizing c with
  | nil => exact h
  | cons y rest ih =>
    apply ih
    unfold discardOne
    split_ifs
    · exact h
    · exact h.renew y
    · exact h

theorem foldl_discardOne_tx (c : Cache A) (now : ℚ) : (ids.foldl (discardOne now) c).tx = c.tx := by
  induction ids generalizing c with
  | nil => rfl
  | cons y rest ih => exact (ih _).trans (discardOne_tx c y)

theorem InOrder.young {tx : TxSettings} {time t : ℚ} (h : InOrder c.tombstones time)
    (hpos : 0 < tx.ttlS) (hget : (c.expireTombstones tx now).tombstones.get? x = some t) :
    now - t < tx.ttlS := by
  have hyoung : ∀ l : List (String × ℚ), l.Pairwise (·.2 ≤ ·.2) →
      ∀ p ∈ l.dropWhile fun p => ¬now - p.2 < tx.ttlS, now - p.2 < tx.ttlS := by
    intro l
    induction l with
    | nil => exact fun _ p hp => nomatch hp
    | cons q rest ih =>
      intro hsorted p hp
      rw [pairwise_cons] at hsorted
      rw [dropWhile_cons] at hp
      split_ifs at hp with hold
      · exact ih hsorted.2 p hp
      · simp only [not_lt, decide_eq_true_eq, not_le] at hold
        rcases mem_cons.mp hp with rfl | hp
        · exact hold
        · have hle := hsorted.1 p hp
          linarith
  unfold expireTombstones at hget
  rw [if_neg (not_le.mpr hpos)] at hget
  exact hyoung c.tombstones.entries h.1 (x, t) ((Dict.get?_eq_some _).mp hget)

/-! ## Runs -/

/-- A cache with the time at which each id was last discarded while absent since the last `clear`,
and the time of the last call. -/
structure Watched (A : Type) where
  cache : Cache A
  discardedAbsent : String → Option ℚ
  clock : ℚ

/-- A new cache. -/
def Watched.init (maxBytes : Nat) (tx : TxSettings) (start : ℚ) : Watched A :=
  ⟨.init maxBytes (some tx), fun _ => none, start⟩

section Watch

variable (coerce : V → A) (nbytes : A → Nat)

/-- One call. -/
def Watched.step (w : Watched A) : Op V → Option (Watched A)
  | .put sampleId value now =>
    some { w with cache := (w.cache.put coerce nbytes sampleId value now).2, clock := now }
  | .putNew sampleId value before now =>
    some { w with
      cache := (w.cache.putNew coerce nbytes sampleId value before now).2
      clock := now }
  | .get sampleId now => some { w with cache := (w.cache.get sampleId now).2, clock := now }
  | .pop sampleId => some { w with cache := (w.cache.pop sampleId).2 }
  | .discard sampleIds now => some
    { cache := w.cache.discard sampleIds now
      discardedAbsent := fun x =>
        if x ∈ sampleIds ∧ w.cache.data.get? x = none then some now else w.discardedAbsent x
      clock := now }
  | .clear => some { w with cache := w.cache.clear, discardedAbsent := fun _ => none }
  | .snapshot now => some { w with cache := (w.cache.snapshot now).2, clock := now }

end Watch

/-- The clock does not go back, and no discard has an exact replay id twice that is present. -/
def Steady (w : Watched A) : Op V → Prop
  | .put _ _ now => w.clock ≤ now
  | .putNew _ _ before now => w.clock ≤ before ∧ before ≤ now
  | .get _ now => w.clock ≤ now
  | .pop _ => True
  | .discard ids now => w.clock ≤ now ∧ NoneTwice w.cache ids now
  | .clear => True
  | .snapshot now => w.clock ≤ now

instance (c : Cache A) (ids : List String) (now : ℚ) : Decidable (NoneTwice c ids now) :=
  inferInstanceAs (Decidable (_ → ∀ x ∈ ids, _))

instance (w : Watched A) (op : Op V) : Decidable (Steady w op) :=
  match op with
  | .put _ _ now => inferInstanceAs (Decidable (w.clock ≤ now))
  | .putNew _ _ before now => inferInstanceAs (Decidable (w.clock ≤ before ∧ before ≤ now))
  | .get _ now => inferInstanceAs (Decidable (w.clock ≤ now))
  | .pop _ => inferInstanceAs (Decidable True)
  | .discard ids now => inferInstanceAs (Decidable (w.clock ≤ now ∧ NoneTwice w.cache ids now))
  | .clear => inferInstanceAs (Decidable True)
  | .snapshot now => inferInstanceAs (Decidable (w.clock ≤ now))

/-- The tombstones are those of the ids that were discarded while absent, apart from old ones, and
they are in the order of their times. -/
structure Remembered (tx : TxSettings) (w : Watched A) : Prop where
  tx_eq : w.cache.tx = some tx
  inOrder : InOrder w.cache.tombstones w.clock
  absent : ∀ x t, w.cache.tombstones.get? x = some t →
    isExactReplayId x ∧ w.discardedAbsent x = some t
  kept : ∀ x t, isExactReplayId x → w.discardedAbsent x = some t →
    w.cache.tombstones.get? x = some t ∨ 0 < tx.ttlS ∧ tx.ttlS ≤ w.clock - t

/-! ## Expiry -/

/-- Tombstones have expired up to a time. -/
structure ExpiredUpTo (tx : TxSettings) (time : ℚ) (d d' : Dict String ℚ) : Prop where
  sublist : d'.entries.Sublist d.entries
  kept : ∀ x t, d.get? x = some t → d'.get? x = some t ∨ 0 < tx.ttlS ∧ tx.ttlS ≤ time - t

section Expiry

variable {tx : TxSettings} {time time' : ℚ} {d d' d'' : Dict String ℚ}

theorem ExpiredUpTo.refl (tx : TxSettings) (time : ℚ) (d : Dict String ℚ) :
    ExpiredUpTo tx time d d := ⟨List.Sublist.refl _, fun _ _ h => .inl h⟩

theorem ExpiredUpTo.trans (h : ExpiredUpTo tx time d d') (h' : ExpiredUpTo tx time' d' d'')
    (hle : time ≤ time') : ExpiredUpTo tx time' d d'' := by
  refine ⟨h'.sublist.trans h.sublist, ?_⟩
  intro x t hget
  rcases h.kept x t hget with hkept | ⟨hpos, hold⟩
  · exact h'.kept x t hkept
  · exact .inr ⟨hpos, by linarith⟩

theorem ExpiredUpTo.get? (h : ExpiredUpTo tx time d d') {x : String} {t : ℚ}
    (hget : d'.get? x = some t) : d.get? x = some t :=
  d.get?_eq_some.mpr (h.sublist.mem (d'.get?_eq_some.mp hget))

theorem expiredUpTo_expireTombstones (tx : TxSettings) (c : Cache A) (now : ℚ) :
    ExpiredUpTo tx now c.tombstones (c.expireTombstones tx now).tombstones := by
  unfold expireTombstones
  split_ifs with hoff
  · exact ExpiredUpTo.refl tx now _
  · refine ⟨dropWhile_sublist _, ?_⟩
    intro x t hget
    -- An entry is kept, or it is dropped because it is old.
    have hmem := c.tombstones.get?_eq_some.mp hget
    rw [← takeWhile_append_dropWhile (p := fun p : String × ℚ => ¬now - p.2 < tx.ttlS)
      (l := c.tombstones.entries)] at hmem
    rcases mem_append.mp hmem with hgone | hkept
    · have hold := mem_takeWhile_imp hgone
      simp only [not_lt, decide_eq_true_eq] at hold
      exact .inr ⟨not_le.mp hoff, hold⟩
    · exact .inl ((Dict.get?_eq_some _).mpr hkept)

theorem expireTombstones_tx (tx : TxSettings) (c : Cache A) (now : ℚ) :
    (c.expireTombstones tx now).tx = c.tx := by
  unfold expireTombstones
  split_ifs <;> rfl

theorem expiredUpTo_suppressPutNew (htx : c.tx = some tx) (sampleId : String) (now : ℚ) :
    ExpiredUpTo tx now c.tombstones (c.suppressPutNew sampleId now).2.tombstones := by
  unfold suppressPutNew
  rw [htx]
  exact expiredUpTo_expireTombstones tx c now

end Expiry

/-! ## Inserts leave the tombstones -/

theorem evictExpired_same (s : Cache A × Int) :
    (evictExpired ids s).1.tombstones = s.1.tombstones ∧ (evictExpired ids s).1.tx = s.1.tx := by
  induction ids generalizing s with
  | nil => exact ⟨rfl, rfl⟩
  | cons sid rest ih =>
    rw [evictExpired]
    split
    · exact ih _
    · exact ih _

theorem lruLoop_same (tx : TxSettings) (target : Int) (respectMinAge : Bool)
    (candidates : List (ℚ × String)) (s : Cache A × Int) :
    (lruLoop tx now target respectMinAge candidates s).1.tombstones = s.1.tombstones ∧
      (lruLoop tx now target respectMinAge candidates s).1.tx = s.1.tx := by
  induction candidates generalizing s with
  | nil => exact ⟨rfl, rfl⟩
  | cons p rest ih =>
    rw [lruLoop]
    split_ifs
    · exact ⟨rfl, rfl⟩
    · exact ih _
    · exact ih _

theorem evictForPut_same (sampleId : String) (now : ℚ) (s : Cache A × Int) :
    (evictForPut sampleId now s).1.tombstones = s.1.tombstones ∧
      (evictForPut sampleId now s).1.tx = s.1.tx := by
  have httl : ∀ tx, (evictTtl tx sampleId now s).1.tombstones = s.1.tombstones ∧
      (evictTtl tx sampleId now s).1.tx = s.1.tx := by
    intro tx
    unfold evictTtl
    split_ifs
    · exact evictExpired_same _ s
    · exact ⟨rfl, rfl⟩
  have hlru : ∀ tx target respectMinAge s', (evictLru tx sampleId now target respectMinAge
      s').1.tombstones = (s' : Cache A × Int).1.tombstones ∧
      (evictLru tx sampleId now target respectMinAge s').1.tx = s'.1.tx :=
    fun tx target respectMinAge s' => lruLoop_same tx target respectMinAge _ s'
  unfold evictForPut
  split
  · exact ⟨rfl, rfl⟩
  · rename_i tx _
    dsimp only
    split_ifs
    · exact httl tx
    · rw [(hlru _ _ _ _).1, (hlru _ _ _ _).2]
      exact httl tx
    · rw [(hlru _ _ _ _).1, (hlru _ _ _ _).2, (hlru _ _ _ _).1, (hlru _ _ _ _).2]
      exact httl tx

theorem insertEntry_same (nbytes : A → Nat) (c : Cache A) (sampleId : String) (array : A) (now : ℚ) :
    (c.insertEntry nbytes sampleId array now).2.tombstones = c.tombstones ∧
      (c.insertEntry nbytes sampleId array now).2.tx = c.tx := by
  unfold insertEntry
  dsimp only
  split_ifs
  · exact evictForPut_same sampleId now _
  · exact evictForPut_same sampleId now _

/-! ## What a call keeps -/

section Remember

variable {tx : TxSettings} {w : Watched A} {coerce : V → A} {nbytes : A → Nat}

theorem Remembered.expire (hw : Remembered tx w) {c' : Cache A} (htx : c'.tx = w.cache.tx)
    (hexpired : ExpiredUpTo tx now w.cache.tombstones c'.tombstones) (hclock : w.clock ≤ now) :
    Remembered tx { w with cache := c', clock := now } := by
  constructor
  case tx_eq => exact htx.trans hw.tx_eq
  case inOrder => exact (hw.inOrder.later hclock).sublist hexpired.sublist
  case absent => exact fun x t hget => hw.absent x t (hexpired.get? hget)
  case kept =>
    intro x t hexact habsent
    rcases hw.kept x t hexact habsent with hget | ⟨hpos, hold⟩
    · exact hexpired.kept x t hget
    · refine .inr ⟨hpos, ?_⟩
      dsimp only
      linarith

theorem Remembered.frame (hw : Remembered tx w) {c' : Cache A} (htx : c'.tx = w.cache.tx)
    (hsame : c'.tombstones = w.cache.tombstones) (hclock : w.clock ≤ now) :
    Remembered tx { w with cache := c', clock := now } := by
  apply hw.expire htx _ hclock
  rw [hsame]
  exact ExpiredUpTo.refl tx now _

theorem expiredUpTo_basePutNew (coerce : V → A) (nbytes : A → Nat) (htx : c.tx = some tx)
    (sampleId : String) (value : V) (now : ℚ) :
    ExpiredUpTo tx now c.tombstones (c.basePutNew coerce nbytes sampleId value now).2.tombstones ∧
      (c.basePutNew coerce nbytes sampleId value now).2.tx = c.tx := by
  have hexpired := expiredUpTo_suppressPutNew htx sampleId now
  obtain ⟨-, -, -, -, hsame⟩ := suppressPutNew_same c sampleId now
  unfold basePutNew
  split <;> rename_i c' hsuppress <;> rw [hsuppress] at hexpired hsame
  · exact ⟨hexpired, hsame⟩
  · split_ifs
    · exact ⟨hexpired, hsame⟩
    · obtain ⟨htombstones, htx'⟩ := insertEntry_same nbytes c' sampleId (coerce value) now
      rw [htombstones, htx']
      exact ⟨hexpired, hsame⟩

theorem expiredUpTo_putNew (coerce : V → A) (nbytes : A → Nat) (htx : c.tx = some tx)
    (sampleId : String) (value : V) {before : ℚ} (hle : before ≤ now) :
    ExpiredUpTo tx now c.tombstones
      (c.putNew coerce nbytes sampleId value before now).2.tombstones ∧
      (c.putNew coerce nbytes sampleId value before now).2.tx = c.tx := by
  unfold putNew
  split_ifs
  · have hexpired := expiredUpTo_suppressPutNew htx sampleId before
    obtain ⟨-, -, -, -, hsame⟩ := suppressPutNew_same c sampleId before
    split <;> rename_i c' hsuppress <;> rw [hsuppress] at hexpired hsame
    · exact ⟨hexpired.trans (ExpiredUpTo.refl tx now _) hle, hsame⟩
    · obtain ⟨hbase, htx'⟩ :=
        expiredUpTo_basePutNew coerce nbytes (hsame.trans htx) sampleId value now
      exact ⟨hexpired.trans hbase hle, htx'.trans hsame⟩
  · exact expiredUpTo_basePutNew coerce nbytes htx sampleId value now

theorem Remembered.discard (hw : Remembered tx w) {ids : List String} (hclock : w.clock ≤ now)
    (hids : NoneTwice w.cache ids now) :
    Remembered tx
      { cache := w.cache.discard ids now
        discardedAbsent := fun x =>
          if x ∈ ids ∧ w.cache.data.get? x = none then some now else w.discardedAbsent x
        clock := now } := by
  have hexpired := hw.expire (expireTombstones_tx tx w.cache now)
    (expiredUpTo_expireTombstones tx w.cache now) hclock
  have hstart : w.cache.expired now = w.cache.expireTombstones tx now := by
    unfold expired
    rw [hw.tx_eq]
  have hmarked : ∀ x, isExactReplayId x → x ∈ ids → w.cache.data.get? x = none →
      Marks w.cache ids x := by
    intro x hexact hmem hnone
    refine ⟨?_, hexact, hmem, .inl hnone⟩
    rw [hw.tx_eq]
    rfl
  constructor
  case tx_eq =>
    change (w.cache.discard ids now).tx = some tx
    have hloop : w.cache.discard ids now = ids.foldl (discardOne now) (w.cache.expired now) := rfl
    rw [hloop, foldl_discardOne_tx, hstart]
    exact hexpired.tx_eq
  case inOrder =>
    change InOrder (w.cache.discard ids now).tombstones now
    have hloop : w.cache.discard ids now = ids.foldl (discardOne now) (w.cache.expired now) := rfl
    rw [hloop]
    apply inOrder_foldl_discardOne
    rw [hstart]
    exact hexpired.inOrder
  case absent =>
    intro x t hget
    dsimp only at hget ⊢
    rw [(get?_discard w.cache ids now x).2, hstart] at hget
    split_ifs at hget with hmarks
    · cases hget
      refine ⟨hmarks.2.1, ?_⟩
      by_cases hnone : w.cache.data.get? x = none
      · rw [if_pos ⟨hmarks.2.2.1, hnone⟩]
      · rw [if_neg fun h => hnone h.2]
        -- A present id is marked only if its tombstone is of this moment.
        have hnow := hids.marks hmarks (Option.isSome_iff_ne_none.mpr hnone)
        rw [hstart] at hnow
        exact (hexpired.absent x now hnow).2
    · obtain ⟨hexact, habsent⟩ := hexpired.absent x t hget
      refine ⟨hexact, ?_⟩
      rw [if_neg fun h => hmarks (hmarked x hexact h.1 h.2)]
      exact habsent
  case kept =>
    intro x t hexact habsent
    dsimp only at habsent ⊢
    rw [(get?_discard w.cache ids now x).2, hstart]
    by_cases hnew : x ∈ ids ∧ w.cache.data.get? x = none
    · rw [if_pos hnew] at habsent
      rw [if_pos (hmarked x hexact hnew.1 hnew.2)]
      exact .inl habsent
    · rw [if_neg hnew] at habsent
      have hkept := hexpired.kept x t hexact habsent
      split_ifs with hmarks
      · have hpresent : w.cache.data.get? x ≠ none := fun hnone => hnew ⟨hmarks.2.2.1, hnone⟩
        have hnow := hids.marks hmarks (Option.isSome_iff_ne_none.mpr hpresent)
        rw [hstart] at hnow
        have heq := (hexpired.absent x now hnow).2
        dsimp only at heq
        rw [habsent] at heq
        exact .inl heq.symm
      · exact hkept

/-- Every call keeps what is remembered. -/
theorem Remembered.step (hw : Remembered tx w) {op : Op V} (hok : Steady w op) {w' : Watched A}
    (hstep : w.step coerce nbytes op = some w') : Remembered tx w' := by
  cases op with
  | put sampleId value now =>
    cases hstep
    obtain ⟨hsame, htx⟩ := insertEntry_same nbytes w.cache sampleId (coerce value) now
    exact hw.frame htx hsame hok
  | putNew sampleId value before now =>
    cases hstep
    obtain ⟨hexpired, htx⟩ := expiredUpTo_putNew coerce nbytes hw.tx_eq sampleId value hok.2
    exact hw.expire htx hexpired (le_trans hok.1 hok.2)
  | get sampleId now =>
    cases hstep
    have hsame : (w.cache.get sampleId now).2.tx = w.cache.tx ∧
        (w.cache.get sampleId now).2.tombstones = w.cache.tombstones := by
      unfold Cache.get
      split
      · exact ⟨rfl, rfl⟩
      · exact ⟨rfl, rfl⟩
    exact hw.frame hsame.1 hsame.2 hok
  | pop sampleId =>
    cases hstep
    have hsame : (w.cache.pop sampleId).2.tx = w.cache.tx ∧
        (w.cache.pop sampleId).2.tombstones = w.cache.tombstones := by
      unfold Cache.pop
      split
      · exact ⟨rfl, rfl⟩
      · exact ⟨rfl, rfl⟩
    exact hw.frame hsame.1 hsame.2 (le_refl _)
  | discard ids now =>
    cases hstep
    exact hw.discard hok.1 hok.2
  | clear =>
    cases hstep
    constructor
    case tx_eq => exact hw.tx_eq
    case inOrder => exact ⟨List.Pairwise.nil, fun p hp => nomatch hp⟩
    case absent => exact fun x t hget => nomatch hget
    case kept => exact fun x t _ habsent => nomatch habsent
  | snapshot now =>
    cases hstep
    exact hw.frame rfl rfl hok

theorem remembered_init (maxBytes : Nat) (tx : TxSettings) (start : ℚ) :
    Remembered tx (Watched.init maxBytes tx start : Watched A) := by
  constructor
  case tx_eq => rfl
  case inOrder => exact ⟨List.Pairwise.nil, fun p hp => nomatch hp⟩
  case absent => exact fun x t hget => nomatch hget
  case kept => exact fun x t _ habsent => nomatch habsent

/-! ## Suppression -/

theorem Remembered.suppressed_iff (hw : Remembered tx w) (hclock : w.clock ≤ now) (x : String) :
    (w.cache.suppressPutNew x now).1 = true ↔ isExactReplayId x ∧
      ∃ t, w.discardedAbsent x = some t ∧ (tx.ttlS ≤ 0 ∨ now - t < tx.ttlS) := by
  have hexpired := hw.expire (expireTombstones_tx tx w.cache now)
    (expiredUpTo_expireTombstones tx w.cache now) hclock
  unfold suppressPutNew
  rw [hw.tx_eq]
  rw [Bool.and_eq_true, Option.isSome_iff_exists]
  refine and_congr_right fun hexact => ?_
  constructor
  · rintro ⟨t, hget⟩
    refine ⟨t, (hexpired.absent x t hget).2, ?_⟩
    rcases le_or_gt tx.ttlS 0 with hoff | hpos
    · exact .inl hoff
    · exact .inr (hw.inOrder.young hpos hget)
  · rintro ⟨t, habsent, hyoung⟩
    rcases hexpired.kept x t hexact habsent with hget | ⟨hpos, hold⟩
    · exact ⟨t, hget⟩
    · dsimp only at hold
      rcases hyoung with hoff | hyoung
      · exact absurd hpos (not_lt.mpr hoff)
      · exact absurd hyoung (not_lt.mpr hold)

theorem insertEntry_ne_false (nbytes : A → Nat) (c : Cache A) (sampleId : String) (array : A)
    (now : ℚ) : (c.insertEntry nbytes sampleId array now).1 ≠ .ok false := by
  unfold insertEntry
  dsimp only
  split_ifs
  · exact fun h => nomatch h
  · exact fun h => nomatch h

theorem basePutNew_suppressed_iff (coerce : V → A) (nbytes : A → Nat) (c : Cache A)
    (sampleId : String) (value : V) (now : ℚ) :
    (c.basePutNew coerce nbytes sampleId value now).1 = .ok false ↔
      (c.suppressPutNew sampleId now).1 = true := by
  unfold basePutNew
  split <;> rename_i c' hsuppress <;> rw [hsuppress]
  · exact iff_of_true rfl rfl
  · split_ifs
    · exact iff_of_false (fun h => nomatch h) (fun h => nomatch h)
    · exact iff_of_false (insertEntry_ne_false nbytes c' sampleId _ now) (fun h => nomatch h)

theorem putNew_suppressed (coerce : V → A) (nbytes : A → Nat) (c : Cache A) (sampleId : String)
    (value : V) (before now : ℚ) :
    (c.putNew coerce nbytes sampleId value before now).1 = .ok false ↔
      (c.suppressPutNew sampleId before).1 = true := by
  unfold putNew
  split_ifs with hexact
  · split <;> rename_i c' hsuppress
    · rw [hsuppress]
      exact iff_of_true rfl rfl
    · have hagain := suppressPutNew_again (by rw [hsuppress]) now
      rw [basePutNew_suppressed_iff, hsuppress]
      rw [hsuppress] at hagain
      rw [hagain]
  · rw [basePutNew_suppressed_iff, suppressPutNew_not_exact hexact, suppressPutNew_not_exact hexact]

end Remember

/-- A discard depends on the set of the ids, and spares those that are present, exactly when no exact
replay id that is present occurs twice without a tombstone of this moment.  In runs with such discards
a `put_new` is suppressed exactly for the exact ids that were discarded while absent, since the last
`clear` and within the time to live. -/
theorem putNew_suppressed_iff (coerce : V → A) (nbytes : A → Nat) (maxBytes : Nat)
    (tx : TxSettings) (start : ℚ) :
    (∀ (c : Cache A) ids now,
      DependsOnSet c ids now ∧ SparesPresent c ids now ↔ NoneTwice c ids now) ∧
    ∀ w, Reaches (Watched.step coerce nbytes) Steady (Watched.init maxBytes tx start) w →
      ∀ sampleId value before now, w.clock ≤ before →
      ((w.cache.putNew coerce nbytes sampleId value before now).1 = .ok false ↔
        isExactReplayId sampleId ∧ ∃ t, w.discardedAbsent sampleId = some t ∧
          (tx.ttlS ≤ 0 ∨ before - t < tx.ttlS)) := by
  refine ⟨discard_by_set_iff, ?_⟩
  intro w hw sampleId value before now hclock
  have hremembered : Remembered tx w := by
    apply hw.invariant (remembered_init maxBytes tx start)
    exact fun s a s' hs hok hstep => hs.step hok hstep
  rw [putNew_suppressed]
  exact hremembered.suppressed_iff hclock sampleId

/-- The settings of a TX cache without overrides. -/
def defaultTx : TxSettings := ⟨86400, 120, 17 / 20⟩

/-- An insert that arrives late is suppressed. -/
theorem putNew_suppressed_iff_late : ∃ w : Watched Nat,
    w.discardedAbsent "rr1:a" = some 2 ∧
      (w.cache.putNew (fun n : Nat => n) (fun n => n) "rr1:a" 4 5 5).1 = .ok false := by
  obtain ⟨w, hw, hclock, habsent⟩ : ∃ w, Reaches (Watched.step (fun n : Nat => n) fun n => n) Steady
      (Watched.init 8 defaultTx 0) w ∧ w.clock ≤ 5 ∧ w.discardedAbsent "rr1:a" = some 2 :=
    exists_reaches [.put "b" 4 1, .discard ["rr1:a", "b", "rr1:a", "b"] 2] (by decide +kernel)
  refine ⟨w, habsent, ?_⟩
  have hiff := (putNew_suppressed_iff (fun n : Nat => n) (fun n => n) 8 defaultTx 0).2 w hw "rr1:a" 4
    5 5 hclock
  exact hiff.mpr ⟨by decide, 2, habsent, .inr (by norm_num [defaultTx])⟩

/-- Two receivers that discard the id they need, and its sender. -/
def sharedNeed : List PerRankManifest :=
  [{ role := .receiver, rank := 0, needed := ["rr1:a"] },
    { role := .receiver, rank := 1, needed := ["rr1:a"] },
    { role := .sender, rank := 2, held := ["rr1:a"], shapes := fun _ => some [4] }]

/-- The discard after an exchange suppresses the next insert of an id that was present and went to two
receivers; a discard of the same id once does not. -/
theorem sharedNeed_suppresses :
    let coerce := fun n : Nat => n
    let c := (Traced.run coerce coerce 8 (some defaultTx) [.put "rr1:a" 4 0]).cache
    ∃ plan missing, computePlan sharedNeed = .ok (plan, missing) ∧ let ids := sendDiscards 2 plan
      (c.data.get? "rr1:a").isSome ∧ ids = ["rr1:a", "rr1:a"] ∧
      ((c.discard ids 1).putNew coerce coerce "rr1:a" 4 2 2).1 = .ok false ∧
      ((c.discard ids.dedup 1).putNew coerce coerce "rr1:a" 4 2 2).1 = .ok true := by
  intro coerce c
  refine ⟨[⟨2, 0, "rr1:a", [4], true, .uint8, none⟩, ⟨2, 1, "rr1:a", [4], true, .uint8, none⟩], ∅,
    rfl, ?_⟩
  decide +kernel

end Cache

end ArcticPlatform.RouterReplay
