import ArcticPlatform.RouterReplay.CacheRuns

/-!
# Router replay: puts that fail

What is left of a cache after `RouterReplayCacheFull`.  The base class raises before it changes
anything.  A TX cache evicts first: an array larger than the whole cache is refused only when every
other entry has been evicted for it.

Main results:

- Theorem `insertEntry_large`: an array that is larger than the cache evicts all the others.
- Theorem `insertEntry_fits`: any other array is stored.
- Theorem `failed_put_keeps_iff`: when a failed put leaves the cache as it was.
-/

namespace ArcticPlatform.RouterReplay

open Dicts List Option

namespace Cache

variable {A V : Type} {nbytes : A → Nat} {c c₀ : Cache A} {sampleId : String} {new : Nat}
variable {s : Cache A × Int} {tx : TxSettings} {now : ℚ}

/-- If the call raises `RouterReplayCacheFull`, the entries, the sizes and the counter are those
before the call. -/
def KeepsWhenFull (c : Cache A) (r : Except CacheError Bool × Cache A) : Prop :=
  ∀ projected maxBytes sid, r.1 = .error (.full projected maxBytes sid) →
    r.2.data = c.data ∧ r.2.sizes = c.sizes ∧ r.2.bytesInUse = c.bytesInUse

/-! ## Bytes -/

theorem size_le_bytesInUse (hc : c.Consistent nbytes) (sid : String) :
    (((c.sizes.get? sid).getD 0 : Nat) : Int) ≤ c.bytesInUse := by
  have htotal := c.sizes.total_erase id sid
  have hbytes := hc.bytes
  simp only [Option.map_id_fun, id_eq] at htotal
  omega

variable {sid : String}

theorem bytesInUse_of_alone (hc : c.Consistent nbytes)
    (halone : ∀ other, other ≠ sid → c.data.get? other = none) :
    c.bytesInUse = (c.sizes.get? sid).getD 0 := by
  have htotal := c.sizes.total_erase id sid
  have hbytes := hc.bytes
  have hempty : (c.sizes.erase sid).entries = [] := by
    apply eq_nil_iff_forall_not_mem.mpr
    intro p hp
    have hget := (c.sizes.erase sid).get?_eq_some.mpr hp
    rw [Dict.get?_erase] at hget
    split_ifs at hget with heq
    rw [hc.sizes, halone p.1 heq] at hget
    cases hget
  have hzero : (c.sizes.erase sid).total id = 0 := by
    rw [Dict.total, hempty]
    rfl
  simp only [Option.map_id_fun, id_eq] at htotal
  omega

/-! ## Evictions -/

theorem get?_removeEntry_none {sid sid' : String} (h : c.data.get? sid' = none) :
    (c.removeEntry sid).1.data.get? sid' = none := by
  simp only [removeEntry, Dict.get?_erase]
  split_ifs
  · rfl
  · exact h

theorem lruLoop_none {target : Int} {respectMinAge : Bool} (candidates : List (ℚ × String))
    (h : s.1.data.get? sid = none) :
    (lruLoop tx now target respectMinAge candidates s).1.data.get? sid = none := by
  induction candidates generalizing s with
  | nil => exact h
  | cons p rest ih =>
    rw [lruLoop]
    split_ifs
    · exact h
    · exact ih h
    · exact ih (get?_removeEntry_none h)

theorem lruLoop_exhausts (tx : TxSettings) (now : ℚ) (target : Int)
    (candidates : List (ℚ × String)) (s : Cache A × Int) :
    (lruLoop tx now target false candidates s).2 ≤ target ∨
      ∀ p ∈ candidates, (lruLoop tx now target false candidates s).1.data.get? p.2 = none := by
  induction candidates generalizing s with
  | nil => exact .inr fun p hp => absurd hp not_mem_nil
  | cons p rest ih =>
    rw [lruLoop]
    simp only [Bool.false_and, Bool.false_eq_true, if_false]
    split_ifs with hroom
    · exact .inl hroom
    · rcases ih ((s.1.removeEntry p.2).1, s.2 - (s.1.removeEntry p.2).2) with hroom | hgone
      · exact .inl hroom
      · refine .inr fun q hq => ?_
        rcases mem_cons.mp hq with rfl | hq
        · apply lruLoop_none
          simp [removeEntry]
        · exact hgone q hq

theorem mem_lruCandidates (now : ℚ) (hsid : sid ≠ sampleId) (hpresent : (c.data.get? sid).isSome) :
    ∃ p ∈ c.lruCandidates sampleId now, p.2 = sid := by
  refine ⟨_, (mem_insertionSort _).mpr (List.mem_map_of_mem (mem_filter.mpr
    ⟨c.data.mem_keys.mpr hpresent, by simpa using hsid⟩)), rfl⟩

theorem evictLru_exhausts (tx : TxSettings) (sampleId : String) (now : ℚ) (target : Int)
    (s : Cache A × Int) :
    (evictLru tx sampleId now target false s).2 ≤ target ∨ ∀ sid, sid ≠ sampleId →
        (evictLru tx sampleId now target false s).1.data.get? sid = none := by
  unfold evictLru
  rcases lruLoop_exhausts tx now target (s.1.lruCandidates sampleId now) s with hroom | hgone
  · exact .inl hroom
  · refine .inr fun sid hsid => ?_
    cases hget : s.1.data.get? sid with
    | none => exact lruLoop_none _ hget
    | some a =>
      obtain ⟨p, hp, rfl⟩ := mem_lruCandidates now hsid (by rw [hget]; rfl)
      exact hgone p hp

theorem evictForPut_exhausts (htx : s.1.tx = some tx) (hs : Evicts nbytes c₀ sampleId new s)
    (now : ℚ) : (evictForPut sampleId now s).2 ≤ c₀.maxBytes ∨
      ∀ sid, sid ≠ sampleId → (evictForPut sampleId now s).1.data.get? sid = none := by
  unfold evictForPut
  rw [htx]
  have h₁ := evicts_evictTtl hs tx now
  dsimp only
  split_ifs with hroom₁ hroom₂
  · exact .inl (h₁.maxBytes ▸ hroom₁)
  · have h₂ := evicts_evictLru h₁ tx now
      (lowWatermark tx (evictTtl tx sampleId now s).1.maxBytes) true
    exact .inl (h₂.maxBytes ▸ hroom₂)
  · have h₂ := evicts_evictLru h₁ tx now
      (lowWatermark tx (evictTtl tx sampleId now s).1.maxBytes) true
    rw [h₂.maxBytes]
    exact evictLru_exhausts tx sampleId now c₀.maxBytes _

theorem evictForPut_of_alone (hc : c.Consistent nbytes)
    (halone : ∀ other, other ≠ sampleId → c.data.get? other = none) (now : ℚ) (projected : Int) :
    evictForPut sampleId now (c, projected) = (c, projected) := by
  have hexpired : ∀ tx, c.expiredIds tx sampleId now = [] := by
    intro tx
    rw [expiredIds, map_eq_nil_iff, filter_eq_nil_iff]
    intro p hp hold
    simp only [decide_eq_true_eq] at hold
    have hcreated := hc.created p.1
    rw [c.createdAt.get?_eq_some.mpr hp, halone p.1 hold.1] at hcreated
    cases hcreated
  have hcandidates : c.lruCandidates sampleId now = [] := by
    have hnone : c.data.keys.filter (· ≠ sampleId) = [] := by
      apply filter_eq_nil_iff.mpr
      intro sid hsid hne
      have hpresent := c.data.mem_keys.mp hsid
      rw [halone sid (by simpa using hne)] at hpresent
      cases hpresent
    rw [lruCandidates, hnone]
    rfl
  have hlru : ∀ tx target respectMinAge,
      evictLru tx sampleId now target respectMinAge (c, projected) = (c, projected) := by
    intro tx target respectMinAge
    rw [evictLru, hcandidates, lruLoop]
  unfold evictForPut
  split
  · rfl
  · rename_i tx _
    have httl : evictTtl tx sampleId now (c, projected) = (c, projected) := by
      rw [evictTtl, hexpired, evictExpired, ite_self]
    simp only [httl, hlru, ite_self]

/-! ## Inserts -/

variable {array : A}

/-- An array that is larger than the cache is refused, and every other entry has been evicted. -/
theorem insertEntry_large (hc : c.Consistent nbytes) (htx : c.tx = some tx)
    (hlarge : c.maxBytes < nbytes array) (sampleId : String) (now : ℚ) :
    (∃ projected, (c.insertEntry nbytes sampleId array now).1 =
      .error (.full projected c.maxBytes sampleId)) ∧ ∀ sid, sid ≠ sampleId →
      (c.insertEntry nbytes sampleId array now).2.data.get? sid = none := by
  have hstart := evicts_start hc sampleId (nbytes array)
  have hs := evicts_evictForPut hstart now
  have hroom := evictForPut_exhausts htx hstart now
  have hsize := size_le_bytesInUse hs.consistent sampleId
  have hprojected := hs.projected
  unfold insertEntry
  dsimp only
  rw [hs.maxBytes, if_pos (by omega)]
  refine ⟨⟨_, rfl⟩, ?_⟩
  rcases hroom with hroom | hgone
  · omega
  · exact hgone

/-- An array that is not larger than the cache is stored. -/
theorem insertEntry_fits (hc : c.Consistent nbytes) (htx : c.tx = some tx)
    (hfits : nbytes array ≤ c.maxBytes) (sampleId : String) (now : ℚ) :
    (c.insertEntry nbytes sampleId array now).1 = .ok true := by
  have hstart := evicts_start hc sampleId (nbytes array)
  have hs := evicts_evictForPut hstart now
  have hprojected := hs.projected
  have hroom : (evictForPut sampleId now
      (c, c.bytesInUse - (c.sizes.get? sampleId).getD 0 + nbytes array)).2 ≤ c.maxBytes := by
    rcases evictForPut_exhausts htx hstart now with hroom | hgone
    · exact hroom
    · have halone := bytesInUse_of_alone hs.consistent hgone
      omega
  unfold insertEntry
  dsimp only
  rw [hs.maxBytes, if_neg (not_lt.mpr hroom)]

theorem insertEntry_unchanged
    (hnone : evictForPut sampleId now (c, c.bytesInUse - (c.sizes.get? sampleId).getD 0 +
      nbytes array) = (c, c.bytesInUse - (c.sizes.get? sampleId).getD 0 + nbytes array))
    {projected : Int} {maxBytes : Nat}
    (hfull : (c.insertEntry nbytes sampleId array now).1 = .error (.full projected maxBytes sid)) :
    (c.insertEntry nbytes sampleId array now).2.data = c.data ∧
      (c.insertEntry nbytes sampleId array now).2.sizes = c.sizes ∧
      (c.insertEntry nbytes sampleId array now).2.bytesInUse = c.bytesInUse := by
  unfold insertEntry at hfull ⊢
  dsimp only at hfull ⊢
  rw [hnone] at hfull ⊢
  split_ifs at hfull ⊢
  exact ⟨rfl, rfl, rfl⟩

theorem insertEntry_keeps_iff (hc : c.Consistent nbytes) (sampleId : String) (array : A) (now : ℚ) :
    KeepsWhenFull c (c.insertEntry nbytes sampleId array now) ↔
      c.tx = none ∨ nbytes array ≤ c.maxBytes ∨ ∀ sid ∈ c.data.keys, sid = sampleId := by
  have halone_iff : (∀ sid ∈ c.data.keys, sid = sampleId) ↔
      ∀ sid, sid ≠ sampleId → c.data.get? sid = none := by
    simp only [Dict.get?_eq_none]
    exact forall_congr' fun sid => not_imp_not.symm
  rw [halone_iff]
  constructor
  · intro hkeeps
    by_contra hnot
    push Not at hnot
    obtain ⟨htx, hlarge, sid, hsid, hpresent⟩ := hnot
    obtain ⟨tx, htx⟩ := ne_none_iff_exists'.mp htx
    obtain ⟨⟨projected, hfull⟩, hgone⟩ := insertEntry_large hc htx hlarge sampleId now
    rw [← (hkeeps _ _ _ hfull).1] at hpresent
    exact hpresent (hgone sid hsid)
  · rintro hcondition projected maxBytes sid hfull
    cases htx : c.tx with
    | none =>
      refine insertEntry_unchanged ?_ hfull
      rw [evictForPut]
      simp only [htx]
    | some tx =>
      rcases hcondition with hnone | hfits | halone
      · rw [htx] at hnone
        cases hnone
      · rw [insertEntry_fits hc htx hfits] at hfull
        cases hfull
      · exact insertEntry_unchanged (evictForPut_of_alone hc halone now _) hfull

/-! ## Inserts of new ids -/

theorem suppressPutNew_same (c : Cache A) (sampleId : String) (now : ℚ) :
    (c.suppressPutNew sampleId now).2.data = c.data ∧
      (c.suppressPutNew sampleId now).2.sizes = c.sizes ∧
      (c.suppressPutNew sampleId now).2.bytesInUse = c.bytesInUse ∧
      (c.suppressPutNew sampleId now).2.maxBytes = c.maxBytes ∧
      (c.suppressPutNew sampleId now).2.tx = c.tx := by
  unfold suppressPutNew
  split
  · exact ⟨rfl, rfl, rfl, rfl, rfl⟩
  · unfold expireTombstones
    dsimp only
    split
    · exact ⟨rfl, rfl, rfl, rfl, rfl⟩
    · exact ⟨rfl, rfl, rfl, rfl, rfl⟩

theorem consistent_suppressPutNew (hc : c.Consistent nbytes) (sampleId : String) (now : ℚ) :
    (c.suppressPutNew sampleId now).2.Consistent nbytes := by
  unfold suppressPutNew
  split
  · exact hc
  · exact consistent_expireTombstones hc _ now

theorem get?_dropWhile_none {d : Dict String ℚ} {p : String × ℚ → Bool} (h : d.get? sid = none) :
    (d.dropWhile p).get? sid = none := by
  cases hget : (d.dropWhile p).get? sid with
  | none => rfl
  | some t =>
    have hmem := (d.dropWhile p).get?_eq_some.mp hget
    have hold := d.get?_eq_some.mpr ((dropWhile_sublist p).mem hmem)
    rw [h] at hold
    cases hold

theorem suppressPutNew_again (h : (c.suppressPutNew sampleId now).1 = false) (now' : ℚ) :
    ((c.suppressPutNew sampleId now).2.suppressPutNew sampleId now').1 = false := by
  unfold suppressPutNew at h ⊢
  cases htx : c.tx with
  | none => simp only [htx]
  | some tx =>
    have htx' : (c.expireTombstones tx now).tx = some tx := by
      unfold expireTombstones
      split
      · exact htx
      · exact htx
    simp only [htx, htx'] at h ⊢
    by_cases hexact : isExactReplayId sampleId = true
    · rw [hexact, Bool.true_and] at h ⊢
      have hnone := isSome_eq_false_iff.mp h
      rw [isNone_iff_eq_none] at hnone
      rw [isSome_eq_false_iff, isNone_iff_eq_none]
      generalize c.expireTombstones tx now = c' at hnone
      unfold expireTombstones
      split
      · exact hnone
      · exact get?_dropWhile_none hnone
    · rw [Bool.not_eq_true] at hexact
      rw [hexact, Bool.false_and]

theorem suppressPutNew_not_exact (h : ¬(c.tx.isSome && isExactReplayId sampleId) = true) (now : ℚ) :
    (c.suppressPutNew sampleId now).1 = false := by
  unfold suppressPutNew
  split
  · rfl
  · rename_i tx htx
    simp only [htx, isSome_some, Bool.true_and, Bool.not_eq_true] at h
    simp only [h, Bool.false_and]

theorem keepsWhenFull_suppressPutNew (sampleId : String) (now : ℚ)
    (r : Except CacheError Bool × Cache A) :
    KeepsWhenFull (c.suppressPutNew sampleId now).2 r ↔ KeepsWhenFull c r := by
  obtain ⟨hdata, hsizes, hbytes, -, -⟩ := suppressPutNew_same c sampleId now
  unfold KeepsWhenFull
  rw [hdata, hsizes, hbytes]

theorem keepsWhenFull_of_ok {b : Bool} {c' : Cache A} : KeepsWhenFull c (.ok b, c') :=
  fun _ _ _ h => nomatch h

theorem basePutNew_keeps_iff (coerce : V → A) (hc : c.Consistent nbytes) (sampleId : String)
    (value : V) (now : ℚ) : KeepsWhenFull c (c.basePutNew coerce nbytes sampleId value now) ↔
      c.tx = none ∨ nbytes (coerce value) ≤ c.maxBytes ∨ c.data.keys = [] ∨
        sampleId ∈ c.data.keys ∨ (c.suppressPutNew sampleId now).1 = true := by
  have hconsistent := consistent_suppressPutNew hc sampleId now
  have hsame := keepsWhenFull_suppressPutNew (c := c) sampleId now
  obtain ⟨hdata, -, -, hmax, htx⟩ := suppressPutNew_same c sampleId now
  unfold basePutNew
  split <;> rename_i c' hsuppress <;> rw [hsuppress] at hconsistent hsame hdata hmax htx ⊢
  · exact iff_of_true keepsWhenFull_of_ok (by simp)
  · by_cases hpresent : sampleId ∈ c.data.keys
    · have hget := c.data.mem_keys.mp hpresent
      rw [← hdata] at hget
      rw [if_pos hget]
      exact iff_of_true (fun _ _ _ h => nomatch h) (by simp [hpresent])
    · have hget : ¬(c'.data.get? sampleId).isSome = true := by
        rw [hdata, ← Dict.mem_keys]
        exact hpresent
      rw [if_neg hget, ← hsame, insertEntry_keeps_iff hconsistent, hdata, hmax, htx]
      -- Only an empty cache has no other id, for the id is absent.
      have hempty : (∀ sid ∈ c.data.keys, sid = sampleId) ↔ c.data.keys = [] := by
        rw [eq_nil_iff_forall_not_mem]
        constructor
        · intro hall sid hsid
          exact hpresent (hall sid hsid ▸ hsid)
        · exact fun hnone sid hsid => absurd hsid (hnone sid)
      simp [hempty, hpresent]

theorem putNew_keeps_iff (coerce : V → A) (hc : c.Consistent nbytes) (sampleId : String)
    (value : V) (before now : ℚ) :
    KeepsWhenFull c (c.putNew coerce nbytes sampleId value before now) ↔
      c.tx = none ∨ nbytes (coerce value) ≤ c.maxBytes ∨ c.data.keys = [] ∨
        sampleId ∈ c.data.keys ∨ (c.suppressPutNew sampleId before).1 = true := by
  unfold putNew
  split_ifs with hexact
  · have hconsistent := consistent_suppressPutNew hc sampleId before
    have hsame := keepsWhenFull_suppressPutNew (c := c) sampleId before
    obtain ⟨hdata, -, -, hmax, htx⟩ := suppressPutNew_same c sampleId before
    split <;> rename_i c' hsuppress <;> rw [hsuppress] at hconsistent hsame hdata hmax htx ⊢
    · exact iff_of_true keepsWhenFull_of_ok (by simp)
    · have hagain := suppressPutNew_again (by rw [hsuppress]) now
      rw [hsuppress] at hagain
      rw [← hsame, basePutNew_keeps_iff coerce hconsistent, hdata, hmax, htx, hagain]
  · -- An id that is not exact, or a cache without tombstones.
    rw [basePutNew_keeps_iff coerce hc, suppressPutNew_not_exact hexact,
      suppressPutNew_not_exact hexact]

/-- After every trace of calls, a put that fails leaves the entries, the sizes and the counter as
they were, exactly when the cache is no TX cache, the array is not larger than the cache, there is no
entry to evict, or the put does not come to the evictions. -/
theorem failed_put_keeps_iff (coerce : V → A) (nbytes : A → Nat) (maxBytes : Nat)
    (tx : Option TxSettings) (ops : List (Op V)) (sampleId : String) (value : V) :
    let c := (Traced.run coerce nbytes maxBytes tx ops).cache
    (∀ now, KeepsWhenFull c (c.put coerce nbytes sampleId value now) ↔
      c.tx = none ∨ nbytes (coerce value) ≤ c.maxBytes ∨ ∀ sid ∈ c.data.keys, sid = sampleId) ∧
    ∀ before now, KeepsWhenFull c (c.putNew coerce nbytes sampleId value before now) ↔
      c.tx = none ∨ nbytes (coerce value) ≤ c.maxBytes ∨ c.data.keys = [] ∨
        sampleId ∈ c.data.keys ∨ (c.suppressPutNew sampleId before).1 = true := by
  intro c
  have hc := (books_run coerce nbytes maxBytes tx ops).consistent
  constructor
  · exact fun now => insertEntry_keeps_iff hc sampleId (coerce value) now
  · exact fun before now => putNew_keeps_iff coerce hc sampleId value before now

/-- The put of an array that is larger than a TX cache empties it. -/
theorem failed_put_evicts :
    let c := (Traced.run (fun n : Nat => n) (fun n => n) 8 (some ⟨86400, 120, 17 / 20⟩)
      [.put "a" 4 0]).cache
    let r := c.put (fun n : Nat => n) (fun n => n) "b" 9 1
    c.data.keys = ["a"] ∧ c.bytesInUse = 4 ∧ r.1 = .error (.full 9 8 "b") ∧ r.2.data.keys = [] ∧
      r.2.bytesInUse = 0 := by
  decide +kernel

end Cache

end ArcticPlatform.RouterReplay
