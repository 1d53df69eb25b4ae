import Mathlib.Data.List.Chain
import Mathlib.Data.List.TakeDrop
import Mathlib.Data.List.TakeWhile
import Mathlib.Data.List.GetD
import Mathlib.Order.Lattice

/-!
# The history of a concurrency limit

An embedding of `ConcurrencyHistory` of `inference/server/metrics.py`.  A record
of an unchanged limit is skipped, and a record of a new one evicts every sample that is
older than the retention window, also the one in force at the window's start.

Time stamps are values of any linear order; a retention gives the cutoff of each moment.

Main results:

- Theorem `run_eq`: the samples kept are the changes of the limit from the cutoff of the
  last change on.
- Theorem `atTimestamp_eq_iff`: an answer is the limit in force exactly when the change
  that set this limit has not been evicted.
-/

namespace ArcticPlatform.Metrics

open List

/-- `retention_s`: the moment from which on samples are kept. -/
structure Retention (τ : Type) [LinearOrder τ] where
  /-- `now - self._retention_s` -/
  cutoff : τ → τ
  mono : Monotone cutoff
  le : ∀ now, cutoff now ≤ now

/-- A retention of whole seconds. -/
def Retention.seconds (n : Nat) : Retention Int where
  cutoff now := now - n
  mono _ _ h := Int.sub_le_sub_right h n
  le now := Int.sub_le_self now (Int.natCast_nonneg n)

/-- `ConcurrencyHistory`. -/
structure ConcurrencyHistory (τ : Type) where
  times : List τ
  limits : List Int

namespace ConcurrencyHistory

variable {τ : Type} [LinearOrder τ]

/-- `__init__`. -/
def empty : ConcurrencyHistory τ := ⟨[], []⟩

/-- `bisect.bisect_left` on a sorted list. -/
def bisectLeft (xs : List τ) (x : τ) : Nat := (xs.takeWhile (· < x)).length

/-- `bisect.bisect_right` on a sorted list. -/
def bisectRight (xs : List τ) (x : τ) : Nat := (xs.takeWhile (· ≤ x)).length

/-- `_evict_old`. -/
def evictOld (retention : Retention τ) (h : ConcurrencyHistory τ) (now : τ) :
    ConcurrencyHistory τ :=
  let i := bisectLeft h.times (retention.cutoff now)
  if 0 < i then ⟨h.times.drop i, h.limits.drop i⟩ else h

/-- `record`, at the time `now`. -/
def record (retention : Retention τ) (h : ConcurrencyHistory τ) (now : τ) (limit : Int) :
    ConcurrencyHistory τ :=
  if h.limits.getLast? = some limit then h
  else evictOld retention ⟨h.times ++ [now], h.limits ++ [limit]⟩ now

/-- `at`. -/
def atTimestamp (h : ConcurrencyHistory τ) (timestamp : τ) : Int :=
  if h.times = [] then 0
  else
    let i := bisectRight h.times timestamp
    if i = 0 then h.limits.getD 0 0 else h.limits.getD (i - 1) 0

/-- The history after calls of `record`, each with its time. -/
def run (retention : Retention τ) (records : List (τ × Int)) : ConcurrencyHistory τ :=
  records.foldl (fun h r => record retention h r.1 r.2) empty

end ConcurrencyHistory

/-! ## What the history is about -/

section Spec

variable {τ : Type}

/-- Add a record unless its limit is the last one. -/
def addChange (changes : List (τ × Int)) (r : τ × Int) : List (τ × Int) :=
  if changes.getLast?.map Prod.snd = some r.2 then changes else changes ++ [r]

/-- The records that changed the limit. -/
def changes (records : List (τ × Int)) : List (τ × Int) :=
  records.foldl addChange []

variable (records : List (τ × Int))

theorem changes_snoc (r : τ × Int) : changes (records ++ [r]) = addChange (changes records) r := by
  unfold changes
  rw [foldl_append, foldl_cons, foldl_nil]

theorem changes_sublist : (changes records).Sublist records := by
  induction records using reverseRecOn with
  | nil => exact Sublist.slnil
  | append_singleton records r ih =>
    rw [changes_snoc, addChange]
    split_ifs
    · exact ih.trans (sublist_append_left _ _)
    · exact ih.append_right [r]

theorem getLast?_changes :
    (changes records).getLast?.map Prod.snd = records.getLast?.map Prod.snd := by
  induction records using reverseRecOn with
  | nil => rfl
  | append_singleton records r ih =>
    rw [changes_snoc, addChange]
    split_ifs with hsame
    · rw [hsame, getLast?_concat]
      rfl
    · rw [getLast?_concat, getLast?_concat]

theorem head?_changes : (changes records).head? = records.head? := by
  induction records using reverseRecOn with
  | nil => rfl
  | append_singleton records r ih =>
    rw [changes_snoc, addChange]
    split_ifs with hsame
    · rw [ih, head?_append]
      cases hhead : records.head? with
      | some first => rfl
      | none =>
        rw [hhead] at ih
        rw [head?_eq_none_iff.mp ih] at hsame
        cases hsame
    · rw [head?_append, head?_append, ih]

theorem changes_isChain : (changes records).IsChain (·.2 ≠ ·.2) := by
  induction records using reverseRecOn with
  | nil => exact List.IsChain.nil
  | append_singleton records r ih =>
    rw [changes_snoc, addChange]
    split_ifs with hsame
    · exact ih
    · apply ih.append (isChain_singleton r)
      intro last hlast first hfirst heq
      cases Option.mem_some.mp hfirst
      rw [Option.mem_def.mp hlast] at hsame
      exact hsame (congrArg some heq)

variable [LinearOrder τ]

/-- The latest entry that is not after a time. -/
def latest (entries : List (τ × Int)) (t : τ) : Option (τ × Int) :=
  (entries.filter (·.1 ≤ t)).getLast?

/-- The limit in force at a time. -/
def inForce (records : List (τ × Int)) (t : τ) : Option Int :=
  (latest records t).map Prod.snd

/-- The changes from the cutoff of the last change on. -/
def retained (retention : Retention τ) (entries : List (τ × Int)) : List (τ × Int) :=
  match entries.getLast? with
  | none => []
  | some last => entries.dropWhile (·.1 < retention.cutoff last.1)

/-- The change that set the limit in force at a time is not older, at the last change, than the
retention. -/
def InForceRetained (retention : Retention τ) (records : List (τ × Int)) (t : τ) : Prop :=
  ∀ change ∈ latest (changes records) t, ∀ last ∈ (changes records).getLast?,
    retention.cutoff last.1 ≤ change.1

/-- Entries in the order of their times. -/
def InOrder (entries : List (τ × Int)) : Prop := entries.Pairwise (·.1 ≤ ·.1)

theorem latest_snoc (entries : List (τ × Int)) (r : τ × Int) (t : τ) :
    latest (entries ++ [r]) t = if r.1 ≤ t then some r else latest entries t := by
  unfold latest
  rw [filter_append]
  by_cases h : r.1 ≤ t
  · simp [h]
  · simp [h]

theorem latest_of_forall_le {entries : List (τ × Int)} {t : τ} (h : ∀ e ∈ entries, e.1 ≤ t) :
    latest entries t = entries.getLast? := by
  unfold latest
  rw [filter_eq_self.mpr (by simpa using h)]

theorem latest_append (entries entries' : List (τ × Int)) (t : τ) :
    latest (entries ++ entries') t = (latest entries' t).or (latest entries t) := by
  unfold latest
  rw [filter_append, getLast?_append]

theorem inForce_changes {records : List (τ × Int)} (horder : InOrder records) (t : τ) :
    inForce (changes records) t = inForce records t := by
  induction records using reverseRecOn with
  | nil => rfl
  | append_singleton records r ih =>
    obtain ⟨hbefore, -, hlast⟩ := pairwise_append.mp horder
    unfold inForce at ih ⊢
    rw [changes_snoc, addChange, latest_snoc]
    by_cases hr : r.1 ≤ t
    · rw [if_pos hr]
      split_ifs with hsame
      · -- The limit of the record that is skipped has been in force.
        rw [latest_of_forall_le, hsame]
        · rfl
        · intro e he
          exact (hlast e ((changes_sublist records).mem he) r mem_cons_self).trans hr
      · rw [latest_snoc, if_pos hr]
    · rw [if_neg hr, ← ih hbefore]
      split_ifs
      · rfl
      · rw [latest_snoc, if_neg hr]

theorem InOrder.takeWhile_eq_filter {entries : List (τ × Int)} (horder : InOrder entries) (t : τ) :
    entries.takeWhile (·.1 ≤ t) = entries.filter (·.1 ≤ t) := by
  induction entries with
  | nil => rfl
  | cons e entries ih =>
    obtain ⟨hle, htail⟩ := pairwise_cons.mp horder
    by_cases he : e.1 ≤ t
    · simp [he, ih htail]
    · have hnone : entries.filter (·.1 ≤ t) = [] := by
        apply filter_eq_nil_iff.mpr
        intro other hother hother'
        exact he ((hle other hother).trans (by simpa using hother'))
      simp [he, hnone]

end Spec

/-! ## What the history keeps -/

namespace ConcurrencyHistory

variable {τ : Type} [LinearOrder τ] {retention : Retention τ}

/-- The history of some samples. -/
def ofSamples (samples : List (τ × Int)) : ConcurrencyHistory τ :=
  ⟨samples.map Prod.fst, samples.map Prod.snd⟩

theorem evictOld_ofSamples (samples : List (τ × Int)) (now : τ) :
    evictOld retention (ofSamples samples) now =
      ofSamples (samples.dropWhile (·.1 < retention.cutoff now)) := by
  have hcount : bisectLeft (ofSamples samples).times (retention.cutoff now) =
      (samples.takeWhile (·.1 < retention.cutoff now)).length := by
    simp [bisectLeft, ofSamples, takeWhile_map, Function.comp_def]
  have hdrop : samples.drop (samples.takeWhile (·.1 < retention.cutoff now)).length =
      samples.dropWhile (·.1 < retention.cutoff now) := by
    conv_lhs =>
      arg 2
      rw [← takeWhile_append_dropWhile (p := (·.1 < retention.cutoff now)) (l := samples)]
    exact drop_left
  unfold evictOld
  dsimp only
  rw [hcount]
  split_ifs with hzero
  · simp only [ofSamples, ← map_drop, hdrop]
  · rw [Nat.not_lt, Nat.le_zero] at hzero
    rw [← hdrop, hzero, drop_zero]

theorem dropWhile_append_dropWhile {c c' : τ} (h : c ≤ c') (entries entries' : List (τ × Int)) :
    (entries.dropWhile (·.1 < c) ++ entries').dropWhile (·.1 < c') =
      (entries ++ entries').dropWhile (·.1 < c') := by
  induction entries with
  | nil => rfl
  | cons e entries ih =>
    by_cases he : e.1 < c
    · simp [he, he.trans_le h, ih]
    · simp [he]

theorem getLast?_retained (entries : List (τ × Int)) :
    (retained retention entries).getLast? = entries.getLast? := by
  unfold retained
  cases hlast : entries.getLast? with
  | none => rfl
  | some last =>
    obtain ⟨before, rfl⟩ := getLast?_eq_some_iff.mp hlast
    dsimp only
    rw [dropWhile_append]
    split_ifs
    · simp [retention.le last.1]
    · exact getLast?_concat

/-- A run keeps the changes from the cutoff of the last one on. -/
theorem run_eq {records : List (τ × Int)} (horder : InOrder records) :
    run retention records = ofSamples (retained retention (changes records)) := by
  induction records using reverseRecOn with
  | nil => rfl
  | append_singleton records r ih =>
    obtain ⟨hbefore, -, hlast⟩ := pairwise_append.mp horder
    have hrun : run retention (records ++ [r]) =
        record retention (run retention records) r.1 r.2 := by
      unfold run
      rw [foldl_append, foldl_cons, foldl_nil]
    have hlimit : (ofSamples (retained retention (changes records))).limits.getLast? =
        (changes records).getLast?.map Prod.snd := by
      rw [ofSamples, getLast?_map, getLast?_retained]
    rw [hrun, ih hbefore, changes_snoc, addChange, record, hlimit]
    split_ifs with hsame
    · rfl
    · have hsnoc : (⟨(ofSamples (retained retention (changes records))).times ++ [r.1],
          (ofSamples (retained retention (changes records))).limits ++ [r.2]⟩ :
            ConcurrencyHistory τ) = ofSamples (retained retention (changes records) ++ [r]) := by
        simp [ofSamples]
      rw [hsnoc, evictOld_ofSamples]
      congr 1
      unfold retained
      rw [getLast?_concat]
      cases hchanges : (changes records).getLast? with
      | none => rw [getLast?_eq_none_iff.mp hchanges]
      | some last =>
        apply dropWhile_append_dropWhile
        apply retention.mono
        apply hlast last _ r mem_cons_self
        exact (changes_sublist records).mem (mem_of_getLast? hchanges)

theorem atTimestamp_ofSamples {sample : τ × Int} {samples : List (τ × Int)}
    (horder : InOrder (sample :: samples)) (t : τ) :
    atTimestamp (ofSamples (sample :: samples)) t =
      ((latest (sample :: samples) t).getD sample).2 := by
  have hcount : bisectRight (ofSamples (sample :: samples)).times t =
      ((sample :: samples).takeWhile (·.1 ≤ t)).length := by
    rw [bisectRight, ofSamples, takeWhile_map, length_map]
    rfl
  rw [atTimestamp, if_neg (by simp [ofSamples]), hcount, latest, ← horder.takeWhile_eq_filter t]
  dsimp only
  cases hlast : ((sample :: samples).takeWhile (·.1 ≤ t)).getLast? with
  | none =>
    rw [getLast?_eq_none_iff.mp hlast]
    rfl
  | some last =>
    obtain ⟨before, hbefore⟩ := getLast?_eq_some_iff.mp hlast
    have hsplit : sample :: samples =
        before ++ last :: (sample :: samples).dropWhile (·.1 ≤ t) := by
      rw [append_cons, ← hbefore, takeWhile_append_dropWhile]
    have hget : (ofSamples (sample :: samples)).limits.getD before.length 0 = last.2 := by
      rw [hsplit]
      simp [ofSamples]
    rw [hbefore, length_append, length_singleton, if_neg (Nat.succ_ne_zero _),
      Nat.add_sub_cancel, hget]
    rfl

end ConcurrencyHistory

/-! ## When an answer is right -/

section Answers

open ConcurrencyHistory

variable {τ : Type} [LinearOrder τ] {retention : Retention τ}

theorem InOrder.le_of_head {entry : τ × Int} {entries : List (τ × Int)}
    (horder : InOrder (entry :: entries)) {c : τ} (hhead : c ≤ entry.1) :
    ∀ e ∈ entry :: entries, c ≤ e.1 := by
  intro e he
  rcases mem_cons.mp he with rfl | he
  · exact hhead
  · exact hhead.trans ((pairwise_cons.mp horder).1 e he)

/-- Of entries whose neighbours differ, the retained ones answer with the entry in force exactly
when it is retained. -/
theorem atTimestamp_retained_iff {entries : List (τ × Int)} (horder : InOrder entries)
    (hchain : entries.IsChain (·.2 ≠ ·.2)) {t : τ} {first last : τ × Int}
    (hfirst : entries.head? = some first) (hlast : entries.getLast? = some last)
    (hstart : first.1 ≤ t) (hrecent : retention.cutoff last.1 ≤ t) :
    some ((ofSamples (retained retention entries)).atTimestamp t) = inForce entries t ↔
      ∀ change ∈ latest entries t, retention.cutoff last.1 ≤ change.1 := by
  have hretained : retained retention entries =
      entries.dropWhile (·.1 < retention.cutoff last.1) := by
    rw [retained, hlast]
  have hsplit := takeWhile_append_dropWhile (p := (·.1 < retention.cutoff last.1))
    (l := entries)
  have hnever := head?_dropWhile_not (·.1 < retention.cutoff last.1) entries
  have hevicted : ∀ e ∈ entries.takeWhile (·.1 < retention.cutoff last.1),
      e.1 < retention.cutoff last.1 := fun e he => by simpa using mem_takeWhile_imp he
  have hend : (retained retention entries).getLast? = some last := by
    rw [getLast?_retained, hlast]
  rw [← hretained] at hsplit hnever
  generalize entries.takeWhile (·.1 < retention.cutoff last.1) = evicted at hsplit hevicted
  cases hsamples : retained retention entries with
  | nil =>
    rw [hsamples] at hend
    cases hend
  | cons sample samples =>
    rw [hsamples] at hsplit hnever
    subst hsplit
    have hsample : retention.cutoff last.1 ≤ sample.1 := by simpa using hnever
    have hsorted : InOrder (sample :: samples) := horder.sublist (sublist_append_right _ _)
    rw [atTimestamp_ofSamples hsorted, inForce, latest_append]
    cases hlatest : latest (sample :: samples) t with
    | some change =>
      have hmem : change ∈ sample :: samples := mem_of_mem_filter (mem_of_getLast? hlatest)
      have hkept := hsorted.le_of_head hsample change hmem
      simp [hkept]
    | none =>
      -- The entry in force is the last one evicted; the first sample is the next entry.
      have hlater : ¬sample.1 ≤ t := by
        intro hle
        have hempty := getLast?_eq_none_iff.mp hlatest
        exact absurd (mem_filter.mpr ⟨mem_cons_self, by simpa using hle⟩)
          (hempty ▸ not_mem_nil)
      have hall : latest evicted t = evicted.getLast? :=
        latest_of_forall_le fun e he => (hevicted e he).le.trans hrecent
      cases hgone : evicted.getLast? with
      | none =>
        rw [getLast?_eq_none_iff.mp hgone] at hfirst
        cases hfirst
        exact absurd hstart hlater
      | some gone =>
        have hdiffer : gone.2 ≠ sample.2 := (isChain_append.mp hchain).2.2 gone hgone sample rfl
        have hold := hevicted gone (mem_of_getLast? hgone)
        simp [hall, hgone, hold, Ne.symm hdiffer]

/-- For time stamps that do not decrease, and a time from the first record on and within the
retention of the last one, the answer is the limit in force exactly when the change that set this
limit is not older, at the last change, than the retention. -/
theorem atTimestamp_eq_iff (retention : Retention τ) {records : List (τ × Int)}
    (horder : InOrder records) {t : τ} {first last : τ × Int} (hfirst : records.head? = some first)
    (hlast : records.getLast? = some last) (hstart : first.1 ≤ t)
    (hrecent : retention.cutoff last.1 ≤ t) :
    some ((run retention records).atTimestamp t) = inForce records t ↔
      InForceRetained retention records t := by
  have hsorted : InOrder (changes records) := horder.sublist (changes_sublist records)
  rw [run_eq horder, ← inForce_changes horder, InForceRetained]
  cases hchange : (changes records).getLast? with
  | none =>
    have hsame := getLast?_changes records
    rw [hchange, hlast] at hsame
    cases hsame
  | some change =>
    have hbefore : change.1 ≤ last.1 := by
      obtain ⟨init, rfl⟩ := getLast?_eq_some_iff.mp hlast
      have hmem := (changes_sublist _).mem (mem_of_getLast? hchange)
      rcases mem_append.mp hmem with hinit | hend
      · exact (pairwise_append.mp horder).2.2 change hinit last mem_cons_self
      · exact (congrArg Prod.fst (mem_singleton.mp hend)).le
    rw [atTimestamp_retained_iff hsorted (changes_isChain records)
      ((head?_changes records).trans hfirst) hchange hstart
      ((retention.mono hbefore).trans hrecent)]
    simp

/-- Two changes within an hour. -/
theorem atTimestamp_eq_iff_two :
    some ((run (Retention.seconds 3600) [(0, 4), (10, 4), (600, 8)]).atTimestamp 300) =
        inForce [(0, 4), (10, 4), (600, 8)] 300 ↔
      InForceRetained (Retention.seconds 3600) [(0, 4), (10, 4), (600, 8)] 300 :=
  atTimestamp_eq_iff (Retention.seconds 3600) (by simp [InOrder]) rfl rfl (by decide) (by decide)

/-- A limit that was in force for more than an hour is forgotten by the change that ends it. -/
theorem atTimestamp_after_eviction :
    ¬∀ records : List (Int × Int), InOrder records → ∀ t first last,
      records.head? = some first → records.getLast? = some last → first.1 ≤ t →
        (Retention.seconds 3600).cutoff last.1 ≤ t →
          some ((run (Retention.seconds 3600) records).atTimestamp t) = inForce records t := by
  intro h
  have hfalse := h [(0, 4), (4000, 8)] (by simp [InOrder]) 1000 (0, 4) (4000, 8) rfl rfl (by decide)
    (by decide)
  exact absurd hfalse (by decide)

end Answers

end ArcticPlatform.Metrics
