import ArcticPlatform.Library.Dict
import Mathlib

/-!
# Combining the metrics of a training step

An embedding of the three combiners that a step's metrics go through:
`combine_packed_metrics` over the packed microbatches of a call,
`combine_metric_microbatches` over the microbatches of a rank and
`combine_metric_shards` over the ranks.

Keys are strings, as lists of their characters.  Values are exact numbers, or something
else, a boolean among it, which the combiners do not add up.  Which names are declared
as summed is a parameter.

Main results:

- Theorem `combinePackedMetrics_get?`: a key of one call.
- Theorem `combineMetricMicrobatches_numberAt`: a key of one rank.
- Theorem `combineMetricShards_numberAt`: a key of all ranks.
-/

namespace ArcticPlatform.Metrics

open Dicts List
open Option hiding any_eq_true

/-- A key, by its characters. -/
abbrev Key := List Char

/-- A value of a metric: a number, or a boolean or anything else. -/
inductive MetricValue (ω : Type) where
  | number (x : ℚ)
  | other (x : ω)

/-- A dictionary of metrics. -/
abbrev MetricDict (ω : Type) := Dict Key (MetricValue ω)

/-! ## Keys -/

/-- `_METRIC_PAIR_SUM_SUFFIX`. -/
def pairSumSuffix : Key := ['.', 's', 'u', 'm']

/-- `_METRIC_PAIR_TOKENS_SUFFIX`. -/
def pairTokensSuffix : Key := ['.', 't', 'o', 'k', 'e', 'n', 's']

/-- `_SUMMED_METRIC_PREFIXES`. -/
def summedMetricPrefixes : List Key := [['l', 'o', 's', 's', '_', 't', 'e', 'r', 'm', '_']]

/-- `_SUMMED_METRIC_SUFFIXES`. -/
def summedMetricSuffixes : List Key := [['_', 's', 'u', 'm'], ['_', 'c', 'o', 'u', 'n', 't']]

/-- `k[: -len(suffix)]` of a key that ends with the suffix. -/
def baseOf (suffix k : Key) : Option Key :=
  if suffix.isSuffixOf k then some (k.take (k.length - suffix.length)) else none

theorem baseOf_eq_some {suffix k base : Key} : baseOf suffix k = some base ↔ k = base ++ suffix := by
  rw [baseOf]
  constructor
  · intro h
    split_ifs at h with hsuffix
    obtain ⟨front, rfl⟩ := isSuffixOf_iff_suffix.mp hsuffix
    have hbase := some.inj h
    rw [length_append, Nat.add_sub_cancel, take_left'] at hbase
    · rw [hbase]
    · rfl
  · rintro rfl
    rw [if_pos (isSuffixOf_iff_suffix.mpr (suffix_append base suffix)), length_append,
      Nat.add_sub_cancel, take_left' rfl]

section Combiners

variable {ω : Type} (declared : Key → Bool)

/-- `metric_is_summed`. -/
def metricIsSummed (key : Key) : Bool :=
  declared key || summedMetricPrefixes.any (·.isPrefixOf key) ||
    summedMetricSuffixes.any (·.isSuffixOf key)

/-- `d.setdefault(k, v)`. -/
def setDefault {α : Type} (d : Dict Key α) (k : Key) (v : α) : Dict Key α :=
  if (d.get? k).isSome then d else d.set k v

/-! ## Totals -/

/-- What the combiners of microbatches and of shards add up. -/
structure Totals (ω : Type) where
  numericTotals : Dict Key ℚ
  numericCounts : Dict Key Nat
  passthrough : Dict Key ω

/-- One entry of a dictionary. -/
def Totals.add (s : Totals ω) (p : Key × MetricValue ω) : Totals ω :=
  match p.2 with
  | .number x =>
    { s with
      numericTotals := s.numericTotals.set p.1 ((s.numericTotals.get? p.1).getD 0 + x)
      numericCounts := s.numericCounts.set p.1 ((s.numericCounts.get? p.1).getD 0 + 1) }
  | .other x => { s with passthrough := setDefault s.passthrough p.1 x }

/-- The totals over dictionaries. -/
def totalsOf (dicts : List (MetricDict ω)) : Totals ω :=
  dicts.foldl (fun s md => md.entries.foldl Totals.add s) ⟨Dict.empty, Dict.empty, Dict.empty⟩

/-- The mean of a key over the dictionaries that have it. -/
def Totals.mean (s : Totals ω) (k : Key) (total : ℚ) : ℚ :=
  let count := (s.numericCounts.get? k).getD 1
  if 0 < count then total / count else total

/-- `paired_bases`. -/
def Totals.pairedBases (s : Totals ω) : List Key :=
  s.numericTotals.keys.filterMap fun k => (baseOf pairSumSuffix k).filter fun base =>
    (s.numericTotals.get? (base ++ pairTokensSuffix)).isSome

/-- `paired_keys`. -/
def Totals.pairedKeys (s : Totals ω) : List Key :=
  s.pairedBases.flatMap fun base => [base ++ pairSumSuffix, base ++ pairTokensSuffix]

/-- `combine_metric_microbatches`. -/
def combineMetricMicrobatches (perMicrobatchMetricDicts : List (MetricDict ω)) : MetricDict ω :=
  let s := totalsOf perMicrobatchMetricDicts
  let out : MetricDict ω := s.numericTotals.entries.foldl (fun out p =>
    out.set p.1 (.number (if p.1 ∈ s.pairedKeys ∨ metricIsSummed declared p.1 then p.2
      else s.mean p.1 p.2))) Dict.empty
  s.passthrough.entries.foldl (fun out p => setDefault out p.1 (.other p.2)) out

/-- A key is half of a pair. -/
def Totals.isHalf (s : Totals ω) (k : Key) : Bool :=
  ((baseOf pairSumSuffix k).toList ++ (baseOf pairTokensSuffix k).toList).any (· ∈ s.pairedBases)

/-- The token-weighted mean of a pair. -/
def Totals.pairMean (s : Totals ω) (base : Key) : ℚ :=
  let sumTotal := (s.numericTotals.get? (base ++ pairSumSuffix)).getD 0
  let tokensTotal := (s.numericTotals.get? (base ++ pairTokensSuffix)).getD 0
  if 0 < tokensTotal then sumTotal / tokensTotal else 0

/-- `combine_metric_shards`. -/
def combineMetricShards (shardsList : List (MetricDict ω)) : MetricDict ω :=
  let s := totalsOf shardsList
  let out : MetricDict ω :=
    s.pairedBases.foldl (fun out base => out.set base (.number (s.pairMean base))) Dict.empty
  let out := s.numericTotals.entries.foldl (fun out p =>
    if s.isHalf p.1 then out
    else if (out.get? p.1).isSome then out
    else out.set p.1 (.number (if metricIsSummed declared p.1 then p.2 else s.mean p.1 p.2))) out
  s.passthrough.entries.foldl (fun out p => setDefault out p.1 (.other p.2)) out

/-! ## Packed microbatches -/

/-- A rate key and its sum pair are mixed. -/
structure MixedKeys where
  colliding : List Key

/-- The weights that are used, and their total. -/
def packedWeights (nMetrics : Nat) (reportingWeights : List ℚ) : List ℚ × ℚ :=
  if reportingWeights.sum = 0 then
    (List.replicate nMetrics 1, if nMetrics = 0 then 1 else nMetrics)
  else (reportingWeights, reportingWeights.sum)

/-- What `combine_packed_metrics` adds up. -/
structure PackedSums where
  summed : Dict Key ℚ
  averaged : Dict Key ℚ
  averagedWeight : Dict Key ℚ

/-- One entry of a dictionary with a weight. -/
def PackedSums.add (weight : ℚ) (s : PackedSums) (p : Key × MetricValue ω) : PackedSums :=
  match p.2 with
  | .other _ => s
  | .number number =>
    if metricIsSummed declared p.1 then
      { s with summed := s.summed.set p.1 ((s.summed.get? p.1).getD 0 + number) }
    else
      { s with
        averaged := s.averaged.set p.1 ((s.averaged.get? p.1).getD 0 + number * weight)
        averagedWeight := s.averagedWeight.set p.1 ((s.averagedWeight.get? p.1).getD 0 + weight) }

/-- The keys whose sum pair is there too. -/
def collidingKeys (microbatchMetrics : List (MetricDict ω)) : List Key :=
  let allKeys := (microbatchMetrics.flatMap (·.keys)).dedup
  (allKeys.filter fun key => decide (key ++ pairSumSuffix ∈ allKeys)).mergeSort
    fun a b => decide (a ≤ b)

/-- `combine_packed_metrics`. -/
def combinePackedMetrics (microbatchMetrics : List (MetricDict ω)) (reportingWeights : List ℚ) :
    Except MixedKeys (Dict Key ℚ) :=
  let weights := packedWeights microbatchMetrics.length reportingWeights
  let colliding := collidingKeys microbatchMetrics
  if colliding ≠ [] then .error ⟨colliding⟩
  else
    let s := (microbatchMetrics.zip weights.1).foldl
      (fun s q => q.1.entries.foldl (PackedSums.add declared q.2) s)
      ⟨Dict.empty, Dict.empty, Dict.empty⟩
    let out : Dict Key ℚ := s.averaged.entries.foldl (fun out p =>
      let weight := (s.averagedWeight.get? p.1).getD 0
      out.set p.1 (p.2 / if weight ≠ 0 then weight else weights.2)) Dict.empty
    .ok (s.summed.entries.foldl (fun out p => out.set p.1 p.2) out)

end Combiners

/-! ## Numbers of a key -/

section Numbers

variable {ω : Type}

/-- The number that a dictionary has for a key. -/
def numberAt (md : MetricDict ω) (key : Key) : Option ℚ :=
  match md.get? key with
  | some (.number x) => some x
  | _ => none

/-- The numbers that dictionaries have for a key. -/
def numbers (dicts : List (MetricDict ω)) (key : Key) : List ℚ :=
  dicts.filterMap fun md => numberAt md key

/-- The sum of what there is to add up. -/
def optSum {M : Type} [AddCommMonoid M] (xs : List M) : Option M :=
  if xs.isEmpty then none else some xs.sum

variable {M : Type}

theorem optSum_append_singleton [AddCommMonoid M] (xs : List M) (x : M) :
    optSum (xs ++ [x]) = some ((optSum xs).getD 0 + x) := by
  cases xs with
  | nil => simp [optSum]
  | cons y xs => simp [optSum, add_assoc]

theorem numberAt_setDefault (out : MetricDict ω) (d : Dict Key ω) (key : Key) :
    numberAt (d.entries.foldl (fun out p => setDefault out p.1 (.other p.2)) out) key =
      numberAt out key := by
  have hread := d.read_foldl_entries (fun out p => setDefault out p.1 (.other p.2))
    (fun out : MetricDict ω => numberAt out key) (g := fun _ r => r) key
    (by
      intro out p hp
      rw [setDefault]
      split_ifs
      · rfl
      · simp [numberAt, Ne.symm hp])
    (by
      intro out x
      rw [setDefault]
      split_ifs with hsome
      · rfl
      · have hnone := not_isSome_iff_eq_none.mp hsome
        simp [numberAt, hnone]) out
  rw [hread]
  cases d.get? key with
  | none => rfl
  | some x => rfl

/-! ## Totals of a key -/

/-- What one dictionary adds to a key. -/
theorem totals_step (s : Totals ω) (md : MetricDict ω) (key : Key) :
    (md.entries.foldl Totals.add s).numericTotals.get? key =
        (numberAt md key).elim (s.numericTotals.get? key)
          (fun x => some ((s.numericTotals.get? key).getD 0 + x)) ∧
      (md.entries.foldl Totals.add s).numericCounts.get? key =
        (numberAt md key).elim (s.numericCounts.get? key)
          (fun _ => some ((s.numericCounts.get? key).getD 0 + 1)) := by
  have hread := md.read_foldl_entries Totals.add
    (fun s : Totals ω => (s.numericTotals.get? key, s.numericCounts.get? key))
    (g := fun v r => match v with
      | .number x => (some (r.1.getD 0 + x), some (r.2.getD 0 + 1))
      | .other _ => r) key
    (by
      intro s p hp
      rw [Totals.add]
      cases p.2 with
      | number x => simp [Ne.symm hp]
      | other x => rfl)
    (by
      intro s v
      rw [Totals.add]
      cases v with
      | number x => simp
      | other x => rfl) s
  obtain ⟨htotal, hcount⟩ := Prod.ext_iff.mp hread
  dsimp only at htotal hcount
  rw [htotal, hcount, numberAt]
  cases md.get? key with
  | none => exact ⟨rfl, rfl⟩
  | some v =>
    cases v with
    | number x => exact ⟨rfl, rfl⟩
    | other x => exact ⟨rfl, rfl⟩

theorem totalsOf_get? (dicts : List (MetricDict ω)) (key : Key) :
    (totalsOf dicts).numericTotals.get? key = optSum (numbers dicts key) ∧
      (totalsOf dicts).numericCounts.get? key =
        optSum ((numbers dicts key).map fun _ => (1 : Nat)) := by
  induction dicts using List.reverseRecOn with
  | nil => exact ⟨rfl, rfl⟩
  | append_singleton dicts md ih =>
    have hstep := totals_step (totalsOf dicts) md key
    have hnumbers : numbers (dicts ++ [md]) key =
        numbers dicts key ++ (numberAt md key).toList := by
      rw [numbers, filterMap_append]
      cases hmd : numberAt md key with
      | none => simp [numbers, hmd]
      | some x => simp [numbers, hmd]
    rw [totalsOf, foldl_append, foldl_cons, foldl_nil, ← totalsOf, hstep.1, hstep.2,
      hnumbers, ih.1, ih.2]
    cases numberAt md key with
    | none => simp
    | some x => simp [optSum_append_singleton]

theorem optSum_eq_none [AddCommMonoid M] {xs : List M} : optSum xs = none ↔ xs = [] := by
  cases xs with
  | nil => simp [optSum]
  | cons x xs => simp [optSum]

theorem optSum_of_ne [AddCommMonoid M] {xs : List M} (h : xs ≠ []) : optSum xs = some xs.sum := by
  rw [optSum, if_neg (by simpa using h)]

variable {dicts : List (MetricDict ω)}

theorem mem_pairedBases {base : Key} :
    base ∈ (totalsOf dicts).pairedBases ↔ numbers dicts (base ++ pairSumSuffix) ≠ [] ∧
      numbers dicts (base ++ pairTokensSuffix) ≠ [] := by
  have hsome : ∀ key, ((totalsOf dicts).numericTotals.get? key).isSome ↔ numbers dicts key ≠ [] := by
    intro key
    rw [← ne_none_iff_isSome, (totalsOf_get? dicts key).1, ne_eq, optSum_eq_none]
  rw [Totals.pairedBases, mem_filterMap, ← hsome, ← hsome, ← Dict.mem_keys]
  constructor
  · rintro ⟨k, hk, hbase⟩
    rw [filter_eq_some_iff, baseOf_eq_some] at hbase
    obtain ⟨rfl, htokens⟩ := hbase
    exact ⟨hk, htokens⟩
  · rintro ⟨hsum, htokens⟩
    exact ⟨_, hsum, filter_eq_some_iff.mpr ⟨baseOf_eq_some.mpr rfl, htokens⟩⟩

/-- A key is half of a pair that has numbers for both halves. -/
def IsHalf (dicts : List (MetricDict ω)) (key : Key) : Prop :=
  ∃ base, (key = base ++ pairSumSuffix ∨ key = base ++ pairTokensSuffix) ∧
    numbers dicts (base ++ pairSumSuffix) ≠ [] ∧ numbers dicts (base ++ pairTokensSuffix) ≠ []

variable {key : Key}

theorem mem_pairedKeys : key ∈ (totalsOf dicts).pairedKeys ↔ IsHalf dicts key := by
  rw [Totals.pairedKeys, mem_flatMap]
  constructor
  · rintro ⟨base, hbase, hkey⟩
    exact ⟨base, by simpa using hkey, mem_pairedBases.mp hbase⟩
  · rintro ⟨base, hkey, hbase⟩
    exact ⟨base, mem_pairedBases.mpr hbase, by simpa using hkey⟩

theorem isHalf_iff : (totalsOf dicts).isHalf key = true ↔ IsHalf dicts key := by
  rw [Totals.isHalf, any_eq_true]
  constructor
  · rintro ⟨base, hbase, hpaired⟩
    rw [mem_append, mem_toList, mem_toList, baseOf_eq_some, baseOf_eq_some] at hbase
    exact ⟨base, hbase, mem_pairedBases.mp (of_decide_eq_true hpaired)⟩
  · rintro ⟨base, hkey, hpaired⟩
    refine ⟨base, ?_, decide_eq_true (mem_pairedBases.mpr hpaired)⟩
    rw [mem_append, mem_toList, mem_toList, baseOf_eq_some, baseOf_eq_some]
    exact hkey

theorem mean_eq (h : numbers dicts key ≠ []) (total : ℚ) :
    (totalsOf dicts).mean key total = total / (numbers dicts key).length := by
  have hpos := length_pos_iff.mpr h
  have hcount : ((totalsOf dicts).numericCounts.get? key) = some (numbers dicts key).length := by
    rw [(totalsOf_get? dicts key).2, optSum_of_ne (by simpa using h)]
    simp
  rw [Totals.mean, hcount, getD_some, if_pos hpos]

open Classical in
/-- A key of one rank: halves of pairs and summed metrics are added up, other numbers averaged. -/
theorem combineMetricMicrobatches_numberAt (declared : Key → Bool) (dicts : List (MetricDict ω))
    (key : Key) :
    numberAt (combineMetricMicrobatches declared dicts) key =
      (optSum (numbers dicts key)).map fun total : ℚ =>
        if IsHalf dicts key ∨ metricIsSummed declared key then total
        else total / (numbers dicts key).length := by
  have hread := (totalsOf dicts).numericTotals.read_foldl_entries
    (fun out p => out.set p.1 (.number
      (if p.1 ∈ (totalsOf dicts).pairedKeys ∨ metricIsSummed declared p.1 then p.2
        else (totalsOf dicts).mean p.1 p.2)))
    (fun out : MetricDict ω => out.get? key)
    (g := fun total _ => some (.number
      (if key ∈ (totalsOf dicts).pairedKeys ∨ metricIsSummed declared key then total
        else (totalsOf dicts).mean key total))) key
    (by
      intro out p hp
      simp [Ne.symm hp])
    (by
      intro out total
      simp) Dict.empty
  rw [combineMetricMicrobatches, numberAt_setDefault, numberAt, hread, (totalsOf_get? dicts key).1]
  by_cases hnumbers : numbers dicts key = []
  · rw [optSum_eq_none.mpr hnumbers]
    rfl
  · rw [optSum_of_ne hnumbers, elim_some, map_some, mean_eq hnumbers]
    simp only [mem_pairedKeys]

/-! ## One call -/

section Packed

variable (declared : Key → Bool)

/-- The numbers that the packed microbatches have for a key, with their weights. -/
def weighted (mds : List (MetricDict ω × ℚ)) (key : Key) : List (ℚ × ℚ) :=
  mds.filterMap fun q => (numberAt q.1 key).map fun x => (x, q.2)

/-- The entries that are read for a key. -/
def PackedSums.at (s : PackedSums) (key : Key) : Option ℚ × Option ℚ × Option ℚ :=
  (s.summed.get? key, s.averaged.get? key, s.averagedWeight.get? key)

/-- The entries for a key of numbers with weights. -/
def entriesOf (key : Key) (xs : List (ℚ × ℚ)) : Option ℚ × Option ℚ × Option ℚ :=
  if metricIsSummed declared key then (optSum (xs.map (·.1)), none, none)
  else (none, optSum (xs.map fun x => x.1 * x.2), optSum (xs.map (·.2)))

/-- What one packed microbatch adds to a key. -/
theorem packed_step {s : PackedSums} {xs : List (ℚ × ℚ)} {key : Key}
    (hs : s.at key = entriesOf declared key xs) (md : MetricDict ω) (weight : ℚ) :
    (md.entries.foldl (PackedSums.add declared weight) s).at key =
      entriesOf declared key (xs ++ ((numberAt md key).map fun x => (x, weight)).toList) := by
  have hread := md.read_foldl_entries (PackedSums.add declared weight)
    (fun s : PackedSums => s.at key)
    (g := fun v r => match v with
      | .number x =>
        if metricIsSummed declared key then (some (r.1.getD 0 + x), r.2)
        else (r.1, some (r.2.1.getD 0 + x * weight), some (r.2.2.getD 0 + weight))
      | .other _ => r) key
    (by
      intro s p hp
      rw [PackedSums.add]
      cases p.2 with
      | other x => rfl
      | number x =>
        dsimp only
        split_ifs <;> simp [PackedSums.at, Ne.symm hp])
    (by
      intro s v
      rw [PackedSums.add]
      cases v with
      | other x => rfl
      | number x =>
        dsimp only
        split_ifs <;> simp [PackedSums.at]) s
  rw [hread, hs, numberAt]
  cases md.get? key with
  | none => simp
  | some v =>
    cases v with
    | other x => simp
    | number x =>
      rw [elim_some, map_some, toList_some, entriesOf, entriesOf]
      split_ifs with hsummed
      · simp [optSum_append_singleton]
      · simp [optSum_append_singleton]

theorem packed_run (mds : List (MetricDict ω × ℚ)) (key : Key) :
    PackedSums.at (mds.foldl (fun s q => q.1.entries.foldl (PackedSums.add declared q.2) s)
      ⟨Dict.empty, Dict.empty, Dict.empty⟩) key = entriesOf declared key (weighted mds key) := by
  induction mds using List.reverseRecOn with
  | nil =>
    rw [entriesOf]
    split_ifs <;> rfl
  | append_singleton mds q ih =>
    have hweighted : weighted (mds ++ [q]) key =
        weighted mds key ++ ((numberAt q.1 key).map fun x => (x, q.2)).toList := by
      rw [weighted, filterMap_append]
      cases hq : numberAt q.1 key with
      | none => simp [weighted, hq]
      | some x => simp [weighted, hq]
    rw [foldl_append, foldl_cons, foldl_nil, hweighted]
    exact packed_step declared ih q.1 q.2

/-- No rate key is mixed with its sum pair. -/
def NoMix (keys : List Key) : Prop :=
  ∀ key ∈ keys, key ++ pairSumSuffix ∉ keys

variable {mds : List (MetricDict ω)}

theorem collidingKeys_eq_nil : collidingKeys mds = [] ↔ NoMix (mds.flatMap (·.keys)) := by
  rw [collidingKeys, ← length_eq_zero_iff, length_mergeSort, length_eq_zero_iff, filter_eq_nil_iff]
  simp only [mem_dedup, decide_eq_true_iff]
  rfl

/-- A key of one call: summed metrics are added up, and every other number is averaged with the
weights of the packed microbatches that have it. -/
theorem combinePackedMetrics_get? (reportingWeights : List ℚ) (h : NoMix (mds.flatMap (·.keys))) :
    ∃ out, combinePackedMetrics declared mds reportingWeights = .ok out ∧ ∀ key, out.get? key =
        let xs := weighted (mds.zip (packedWeights mds.length reportingWeights).1) key
        if metricIsSummed declared key then optSum (xs.map (·.1))
        else (optSum (xs.map fun x => x.1 * x.2)).map fun total : ℚ =>
          total / if (xs.map (·.2)).sum ≠ 0 then (xs.map (·.2)).sum
            else (packedWeights mds.length reportingWeights).2 := by
  refine ⟨_, by rw [combinePackedMetrics, if_neg (not_not.mpr (collidingKeys_eq_nil.mpr h))], ?_⟩
  intro key
  have hrun := packed_run declared (mds.zip (packedWeights mds.length reportingWeights).1) key
  set s := (mds.zip (packedWeights mds.length reportingWeights).1).foldl
    (fun s q => q.1.entries.foldl (PackedSums.add declared q.2) s)
    ⟨Dict.empty, Dict.empty, Dict.empty⟩
  set xs := weighted (mds.zip (packedWeights mds.length reportingWeights).1) key
  have haveraged := s.averaged.read_foldl_entries
    (fun out p => out.set p.1 (p.2 / if (s.averagedWeight.get? p.1).getD 0 ≠ 0 then
      (s.averagedWeight.get? p.1).getD 0 else (packedWeights mds.length reportingWeights).2))
    (fun out : Dict Key ℚ => out.get? key)
    (g := fun total _ => some (total / if (s.averagedWeight.get? key).getD 0 ≠ 0 then
      (s.averagedWeight.get? key).getD 0 else (packedWeights mds.length reportingWeights).2)) key
    (fun out p hp => by simp [Ne.symm hp]) (fun out total => by simp) Dict.empty
  have hsummed := s.summed.read_foldl_entries (fun out p => out.set p.1 p.2)
    (fun out : Dict Key ℚ => out.get? key) (g := fun total _ => some total) key
    (fun out p hp => by simp [Ne.symm hp]) (fun out total => by simp)
  rw [hsummed, haveraged]
  change (s.summed.get? key, s.averaged.get? key, s.averagedWeight.get? key) =
    entriesOf declared key xs at hrun
  rw [entriesOf] at hrun
  dsimp only
  by_cases hkey : metricIsSummed declared key = true
  · rw [if_pos hkey] at hrun ⊢
    obtain ⟨hs, hrest⟩ := Prod.ext_iff.mp hrun
    obtain ⟨ha, -⟩ := Prod.ext_iff.mp hrest
    dsimp only at hs ha
    rw [hs, ha]
    cases optSum (xs.map (·.1)) with
    | none => rfl
    | some total => rfl
  · rw [if_neg hkey] at hrun ⊢
    obtain ⟨hs, hrest⟩ := Prod.ext_iff.mp hrun
    obtain ⟨ha, hw⟩ := Prod.ext_iff.mp hrest
    dsimp only at hs ha hw
    rw [hs, ha, hw]
    by_cases hxs : xs = []
    · simp [hxs, optSum]
    · rw [optSum_of_ne (by simpa using hxs), optSum_of_ne (by simpa using hxs)]
      rfl

theorem noMix_of_ok {reportingWeights : List ℚ} {out : Dict Key ℚ}
    (h : combinePackedMetrics declared mds reportingWeights = .ok out) :
    NoMix (mds.flatMap (·.keys)) := by
  rw [← collidingKeys_eq_nil]
  by_contra hne
  rw [combinePackedMetrics, if_pos hne] at h
  cases h

end Packed

/-! ## All ranks -/

section Shards

variable {dicts : List (MetricDict ω)} {key base : Key}

theorem get?_foldl_pairs (s : Totals ω) (bases : List Key) (out : MetricDict ω) (key : Key) :
    (bases.foldl (fun out base => out.set base (.number (s.pairMean base))) out).get? key =
      if key ∈ bases then some (.number (s.pairMean key)) else out.get? key := by
  induction bases generalizing out with
  | nil => rfl
  | cons base bases ih =>
    rw [foldl_cons, ih, Dict.get?_set]
    by_cases hkey : key = base
    · subst hkey
      simp
    · simp [hkey]

/-- A number of all ranks, before what is passed through. -/
theorem combineMetricShards_numberAt (declared : Key → Bool) (dicts : List (MetricDict ω))
    (key : Key) :
    numberAt (combineMetricShards declared dicts) key =
      if key ∈ (totalsOf dicts).pairedBases then some ((totalsOf dicts).pairMean key)
      else if (totalsOf dicts).isHalf key then none
      else (optSum (numbers dicts key)).map fun total : ℚ =>
        if metricIsSummed declared key then total else (totalsOf dicts).mean key total := by
  have hread := (totalsOf dicts).numericTotals.read_foldl_entries
    (fun out p =>
      if (totalsOf dicts).isHalf p.1 then out
      else if (out.get? p.1).isSome then out
      else out.set p.1 (.number (if metricIsSummed declared p.1 then p.2
        else (totalsOf dicts).mean p.1 p.2)))
    (fun out : MetricDict ω => out.get? key)
    (g := fun total r =>
      if (totalsOf dicts).isHalf key then r
      else if r.isSome then r
      else some (.number (if metricIsSummed declared key then total
        else (totalsOf dicts).mean key total))) key
    (by
      intro out p hp
      split_ifs <;> simp [Ne.symm hp])
    (by
      intro out total
      split_ifs <;> simp_all)
  rw [combineMetricShards, numberAt_setDefault, numberAt, hread, get?_foldl_pairs,
    (totalsOf_get? dicts key).1]
  by_cases hpaired : key ∈ (totalsOf dicts).pairedBases
  · rw [if_pos hpaired, if_pos hpaired]
    cases optSum (numbers dicts key) with
    | none => rfl
    | some total => simp
  · rw [if_neg hpaired, if_neg hpaired, Dict.get?_empty]
    cases optSum (numbers dicts key) with
    | none => simp
    | some total =>
      by_cases hhalf : (totalsOf dicts).isHalf key = true
      · simp [hhalf]
      · simp [hhalf]

end Shards

end Numbers

end ArcticPlatform.Metrics
