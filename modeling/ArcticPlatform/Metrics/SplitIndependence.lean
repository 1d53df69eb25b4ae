import ArcticPlatform.Metrics.Combiners
import ArcticPlatform.Library.Results

/-!
# Metrics and how a batch is split

The packed microbatches of a batch are distributed over calls and ranks, and their
metrics go through the three combiners.  Every packed microbatch then has a share of
each key: one for a summed metric, and else what the weighted means on the way leave of
it.

Main results:

- Theorem `combineStep_numbers`: the combined numbers, by the shares.
- Theorem `aggregates_iff`: a split gives all totals and all token means exactly
  when the two halves of each pair have one share everywhere.
-/

namespace ArcticPlatform.Metrics

open Dicts Results List Function

variable {ι ω : Type} (declared : Key → Bool)

/-! ## The three levels -/

/-- The packed microbatches of one call, with their reporting weights. -/
abbrev Call (ι : Type) := List (ι × ℚ)

/-- The metrics of one call. -/
def combineCall (metrics : ι → MetricDict ω) (call : Call ι) : Except MixedKeys (MetricDict ω) := do
  let out ← combinePackedMetrics declared (call.map fun p => metrics p.1) (call.map (·.2))
  .ok (out.mapValues fun _ x => .number x)

/-- The metrics of one rank, from its calls. -/
def combineRank (metrics : ι → MetricDict ω) (rank : List (Call ι)) :
    Except MixedKeys (MetricDict ω) := do
  let calls ← rank.mapM (combineCall declared metrics)
  .ok (combineMetricMicrobatches declared calls)

/-- The metrics of all ranks. -/
def combineStep (metrics : ι → MetricDict ω) (split : List (List (Call ι))) :
    Except MixedKeys (MetricDict ω) := do
  let ranks ← split.mapM (combineRank declared metrics)
  .ok (combineMetricShards declared ranks)

/-! ## Families of metrics -/

/-- The keys of each packed microbatch, of which some are numbers, and the values of these. -/
def fill (shape : ι → Dict Key (Option ω)) (values : ι → Key → ℚ) (i : ι) : MetricDict ω :=
  (shape i).mapValues fun key x => x.elim (.number (values i key)) .other

variable (shape : ι → Dict Key (Option ω)) (values : ι → Key → ℚ)

/-- A packed microbatch emits a number for a key. -/
def emits (key : Key) (i : ι) : Bool :=
  match (shape i).get? key with
  | some none => true
  | _ => false

/-- The packed microbatches of a split that emit a number for a key. -/
def emitters (key : Key) (split : List (List (Call ι))) : List ι :=
  (split.flatten.flatten.filter fun p => emits shape key p.1).map (·.1)

/-- The sum of all values of a key. -/
def total (key : Key) (split : List (List (Call ι))) : ℚ :=
  ((emitters shape key split).map fun i => values i key).sum

/-- A key is half of a pair that the split has. -/
def IsPairHalf (key : Key) (split : List (List (Call ι))) : Prop :=
  ∃ base, (key = base ++ pairSumSuffix ∨ key = base ++ pairTokensSuffix) ∧
    emitters shape (base ++ pairSumSuffix) split ≠ []

/-- The combined metrics have the token mean of every pair and the total of every summed metric. -/
def Aggregates (split : List (List (Call ι))) : Prop :=
  ∃ out, combineStep declared (fill shape values) split = .ok out ∧
    (∀ base, emitters shape (base ++ pairSumSuffix) split ≠ [] →
      numberAt out base = some (if 0 < total shape values (base ++ pairTokensSuffix) split then
        total shape values (base ++ pairSumSuffix) split /
          total shape values (base ++ pairTokensSuffix) split else 0)) ∧
    ∀ key, metricIsSummed declared key = true → emitters shape key split ≠ [] →
      ¬IsPairHalf shape key split → numberAt out key = some (total shape values key split)

/-! ## Shares -/

/-- The weight that a packed microbatch has in its call. -/
def usedWeight (call : Call ι) (p : ι × ℚ) : ℚ :=
  if (call.map (·.2)).sum = 0 then 1 else p.2

/-- The weight of a call. -/
def usedTotal (call : Call ι) : ℚ :=
  if (call.map (·.2)).sum = 0 then (if call.length = 0 then 1 else call.length)
  else (call.map (·.2)).sum

/-- What a number of a packed microbatch counts in its call. -/
def callShare (key : Key) (call : Call ι) (p : ι × ℚ) : ℚ :=
  if metricIsSummed declared key then 1
  else
    let weight := ((call.filter fun p => emits shape key p.1).map (usedWeight call)).sum
    usedWeight call p / if weight ≠ 0 then weight else usedTotal call

/-- The shares of a key in a call. -/
def callShares (key : Key) (call : Call ι) : List (ι × ℚ) :=
  (call.filter fun p => emits shape key p.1).map fun p => (p.1, callShare declared shape key call p)

/-- Some call emits a number for a key. -/
def emitted (key : Key) (rank : List (Call ι)) : Bool :=
  rank.any fun call => call.any fun p => emits shape key p.1

/-- What a number of a call counts in its rank. -/
def rankShare (key : Key) (rank : List (Call ι)) : ℚ :=
  let bases := (baseOf pairSumSuffix key).toList ++ (baseOf pairTokensSuffix key).toList
  if (bases.any fun base => emitted shape (base ++ pairSumSuffix) rank &&
      emitted shape (base ++ pairTokensSuffix) rank) || metricIsSummed declared key then 1
  else 1 / (rank.filter fun call => call.any fun p => emits shape key p.1).length

/-- The shares of a key in a rank. -/
def rankShares (key : Key) (rank : List (Call ι)) : List (ι × ℚ) :=
  (rank.flatMap (callShares declared shape key)).map fun q =>
    (q.1, rankShare declared shape key rank * q.2)

/-- The shares of a key. -/
def shares (key : Key) (split : List (List (Call ι))) : List (ι × ℚ) :=
  split.flatMap (rankShares declared shape key)

/-- The shares of both halves of each pair are one and the same, no call mixes a rate key with its
sum pair, and no summed metric has the name of a pair. -/
structure EvenSplit (split : List (List (Call ι))) : Prop where
  noMix : ∀ rank ∈ split, ∀ call ∈ rank, NoMix (call.flatMap fun p => (shape p.1).keys)
  even : ∀ base, emitters shape (base ++ pairSumSuffix) split ≠ [] → ∃ c, 0 < c ∧
    ∀ q ∈ shares declared shape (base ++ pairSumSuffix) split ++
      shares declared shape (base ++ pairTokensSuffix) split, q.2 = c
  names : ∀ base, emitters shape (base ++ pairSumSuffix) split ≠ [] →
    metricIsSummed declared base = true → emitters shape base split ≠ [] →
    IsPairHalf shape base split

/-! ## Numbers by shares -/

/-- The numbers of a rank's calls. -/
def HasNumbers (rank : List (Call ι)) (mds : List (MetricDict ω)) : Prop :=
  ∀ key, numbers mds key = rank.filterMap fun call =>
    optSum ((callShares declared shape key call).map fun q => q.2 * values q.1 key)

section Numbers

variable {shape values} {key : Key}

theorem keys_fill (i : ι) : (fill shape values i).keys = (shape i).keys := by
  simp [fill, Dict.keys, Dict.mapValues]

theorem numberAt_fill (i : ι) :
    numberAt (fill shape values i) key = if emits shape key i then some (values i key) else none := by
  rw [numberAt, fill, Dict.get?_mapValues, emits]
  cases (shape i).get? key with
  | none => rfl
  | some x =>
    cases x with
    | none => rfl
    | some y => rfl

theorem optSum_map_mul (xs : List ℚ) (r : ℚ) :
    optSum (xs.map (r * ·)) = (optSum xs).map (r * ·) := by
  cases xs with
  | nil => rfl
  | cons x xs =>
    rw [optSum_of_ne (by simp), optSum_of_ne (by simp), sum_map_mul_left, map_id', Option.map_some]

theorem optSum_filterMap {α M : Type} [AddCommMonoid M] (l : List α) (c : α → List M) :
    optSum (l.filterMap fun x => optSum (c x)) = optSum (l.flatMap c) := by
  have hsum : ∀ l : List α, (l.filterMap fun x => optSum (c x)).sum = (l.flatMap c).sum := by
    intro l
    induction l with
    | nil => rfl
    | cons x l ih =>
      rw [flatMap_cons, sum_append, ← ih, filterMap_cons]
      by_cases hx : c x = []
      · simp [hx, optSum]
      · rw [optSum_of_ne hx]
        simp
  have hnil : (l.filterMap fun x => optSum (c x)) = [] ↔ l.flatMap c = [] := by
    rw [filterMap_eq_nil_iff, flatMap_eq_nil_iff]
    simp only [optSum_eq_none]
  by_cases hl : l.flatMap c = []
  · rw [optSum_eq_none.mpr hl, optSum_eq_none.mpr (hnil.mpr hl)]
  · rw [optSum_of_ne hl, optSum_of_ne (fun h => hl (hnil.mp h)), hsum]

theorem packedWeights_call (call : Call ι) :
    packedWeights call.length (call.map (·.2)) = (call.map (usedWeight call), usedTotal call) := by
  rw [packedWeights]
  by_cases hzero : (call.map (·.2)).sum = 0
  · have hones : call.map (usedWeight call) = List.replicate call.length 1 := by
      rw [← map_const']
      apply map_congr_left
      intro p _
      rw [usedWeight, if_pos hzero]
    rw [if_pos hzero, usedTotal, if_pos hzero, hones]
  · have hweights : call.map (usedWeight call) = call.map (·.2) := by
      apply map_congr_left
      intro p _
      rw [usedWeight, if_neg hzero]
    rw [if_neg hzero, usedTotal, if_neg hzero, hweights]

theorem weighted_call (call : Call ι) (f : ι × ℚ → ℚ) :
    weighted ((call.map fun p => fill shape values p.1).zip (call.map f)) key =
      (call.filter fun p => emits shape key p.1).map fun p => (values p.1 key, f p) := by
  rw [zip_map', weighted, filterMap_map]
  induction call with
  | nil => rfl
  | cons p call ih =>
    rw [filterMap_cons, filter_cons, comp_apply, numberAt_fill]
    cases emits shape key p.1 with
    | true =>
      simp only [if_true, Option.map_some, map_cons]
      rw [ih]
    | false =>
      simp only [Bool.false_eq_true, if_false, Option.map_none]
      exact ih

theorem combineCall_numbers (values : ι → Key → ℚ) {call : Call ι}
    (h : NoMix (call.flatMap fun p => (shape p.1).keys)) :
    ∃ md, combineCall declared (fill shape values) call = .ok md ∧ ∀ key, numberAt md key =
        optSum ((callShares declared shape key call).map fun q => q.2 * values q.1 key) := by
  have hmix : NoMix ((call.map fun p => fill shape values p.1).flatMap (·.keys)) := by
    rw [flatMap_map]
    simpa only [keys_fill] using h
  obtain ⟨out, hout, hget⟩ := combinePackedMetrics_get? declared (call.map (·.2)) hmix
  refine ⟨_, by rw [combineCall, hout, bind_ok], ?_⟩
  intro key
  have hnumber : numberAt (out.mapValues fun _ x => (.number x : MetricValue ω)) key = out.get? key := by
    rw [numberAt, Dict.get?_mapValues]
    cases out.get? key with
    | none => rfl
    | some x => rfl
  rw [hnumber, hget key]
  simp only [length_map, packedWeights_call, weighted_call, map_map, comp_def, callShares]
  by_cases hsummed : metricIsSummed declared key = true
  · simp only [hsummed, if_true, callShare, one_mul]
  · simp only [hsummed, Bool.false_eq_true, if_false, callShare]
    set d := if ((call.filter fun p => emits shape key p.1).map fun p => usedWeight call p).sum ≠ 0 then
      ((call.filter fun p => emits shape key p.1).map fun p => usedWeight call p).sum
      else usedTotal call with hd
    have hscale : ((call.filter fun p => emits shape key p.1).map fun p =>
        usedWeight call p / d * values p.1 key) =
        ((call.filter fun p => emits shape key p.1).map fun p =>
          values p.1 key * usedWeight call p).map (d⁻¹ * ·) := by
      rw [map_map]
      apply map_congr_left
      intro p _
      rw [comp_apply]
      ring
    rw [hscale, optSum_map_mul]
    congr 1
    funext x
    rw [div_eq_inv_mul]

theorem callShares_eq_nil {call : Call ι} :
    callShares declared shape key call = [] ↔ (call.any fun p => emits shape key p.1) = false := by
  rw [callShares, map_eq_nil_iff, filter_eq_nil_iff, any_eq_false]

section Rank

variable {rank : List (Call ι)} {mds : List (MetricDict ω)}

variable {declared}

section

variable (h : HasNumbers declared shape values rank mds)
include h

theorem HasNumbers.ne_nil (key : Key) : numbers mds key ≠ [] ↔ emitted shape key rank = true := by
  rw [h key, ne_eq, filterMap_eq_nil_iff, emitted, any_eq_true]
  simp only [optSum_eq_none, map_eq_nil_iff, callShares_eq_nil]
  push Not
  simp only [ne_eq, Bool.not_eq_false]

theorem HasNumbers.length (key : Key) :
    (numbers mds key).length =
      (rank.filter fun call => call.any fun p => emits shape key p.1).length := by
  rw [h key, length_filterMap_eq_countP, countP_eq_length_filter]
  congr 1
  apply filter_congr
  intro call _
  rw [Bool.eq_iff_iff, ← Option.ne_none_iff_isSome, ne_eq, optSum_eq_none, map_eq_nil_iff,
    callShares_eq_nil, Bool.not_eq_false]

theorem HasNumbers.isHalf (key : Key) :
    IsHalf mds key ↔ (((baseOf pairSumSuffix key).toList ++
      (baseOf pairTokensSuffix key).toList).any fun base =>
        emitted shape (base ++ pairSumSuffix) rank &&
          emitted shape (base ++ pairTokensSuffix) rank) = true := by
  rw [IsHalf, any_eq_true]
  simp only [h.ne_nil, mem_append, Option.mem_toList, baseOf_eq_some, Bool.and_eq_true]

theorem HasNumbers.combine (key : Key) :
    numberAt (combineMetricMicrobatches declared mds) key =
      optSum ((rankShares declared shape key rank).map fun q => q.2 * values q.1 key) := by
  have hshares : ((rankShares declared shape key rank).map fun q => q.2 * values q.1 key) =
      (rank.flatMap fun call => (callShares declared shape key call).map fun q =>
        q.2 * values q.1 key).map (rankShare declared shape key rank * ·) := by
    rw [rankShares, map_map, ← map_flatMap, map_map]
    apply map_congr_left
    intro q _
    exact mul_assoc _ _ _
  rw [combineMetricMicrobatches_numberAt, hshares, optSum_map_mul, ← optSum_filterMap, ← h key]
  congr 1
  funext total
  rw [rankShare, h.length key]
  simp only [h.isHalf key, Bool.or_eq_true]
  split_ifs
  · rw [one_mul]
  · rw [one_div_mul_eq_div]

end

end Rank

theorem combineRank_numbers (values : ι → Key → ℚ) {rank : List (Call ι)}
    (h : ∀ call ∈ rank, NoMix (call.flatMap fun p => (shape p.1).keys)) :
    ∃ md, combineRank declared (fill shape values) rank = .ok md ∧ ∀ key, numberAt md key =
      optSum ((rankShares declared shape key rank).map fun q => q.2 * values q.1 key) := by
  have hcalls := fun call hcall => combineCall_numbers declared values (h call hcall)
  have : Nonempty (MetricDict ω) := ⟨Dict.empty⟩
  choose! md hmd hnumbers using hcalls
  have hmapM := mapM_ok hmd
  refine ⟨_, by rw [combineRank, hmapM, bind_ok], ?_⟩
  apply HasNumbers.combine
  intro key
  rw [numbers, filterMap_map]
  apply filterMap_congr
  intro call hcall
  exact hnumbers call hcall key

/-- The numbers of all ranks add up by the shares. -/
theorem combineStep_numbers (values : ι → Key → ℚ) {split : List (List (Call ι))}
    (h : ∀ rank ∈ split, ∀ call ∈ rank, NoMix (call.flatMap fun p => (shape p.1).keys)) :
    ∃ mds, combineStep declared (fill shape values) split = .ok (combineMetricShards declared mds) ∧
      ∀ key, optSum (numbers mds key) =
        optSum ((shares declared shape key split).map fun q => q.2 * values q.1 key) := by
  have hranks := fun rank hrank => combineRank_numbers declared values (h rank hrank)
  have : Nonempty (MetricDict ω) := ⟨Dict.empty⟩
  choose! md hmd hnumbers using hranks
  have hmapM := mapM_ok hmd
  refine ⟨split.map md, by rw [combineStep, hmapM, bind_ok], ?_⟩
  intro key
  have hlist : numbers (split.map md) key = split.filterMap fun rank =>
      optSum ((rankShares declared shape key rank).map fun q => q.2 * values q.1 key) := by
    rw [numbers, filterMap_map]
    apply filterMap_congr
    intro rank hrank
    exact hnumbers rank hrank key
  rw [hlist, optSum_filterMap, ← map_flatMap, shares]

end Numbers

/-! ## Totals by shares -/

section Totals

variable {shape values} {declared} {split : List (List (Call ι))} {key base : Key}

theorem emitters_eq : emitters shape key split = split.flatMap fun rank => rank.flatMap fun call =>
    (call.filter fun p => emits shape key p.1).map (·.1) := by
  induction split with
  | nil => rfl
  | cons rank split ih =>
    rw [flatMap_cons, ← ih, emitters, emitters, flatten_cons, flatten_append,
      filter_append, map_append]
    congr 1
    induction rank with
    | nil => rfl
    | cons call rank ih =>
      rw [flatten_cons, filter_append, map_append, flatMap_cons, ih]

theorem map_fst_shares (declared : Key → Bool) :
    (shares declared shape key split).map (·.1) = emitters shape key split := by
  rw [emitters_eq, shares, map_flatMap]
  apply flatMap_congr
  intro rank _
  rw [rankShares, map_map, map_flatMap]
  apply flatMap_congr
  intro call _
  rw [callShares, map_map]
  rfl

theorem shares_eq_nil : shares declared shape key split = [] ↔ emitters shape key split = [] := by
  rw [← map_fst_shares declared, map_eq_nil_iff]

/-- The sum of the values, each with its share. -/
def shareTotal (declared : Key → Bool) (shape : ι → Dict Key (Option ω)) (values : ι → Key → ℚ)
    (key : Key) (split : List (List (Call ι))) : ℚ :=
  ((shares declared shape key split).map fun q => q.2 * values q.1 key).sum

theorem shareTotal_of_even {c : ℚ} (h : ∀ q ∈ shares declared shape key split, q.2 = c) :
    shareTotal declared shape values key split = c * total shape values key split := by
  have hconst : ((shares declared shape key split).map fun q => q.2 * values q.1 key) =
      (shares declared shape key split).map fun q => c * values q.1 key :=
    map_congr_left fun q hq => by rw [h q hq]
  rw [shareTotal, hconst, sum_map_mul_left, total, ← map_fst_shares declared, map_map]
  rfl

theorem combineStep_isOk (declared : Key → Bool) (values : ι → Key → ℚ)
    (h : ∀ rank ∈ split, ∀ call ∈ rank, NoMix (call.flatMap fun p => (shape p.1).keys)) :
    ∃ out, combineStep declared (fill shape values) split = .ok out ∧
      (∀ base, emitters shape (base ++ pairSumSuffix) split ≠ [] →
        emitters shape (base ++ pairTokensSuffix) split ≠ [] → numberAt out base = some
          (if 0 < shareTotal declared shape values (base ++ pairTokensSuffix) split then
            shareTotal declared shape values (base ++ pairSumSuffix) split /
              shareTotal declared shape values (base ++ pairTokensSuffix) split else 0)) ∧
      ∀ key, metricIsSummed declared key = true → emitters shape key split ≠ [] →
        ¬IsPairHalf shape key split → emitters shape (key ++ pairSumSuffix) split = [] →
        numberAt out key = some (shareTotal declared shape values key split) := by
  obtain ⟨mds, hmds, hsum⟩ := combineStep_numbers declared values h
  have hne : ∀ key, numbers mds key ≠ [] ↔ emitters shape key split ≠ [] := by
    intro key
    rw [ne_eq, ← optSum_eq_none, hsum key, optSum_eq_none, map_eq_nil_iff, shares_eq_nil]
  have htotal : ∀ key, emitters shape key split ≠ [] →
      optSum (numbers mds key) = some (shareTotal declared shape values key split) := by
    intro key hkey
    rw [hsum key, optSum_of_ne, shareTotal]
    rw [ne_eq, map_eq_nil_iff, shares_eq_nil]
    exact hkey
  refine ⟨_, hmds, ?_, ?_⟩
  · intro base hbase htokens
    rw [combineMetricShards_numberAt,
      if_pos (mem_pairedBases.mpr ⟨(hne _).mpr hbase, (hne _).mpr htokens⟩), Totals.pairMean,
      (totalsOf_get? mds _).1, (totalsOf_get? mds _).1, htotal _ hbase, htotal _ htokens]
    rfl
  · intro key hsummed hkey hhalf hpair
    have hnot : key ∉ (totalsOf mds).pairedBases := by
      rw [mem_pairedBases, hne, hpair]
      exact fun hboth => hboth.1 rfl
    have hwhole : (totalsOf mds).isHalf key ≠ true := by
      rw [ne_eq, isHalf_iff]
      rintro ⟨base, hbase, hsum, -⟩
      exact hhalf ⟨base, hbase, (hne _).mp hsum⟩
    rw [combineMetricShards_numberAt, if_neg hnot, if_neg hwhole, htotal key hkey, Option.map_some,
      if_pos hsummed]

/-! ## Which splits give the totals -/

theorem emitters_tokens_ne_nil
    (hpaired : ∀ i base, emits shape (base ++ pairSumSuffix) i = true →
      emits shape (base ++ pairTokensSuffix) i = true)
    (hbase : emitters shape (base ++ pairSumSuffix) split ≠ []) :
    emitters shape (base ++ pairTokensSuffix) split ≠ [] := by
  obtain ⟨i, hi⟩ := exists_mem_of_ne_nil _ hbase
  obtain ⟨p, hp, rfl⟩ := mem_map.mp hi
  obtain ⟨hmem, hemits⟩ := mem_filter.mp hp
  exact ne_nil_of_mem
    (mem_map.mpr ⟨p, mem_filter.mpr ⟨hmem, hpaired _ _ hemits⟩, rfl⟩)

theorem EvenSplit.aggregates (h : EvenSplit declared shape split)
    (hpaired : ∀ i base, emits shape (base ++ pairSumSuffix) i = true →
      emits shape (base ++ pairTokensSuffix) i = true)
    (values : ι → Key → ℚ) : Aggregates declared shape values split := by
  obtain ⟨out, hout, hpairs, hsummed⟩ := combineStep_isOk declared values h.noMix
  refine ⟨out, hout, ?_, ?_⟩
  · intro base hbase
    have htokens := emitters_tokens_ne_nil hpaired hbase
    obtain ⟨c, hc, heven⟩ := h.even base hbase
    rw [hpairs base hbase htokens, shareTotal_of_even fun q hq => heven q (mem_append_left _ hq),
      shareTotal_of_even fun q hq => heven q (mem_append_right _ hq)]
    simp only [mul_pos_iff_of_pos_left hc, mul_div_mul_left _ _ hc.ne']
  · intro key hkey hne hhalf
    have hpair : emitters shape (key ++ pairSumSuffix) split = [] := by
      by_contra hsum
      exact hhalf (h.names key hsum hkey hne)
    have hone : ∀ q ∈ shares declared shape key split, q.2 = 1 := by
      intro q hq
      obtain ⟨rank, -, hq⟩ := mem_flatMap.mp hq
      obtain ⟨q', hq', rfl⟩ := mem_map.mp hq
      obtain ⟨call, -, hq'⟩ := mem_flatMap.mp hq'
      obtain ⟨p, -, rfl⟩ := mem_map.mp hq'
      simp [rankShare, callShare, hkey]
    rw [hsummed key hkey hne hhalf hpair, shareTotal_of_even hone, one_mul]

theorem sum_map_pick [DecidableEq ι] {l : List (ι × ℚ)} (hnodup : (l.map (·.1)).Nodup)
    (f : ι × ℚ → ℚ) {q : ι × ℚ} (hq : q ∈ l) :
    (l.map fun p => f p * if p.1 = q.1 then 1 else 0).sum = f q := by
  induction l with
  | nil => cases hq
  | cons p l ih =>
    rw [map_cons, nodup_cons] at hnodup
    rw [map_cons, sum_cons]
    rcases mem_cons.mp hq with rfl | hq
    · have hrest : (l.map fun p => f p * if p.1 = q.1 then 1 else 0) = l.map fun _ => 0 := by
        apply map_congr_left
        intro p hp
        rw [if_neg, mul_zero]
        rintro hpq
        exact hnodup.1 (hpq ▸ mem_map.mpr ⟨p, hp, rfl⟩)
      rw [hrest, if_pos rfl]
      simp
    · rw [ih hnodup.2 hq, if_neg, mul_zero, zero_add]
      rintro hpq
      exact hnodup.1 (hpq ▸ mem_map.mpr ⟨q, hq, rfl⟩)

section Necessary

variable [DecidableEq ι] (hnodup : (split.flatten.flatten.map (·.1)).Nodup)
include hnodup

omit [DecidableEq ι] in
theorem nodup_emitters : (emitters shape key split).Nodup := hnodup.sublist (filter_sublist.map _)

theorem total_pick {i : ι} (hi : i ∈ emitters shape key split)
    (hvalues : ∀ j, values j key = if j = i then 1 else 0) :
    total shape values key split = 1 := by
  have hunit := sum_map_pick (l := (emitters shape key split).map fun j => (j, (1 : ℚ))) (by
    rw [map_map]
    simpa [comp_def] using nodup_emitters hnodup) (·.2)
    (mem_map.mpr ⟨i, hi, rfl⟩)
  simpa [total, hvalues, comp_def] using hunit

theorem shareTotal_pick {q : ι × ℚ} (hq : q ∈ shares declared shape key split)
    (hvalues : ∀ j, values j key = if j = q.1 then 1 else 0) :
    shareTotal declared shape values key split = q.2 := by
  have hpick := sum_map_pick (by rw [map_fst_shares]; exact nodup_emitters hnodup) (·.2) hq
  simpa only [shareTotal, hvalues] using hpick

section

variable (h : ∀ values : ι → Key → ℚ, (∀ i base, 0 ≤ values i (base ++ pairTokensSuffix)) →
  Aggregates declared shape values split)
include h

/-- Where the token means come out for all values, the halves of a pair have one share. -/
theorem even_of_aggregates
    (hmix : ∀ rank ∈ split, ∀ call ∈ rank, NoMix (call.flatMap fun p => (shape p.1).keys))
    {q r : ι × ℚ} (hq : q ∈ shares declared shape (base ++ pairSumSuffix) split)
    (hr : r ∈ shares declared shape (base ++ pairTokensSuffix) split) : 0 < r.2 ∧ q.2 = r.2 := by
  have hqmem : q.1 ∈ emitters shape (base ++ pairSumSuffix) split := by
    rw [← map_fst_shares declared]
    exact mem_map.mpr ⟨q, hq, rfl⟩
  have hrmem : r.1 ∈ emitters shape (base ++ pairTokensSuffix) split := by
    rw [← map_fst_shares declared]
    exact mem_map.mpr ⟨r, hr, rfl⟩
  have hkeys : base ++ pairTokensSuffix ≠ base ++ pairSumSuffix := by
    rw [ne_eq, append_cancel_left_eq]
    decide
  -- A sum of one where `q` stands, and one token where `r` stands.
  let values : ι → Key → ℚ := fun i key =>
    if key = base ++ pairSumSuffix then (if i = q.1 then 1 else 0) else if i = r.1 then 1 else 0
  have hsum : ∀ j, values j (base ++ pairSumSuffix) = if j = q.1 then 1 else 0 := by
    intro j
    simp [values]
  have htokens : ∀ j, values j (base ++ pairTokensSuffix) = if j = r.1 then 1 else 0 := by
    intro j
    simp [values, hkeys]
  obtain ⟨out, hout, hmeans, -⟩ := h values (by
    intro i base'
    dsimp only [values]
    split_ifs <;> norm_num)
  obtain ⟨out', hout', hpairs, -⟩ := combineStep_isOk declared values hmix
  rw [hout] at hout'
  cases hout'
  have hmean := hmeans base (ne_nil_of_mem hqmem)
  rw [hpairs base (ne_nil_of_mem hqmem) (ne_nil_of_mem hrmem),
    shareTotal_pick hnodup hq hsum, shareTotal_pick hnodup hr htokens,
    total_pick hnodup hqmem hsum, total_pick hnodup hrmem htokens, if_pos one_pos, div_one,
    Option.some.injEq] at hmean
  split_ifs at hmean with hpos
  · exact ⟨hpos, (div_eq_one_iff_eq hpos.ne').mp hmean⟩
  · exact absurd hmean zero_ne_one

theorem names_of_aggregates (hbase : emitters shape (base ++ pairSumSuffix) split ≠ [])
    (hsummed : metricIsSummed declared base = true) (hne : emitters shape base split ≠ []) :
    IsPairHalf shape base split := by
  by_contra hhalf
  obtain ⟨i, hi⟩ := exists_mem_of_ne_nil _ hne
  -- A value of one for the name, and nothing else.
  let values : ι → Key → ℚ := fun j key => if key = base then (if j = i then 1 else 0) else 0
  obtain ⟨out, -, hmeans, htotals⟩ := h values (by
    intro j base'
    dsimp only [values]
    split_ifs <;> norm_num)
  have hone := htotals base hsummed hne hhalf
  have hkey : base ++ pairSumSuffix ≠ base := by
    intro heq
    have hlength := congrArg List.length heq
    rw [length_append] at hlength
    exact absurd hlength (by simp [pairSumSuffix])
  have hzero : total shape values (base ++ pairSumSuffix) split = 0 := by
    simp [total, values, hkey]
  rw [hmeans base hbase, hzero, zero_div, ite_self,
    total_pick hnodup hi fun j => by simp [values], Option.some.injEq] at hone
  exact absurd hone zero_ne_one

end

end Necessary

theorem noMix_of_combineStep {out : MetricDict ω}
    (h : combineStep declared (fill shape values) split = .ok out) :
    ∀ rank ∈ split, ∀ call ∈ rank, NoMix (call.flatMap fun p => (shape p.1).keys) := by
  intro rank hrank call hcall
  obtain ⟨ranks, hranks, -⟩ := bind_eq_ok.mp h
  obtain ⟨md, hmd⟩ := isOk_of_mapM hranks hrank
  obtain ⟨calls, hcalls, -⟩ := bind_eq_ok.mp hmd
  obtain ⟨out, hout⟩ := isOk_of_mapM hcalls hcall
  obtain ⟨packed, hpacked, -⟩ := bind_eq_ok.mp hout
  have hmix := noMix_of_ok declared hpacked
  rw [flatMap_map] at hmix
  simpa only [keys_fill] using hmix

/-- The combiners give the token mean of every pair and the total of every summed metric, whatever
the values, exactly on the splits with even shares. -/
theorem aggregates_iff (hpaired : ∀ i base, emits shape (base ++ pairSumSuffix) i = true →
      emits shape (base ++ pairTokensSuffix) i = true)
    (hnodup : (split.flatten.flatten.map (·.1)).Nodup) :
    (∀ values : ι → Key → ℚ, (∀ i base, 0 ≤ values i (base ++ pairTokensSuffix)) →
      Aggregates declared shape values split) ↔ EvenSplit declared shape split := by
  classical
  constructor
  · intro h
    have hmix : ∀ rank ∈ split, ∀ call ∈ rank, NoMix (call.flatMap fun p => (shape p.1).keys) := by
      obtain ⟨out, hout, -⟩ := h (fun _ _ => 0) fun _ _ => le_rfl
      exact noMix_of_combineStep hout
    refine ⟨hmix, ?_, fun base => names_of_aggregates hnodup h⟩
    intro base hbase
    have hsums : shares declared shape (base ++ pairSumSuffix) split ≠ [] :=
      fun hnil => hbase (shares_eq_nil.mp hnil)
    obtain ⟨q₀, hq₀⟩ := exists_mem_of_ne_nil _ hsums
    have htokens : shares declared shape (base ++ pairTokensSuffix) split ≠ [] := by
      rw [ne_eq, shares_eq_nil]
      exact emitters_tokens_ne_nil hpaired hbase
    obtain ⟨r₀, hr₀⟩ := exists_mem_of_ne_nil _ htokens
    refine ⟨r₀.2, (even_of_aggregates hnodup h hmix hq₀ hr₀).1, ?_⟩
    intro q hq
    rcases mem_append.mp hq with hq | hq
    · exact (even_of_aggregates hnodup h hmix hq hr₀).2
    · rw [← (even_of_aggregates hnodup h hmix hq₀ hq).2]
      exact (even_of_aggregates hnodup h hmix hq₀ hr₀).2
  · intro h values _
    exact h.aggregates (fun i base => hpaired i base) values

end Totals

/-! ## One pair -/

/-- A packed microbatch with the pair of one metric. -/
def pairShape : Dict Key (Option Unit) :=
  (Dict.empty.set (['l'] ++ pairSumSuffix) none).set (['l'] ++ pairTokensSuffix) none

/-- Two packed microbatches in the call of one rank, and one in the call of another. -/
def unevenSplit : List (List (Call (Fin 3))) := [[[(0, 1), (1, 1)]], [[(2, 1)]]]

/-- A sum of one for one token each, and of nothing for two tokens. -/
def unevenValues (i : Fin 3) (key : Key) : ℚ :=
  if key = ['l'] ++ pairSumSuffix then (if i = 2 then 0 else 1) else if i = 2 then 2 else 1

/-- The mean over the four tokens is a half, and the combiners give a third. -/
theorem aggregates_uneven :
    ¬Aggregates (fun _ => false) (fun _ => pairShape) unevenValues unevenSplit := by
  rintro ⟨out, hout, hmeans, -⟩
  have hmean := hmeans ['l'] (by decide)
  have hthird : (combineStep (fun _ => false) (fill (fun _ => pairShape) unevenValues)
      unevenSplit).toOption.map (fun out => numberAt out ['l']) = some (some (1 / 3)) := by
    decide +kernel
  rw [hout] at hthird
  have hhalf : (if 0 < total (fun _ => pairShape) unevenValues (['l'] ++ pairTokensSuffix) unevenSplit
      then total (fun _ => pairShape) unevenValues (['l'] ++ pairSumSuffix) unevenSplit /
        total (fun _ => pairShape) unevenValues (['l'] ++ pairTokensSuffix) unevenSplit else 0) =
      1 / 2 := by
    decide +kernel
  rw [hhalf] at hmean
  have hnumber : numberAt out ['l'] = some (1 / 3) := Option.some.inj hthird
  rw [hmean, Option.some.injEq] at hnumber
  norm_num at hnumber

theorem pairShape_paired (base : Key) (i : Fin 3)
    (h : emits (fun _ => pairShape) (base ++ pairSumSuffix) i = true) :
    emits (fun _ => pairShape) (base ++ pairTokensSuffix) i = true := by
  have hne : base ++ pairSumSuffix ≠ ['l'] ++ pairTokensSuffix := by
    intro heq
    have hlast := congrArg List.getLast? heq
    simp [pairSumSuffix, pairTokensSuffix] at hlast
  by_cases hbase : base = ['l']
  · subst hbase
    exact (by decide : emits (fun _ : Fin 3 => pairShape) (['l'] ++ pairTokensSuffix) 0 = true)
  · have hsum : base ++ pairSumSuffix ≠ ['l'] ++ pairSumSuffix := by
      rwa [ne_eq, append_cancel_right_eq]
    have hget : pairShape.get? (base ++ pairSumSuffix) = none := by
      rw [pairShape, Dict.get?_set, if_neg hne, Dict.get?_set, if_neg hsum, Dict.get?_empty]
    simp [emits, hget] at h

/-- The pair of one metric on the uneven split. -/
theorem aggregates_iff_uneven : (∀ values : Fin 3 → Key → ℚ,
      (∀ i base, 0 ≤ values i (base ++ pairTokensSuffix)) →
      Aggregates (fun _ => false) (fun _ => pairShape) values unevenSplit) ↔
    EvenSplit (fun _ => false) (fun _ => pairShape) unevenSplit :=
  aggregates_iff (fun i base => pairShape_paired base i) (by decide)

end ArcticPlatform.Metrics
