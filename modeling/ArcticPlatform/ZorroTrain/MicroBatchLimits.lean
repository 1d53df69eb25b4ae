import ArcticPlatform.ZorroTrain.MicroBatches

/-!
# ZoRRoTrain: the limits of microbatches

The greedy packing is a list schedule of the pieces.  The recorded groups of a microbatch are small
when the schedule keeps the pieces of every prompt apart, and the number of microbatches is the
number of machines that the schedule uses.

Main results:

- Theorem `packMicroBatches_spec`: what one rank returns.
- Theorem `limitsKept_iff`: exactly when the microbatches keep their limits.
-/

namespace ArcticPlatform.ZorroTrain

open Bins Dicts ListScheduling Results Slices List
open Option hiding forall_mem_map map_id map_map mem_map min_le_left

variable {ι : Type} [DecidableEq ι]

/-! ## What microbatches owe -/

/-- The index lists partition the rows, no recorded group is larger than the threshold, and all
ranks return the same number of microbatches. -/
structure LimitsKept (threshold : Nat) (ranks : List (Batch ι))
    (results : List (List (MicroBatch ι) × List (List Nat))) : Prop where
  partition : ∀ e ∈ ranks.zip results, e.2.2.flatten.Perm (range e.1.size)
  groups : ∀ r ∈ results, ∀ micro ∈ r.1, ∀ group ∈ micro.promptGroups, group.length ≤ threshold
  counts : ∀ r ∈ results, ∀ r' ∈ results, r.1.length = r'.1.length

/-- The pieces, the costliest first. -/
def costliestFirst (threshold : Nat) (b : Batch ι) : List (List Nat) :=
  (pieces threshold b).mergeSort fun x y => decide (groupCost b y ≤ groupCost b x)

/-- The list schedule of the pieces on some machines keeps the pieces of every prompt apart. -/
def PiecesApart (threshold : Nat) (b : Batch ι) (machines : Nat) : Prop :=
  (((costliestFirst threshold b).map (piecePrompt b)).zip
    (schedule (replicate machines 0) ((costliestFirst threshold b).map (groupCost b)))).Nodup

/-- The machines that the pieces use. -/
def piecesUse (threshold : Nat) (b : Batch ι) (machines : Nat) : Nat :=
  machinesUsed machines ((pieces threshold b).map (groupCost b))

/-- The numbers of microbatches that the ranks agree on for their pieces. -/
def pieceCounts (o : Options) (threshold : Nat) (ranks : List (Batch ι)) : Option (List Int) := do
  let counts ← ranks.mapM fun b =>
    numMicroBatches o (pieces threshold b).length ((pieces threshold b).map (groupCost b)).sum
  agreedCounts o counts

/-! ## One rank -/

section OneRank

variable {b : Batch ι} {threshold : Nat}

theorem createMicroBatch_spec (hpos : 0 < threshold) {bin : List (List Nat)}
    (hbin : bin.Subperm (pieces threshold b)) {micro : MicroBatch ι} {indices : List Nat}
    (h : createMicroBatch b bin = some (micro, indices)) :
    indices = bin.flatten.mergeSort ∧ ((∀ group ∈ micro.promptGroups, group.length ≤ threshold) ↔
        (bin.map (piecePrompt b)).Nodup) := by
  obtain ⟨⟨groups, unique⟩, hgroups, h⟩ := bind_eq_some_iff.mp h
  obtain ⟨⟨packed, info⟩, hinfo, h⟩ := bind_eq_some_iff.mp h
  dsimp only at h
  split_ifs at h
  obtain ⟨rfl, rfl⟩ := Prod.mk.inj (some.inj h)
  refine ⟨rfl, ?_⟩
  have hperm := mergeSort_perm bin.flatten (· ≤ ·)
  have hlt : ∀ i ∈ bin.flatten.mergeSort, i < b.size := by
    intro i hi
    obtain ⟨piece, hpiece, hi⟩ := mem_flatten.mp (hperm.mem_iff.mp hi)
    have hmem := mem_flatten.mpr ⟨piece, hbin.subset hpiece, hi⟩
    exact mem_range.mp ((flatten_pieces_perm hpos b).mem_iff.mp hmem)
  rw [← count_bin_le_iff hpos hbin, findPromptGroups_eq hgroups, length_promptGroups_le_iff,
    prompts_pick hlt]
  refine forall_congr' fun prompt => ?_
  rw [(hperm.map b.prompt).count_eq]

theorem mergeSort_costs (b : Batch ι) (threshold : Nat) :
    (((pieces threshold b).map fun piece => (groupCost b piece, piece)).mergeSort
      fun x y => decide (y.1 ≤ x.1)) =
      (costliestFirst threshold b).map fun piece => (groupCost b piece, piece) := by
  rw [costliestFirst, map_mergeSort]
  exact fun _ _ _ _ => rfl

theorem costliestFirst_perm (threshold : Nat) (b : Batch ι) :
    (costliestFirst threshold b).Perm (pieces threshold b) := mergeSort_perm _ _

theorem costs_pairwise (threshold : Nat) (b : Batch ι) :
    ((costliestFirst threshold b).map (groupCost b)).Pairwise (· ≥ ·) := by
  rw [pairwise_map]
  refine (pairwise_mergeSort ?_ ?_ _).imp fun h => of_decide_eq_true h
  · intro x y z hxy hyz
    simp only [decide_eq_true_eq] at hxy hyz ⊢
    omega
  · intro x y
    simp only [Bool.or_eq_true, decide_eq_true_eq]
    omega

/-- The bins of the list schedule. -/
def scheduledBins (threshold : Nat) (b : Batch ι) (machines : Nat) : List (List (List Nat)) :=
  (range machines).map (onMachine (costliestFirst threshold b)
    (schedule (replicate machines 0) ((costliestFirst threshold b).map (groupCost b))))

variable {machines : Nat}

theorem scheduledBins_flatten_perm (threshold : Nat) (b : Batch ι) (hmachines : 0 < machines) :
    (scheduledBins threshold b machines).flatten.Perm (pieces threshold b) := by
  have hlt := schedule_lt (replicate machines 0)
    ((costliestFirst threshold b).map (groupCost b)) (by simpa using hmachines)
  rw [length_replicate] at hlt
  rw [scheduledBins, ← flatMap_def]
  exact (flatMap_onMachine_perm _ (by simp) hlt).trans (costliestFirst_perm threshold b)

theorem foldlM_place_pieces (threshold : Nat) (b : Batch ι) (hmachines : 0 < machines) :
    ∃ costs, (((pieces threshold b).map fun piece => (groupCost b piece, piece)).mergeSort
        fun x y => decide (y.1 ≤ x.1)).foldlM place
        (replicate machines [], replicate machines 0) =
        some (scheduledBins threshold b machines, costs) ∧ costs.length = machines := by
  rw [mergeSort_costs]
  obtain ⟨bins, costs, hrun, hbins, hcosts, hbin⟩ := foldlM_place
    (replicate machines []) (replicate machines 0)
    ((costliestFirst threshold b).map fun piece => (groupCost b piece, piece)) (by simp)
    (by simpa using hmachines)
  rw [length_replicate] at hbins hcosts hbin
  have hsame : bins = scheduledBins threshold b machines := by
    apply ext_getElem
    · rw [hbins, scheduledBins, length_map, length_range]
    · intro i hi hi'
      have hget := hbin i (hbins ▸ hi)
      rw [getD_eq_getElem?_getD, getElem?_eq_getElem hi, getD_some] at hget
      rw [hget]
      simp [scheduledBins, map_map, Function.comp_def, getD_eq_getElem?_getD, hbins ▸ hi]
  exact ⟨costs, hsame ▸ hrun, hcosts⟩

theorem piecesApart_iff (hmachines : 0 < machines) :
    PiecesApart threshold b machines ↔
      ∀ bin ∈ scheduledBins threshold b machines, (bin.map (piecePrompt b)).Nodup := by
  have hlt := schedule_lt (replicate machines 0)
    ((costliestFirst threshold b).map (groupCost b)) (by simpa using hmachines)
  rw [length_replicate] at hlt
  rw [PiecesApart, nodup_zip_iff _ hlt, scheduledBins, forall_mem_map]
  simp only [mem_range, onMachine_map]

theorem countP_scheduledBins (hmachines : 0 < machines) :
    (scheduledBins threshold b machines).countP (· ≠ []) = piecesUse threshold b machines := by
  have hused : ∀ i, onMachine (costliestFirst threshold b) (schedule (replicate machines 0)
      ((costliestFirst threshold b).map (groupCost b))) i ≠ [] ↔
      i < piecesUse threshold b machines := by
    intro i
    rw [onMachine_ne_nil (by simp), mem_schedule_iff hmachines (costs_pairwise threshold b),
      piecesUse, machinesUsed_perm ((costliestFirst_perm threshold b).map (groupCost b))]
  have hle : piecesUse threshold b machines ≤ machines := min_le_left _ _
  rw [scheduledBins, countP_map]
  rw [countP_congr (q := fun i => decide (i < piecesUse threshold b machines))
    fun i _ => by simpa using hused i]
  exact countP_range_lt hle

/-- What one rank returns. -/
theorem packMicroBatches_spec (hpos : 0 < threshold) {n : Int}
    {micros : List (MicroBatch ι)} {indices : List (List Nat)}
    (h : packMicroBatches b ((pieces threshold b).map fun piece => (groupCost b piece, piece)) n =
      some (micros, indices)) :
    indices.flatten.Perm (range b.size) ∧
      ((∀ micro ∈ micros, ∀ group ∈ micro.promptGroups, group.length ≤ threshold) ↔
        PiecesApart threshold b n.toNat) ∧ micros.length = piecesUse threshold b n.toNat := by
  obtain ⟨⟨bins, costs⟩, hbins, h⟩ := bind_eq_some_iff.mp h
  dsimp only at h
  split_ifs at h with hnil
  obtain ⟨created, hcreated, h⟩ := bind_eq_some_iff.mp h
  obtain ⟨rfl, rfl⟩ := Prod.mk.inj (some.inj h)
  rcases Nat.eq_zero_or_pos n.toNat with hzero | hmachines
  · rw [hzero] at hbins
    exact absurd (foldlM_place_nil hbins) hnil
  obtain ⟨costs', hbins', hcosts⟩ := foldlM_place_pieces threshold b hmachines
  rw [hbins'] at hbins
  obtain ⟨rfl, rfl⟩ := Prod.mk.inj (some.inj hbins)
  set bins := scheduledBins threshold b n.toNat with hdef
  have hordered : (((costs'.zip bins).mergeSort greaterFirst).map Prod.snd).Perm bins := by
    have hzip : (costs'.zip bins).map Prod.snd = bins := by
      rw [map_snd_zip]
      rw [hcosts, hdef, scheduledBins, length_map, length_range]
    exact ((mergeSort_perm _ _).map _).trans (Perm.of_eq hzip)
  set ordered := ((costs'.zip bins).mergeSort greaterFirst).map Prod.snd
  have hsubperm : ∀ bin ∈ ordered, bin.Subperm (pieces threshold b) := by
    intro bin hbin
    have hsub := sublist_flatten_of_mem (hordered.mem_iff.mp hbin)
    exact hsub.subperm.trans (scheduledBins_flatten_perm threshold b hmachines).subperm
  have hspec : ∀ bin ∈ ordered.filter (· ≠ []), ∀ y, createMicroBatch b bin = some y →
      y.2 = bin.flatten.mergeSort ∧ ((∀ group ∈ y.1.promptGroups, group.length ≤ threshold) ↔
        (bin.map (piecePrompt b)).Nodup) := by
    intro bin hbin y hy
    exact createMicroBatch_spec hpos (hsubperm bin (mem_of_mem_filter hbin)) hy
  refine ⟨?_, ?_, ?_⟩
  · have hindices := map_of_mapM_eq_some (fun bin => bin.flatten.mergeSort) Prod.snd hcreated
      fun bin hbin y hy => (hspec bin hbin y hy).1
    have hmerge : ∀ l : List (List (List Nat)),
        ((l.filter (· ≠ [])).map fun bin => bin.flatten.mergeSort).flatten.Perm l.flatten.flatten := by
      intro l
      induction l with
      | nil => exact Perm.refl _
      | cons bin l ih =>
        rw [flatten_cons, flatten_append, filter_cons]
        by_cases hbin : bin = []
        · simpa [hbin] using ih
        · rw [if_pos (by simpa using hbin), map_cons, flatten_cons]
          exact (mergeSort_perm _ _).append ih
    rw [hindices]
    refine (hmerge ordered).trans ?_
    refine (hordered.flatten.flatten).trans ?_
    exact (scheduledBins_flatten_perm threshold b hmachines).flatten.trans
      (flatten_pieces_perm hpos b)
  · rw [forall_mem_map, piecesApart_iff hmachines,
      forall_mapM_iff hcreated fun bin hbin y hy => (hspec bin hbin y hy).2]
    constructor
    · intro h bin hbin
      by_cases hempty : bin = []
      · rw [hempty]
        exact nodup_nil
      · exact h bin (mem_filter.mpr ⟨hordered.mem_iff.mpr hbin, by simpa using hempty⟩)
    · exact fun h bin hbin => h bin (hordered.mem_iff.mp (mem_of_mem_filter hbin))
  · have hlength := (forall₂_of_mapM_eq_some hcreated).length_eq
    rw [length_map, ← hlength, ← countP_eq_length_filter, hordered.countP_eq]
    exact countP_scheduledBins hmachines

end OneRank

/-! ## All ranks -/

section Ranks

variable {o : Options} {threshold : Nat} {ranks : List (Batch ι)}
  {results : List (List (MicroBatch ι) × List (List Nat))}

/-- What the ranks return, rank by rank. -/
theorem rearrange_spec (hpos : 0 < threshold)
    (hthreshold : o.maxGroupLengthThreshold = some (threshold : Int))
    (h : rearrangeMicroBatchesWithDedup o ranks = some results) :
    ∃ counts, pieceCounts o threshold ranks = some counts ∧ counts.length = ranks.length ∧
      results.length = ranks.length ∧
      ∀ (i : Nat) (b : Batch ι) (n : Int) (r : List (MicroBatch ι) × List (List Nat)),
        ranks[i]? = some b → counts[i]? = some n → results[i]? = some r →
        packMicroBatches b ((pieces threshold b).map fun piece => (groupCost b piece, piece)) n =
          some r := by
  obtain ⟨groups, hgroups, h⟩ := bind_eq_some_iff.mp h
  split_ifs at h with hsame
  obtain ⟨counts, hcounts, h⟩ := bind_eq_some_iff.mp h
  obtain ⟨agreed, hagreed, h⟩ := bind_eq_some_iff.mp h
  have hpieces : groups = ranks.map (pieces threshold) := by
    have hmap := map_of_mapM_eq_some (pieces threshold) id hgroups
      fun b _ groups hb => createPromptGroups_eq hpos hthreshold hb
    rwa [map_id] at hmap
  have hcosts : (ranks.zip groups).map (fun e => computeGroupCosts e.1 e.2) =
      ranks.map fun b => computeGroupCosts b (pieces threshold b) := by
    have hzip : ranks.zip (ranks.map (pieces threshold)) =
        ranks.map fun b => (b, pieces threshold b) := by
      conv_lhs => rw [← map_id ranks, map_map, zip_map']
      rfl
    rw [hpieces, hzip, map_map]
    rfl
  rw [hcosts] at hcounts h
  have hlength : counts.length = ranks.length := by
    simpa using (forall₂_of_mapM_eq_some hcounts).length_eq.symm
  have hlength' : agreed.length = ranks.length :=
    (forall₂_of_mapM_eq_some hagreed).length_eq.symm.trans hlength
  refine ⟨agreed, ?_, hlength', ?_, ?_⟩
  · rw [mapM_map] at hcounts
    refine bind_eq_some_iff.mpr ⟨counts, ?_, hagreed⟩
    simpa [computeGroupCosts, Function.comp_def] using hcounts
  · have hall := (forall₂_of_mapM_eq_some h).length_eq
    rw [← hall]
    simp [hlength']
  · intro i b n r hb hn hr
    have hread := congrArg (fun l : List (Option _) => l[i]?)
      (map_of_mapM_eq_some _ some h fun _ _ _ hf => hf.symm)
    have hentry : (ranks.zip ((ranks.map fun b => computeGroupCosts b (pieces threshold b)).zip
        agreed))[i]? = some (b, computeGroupCosts b (pieces threshold b), n) := by
      rw [getElem?_zip_eq_some, getElem?_zip_eq_some, getElem?_map, hb]
      exact ⟨rfl, rfl, hn⟩
    simp only [getElem?_map, hr, hentry, map_some, some.injEq] at hread
    exact hread.symm

theorem mem_zip_iff {α β : Type} {l : List α} {l' : List β} {e : α × β} :
    e ∈ l.zip l' ↔ ∃ i : Nat, l[i]? = some e.1 ∧ l'[i]? = some e.2 := by
  rw [mem_iff_getElem?]
  exact exists_congr fun i => getElem?_zip_eq_some

/-- The microbatches of all ranks keep their limits if and only if the list schedule of the pieces,
the costliest first, keeps the pieces of every prompt apart on every rank, and the schedules of all
ranks use the same number of machines. -/
theorem limitsKept_iff (hpos : 0 < threshold)
    (hthreshold : o.maxGroupLengthThreshold = some (threshold : Int))
    (h : rearrangeMicroBatchesWithDedup o ranks = some results) :
    LimitsKept threshold ranks results ↔ ∃ counts, pieceCounts o threshold ranks = some counts ∧
      (∀ e ∈ ranks.zip counts, PiecesApart threshold e.1 e.2.toNat) ∧
      ∀ e ∈ ranks.zip counts, ∀ e' ∈ ranks.zip counts,
        piecesUse threshold e.1 e.2.toNat = piecesUse threshold e'.1 e'.2.toNat := by
  obtain ⟨counts, hcounts, hlength, hlength', hrank⟩ := rearrange_spec hpos hthreshold h
  have hspec := fun i b n r hb hn hr => packMicroBatches_spec hpos (hrank i b n r hb hn hr)
  have hget : ∀ i < ranks.length, ∃ b n r, ranks[i]? = some b ∧ counts[i]? = some n ∧
      results[i]? = some r := by
    intro i hi
    exact ⟨_, _, _, getElem?_eq_getElem hi, getElem?_eq_getElem (hlength ▸ hi),
      getElem?_eq_getElem (hlength' ▸ hi)⟩
  have hlt : ∀ {α : Type} {l : List α} {i : Nat} {x : α}, l[i]? = some x → i < l.length :=
    fun hx => (List.getElem?_eq_some_iff.mp hx).1
  constructor
  · intro hlimits
    refine ⟨counts, hcounts, ?_, ?_⟩
    · intro e he
      obtain ⟨i, hb, hn⟩ := mem_zip_iff.mp he
      obtain ⟨_, _, r, -, -, hr⟩ := hget i (hlt hb)
      exact (hspec i _ _ r hb hn hr).2.1.mp (hlimits.groups r (mem_of_getElem? hr))
    · intro e he e' he'
      obtain ⟨i, hb, hn⟩ := mem_zip_iff.mp he
      obtain ⟨j, hb', hn'⟩ := mem_zip_iff.mp he'
      obtain ⟨_, _, r, -, -, hr⟩ := hget i (hlt hb)
      obtain ⟨_, _, r', -, -, hr'⟩ := hget j (hlt hb')
      rw [← (hspec i _ _ r hb hn hr).2.2, ← (hspec j _ _ r' hb' hn' hr').2.2]
      exact hlimits.counts r (mem_of_getElem? hr) r' (mem_of_getElem? hr')
  · rintro ⟨counts', hcounts', hapart, huse⟩
    obtain rfl : counts = counts' := some.inj (hcounts.symm.trans hcounts')
    have hof : ∀ r ∈ results, ∃ (i : Nat) (b : Batch ι) (n : Int), ranks[i]? = some b ∧
        counts[i]? = some n ∧ results[i]? = some r := by
      intro r hr
      obtain ⟨i, hi⟩ := mem_iff_getElem?.mp hr
      obtain ⟨b, n, _, hb, hn, -⟩ := hget i (hlength' ▸ hlt hi)
      exact ⟨i, b, n, hb, hn, hi⟩
    constructor
    · intro e he
      obtain ⟨i, hb, hr⟩ := mem_zip_iff.mp he
      obtain ⟨_, n, _, -, hn, -⟩ := hget i (hlt hb)
      exact (hspec i _ n _ hb hn hr).1
    · intro r hr
      obtain ⟨i, b, n, hb, hn, hi⟩ := hof r hr
      exact (hspec i b n r hb hn hi).2.1.mpr (hapart (b, n) (mem_zip_iff.mpr ⟨i, hb, hn⟩))
    · intro r hr r' hr'
      obtain ⟨i, b, n, hb, hn, hi⟩ := hof r hr
      obtain ⟨j, b', n', hb', hn', hj⟩ := hof r' hr'
      rw [(hspec i b n r hb hn hi).2.2, (hspec j b' n' r' hb' hn' hj).2.2]
      exact huse (b, n) (mem_zip_iff.mpr ⟨i, hb, hn⟩) (b', n') (mem_zip_iff.mpr ⟨j, hb', hn'⟩)

theorem packMicroBatches_of_pairwise {b : Batch ι} {groupCosts : List (Nat × List Nat)} {n : Int}
    (bins : List (List (List Nat))) (costs : List Nat)
    (hsorted : groupCosts.Pairwise fun x y => decide (y.1 ≤ x.1) = true)
    (hbins : groupCosts.foldlM place (replicate n.toNat [], replicate n.toNat 0) =
      some (bins, costs)) (hne : bins ≠ [])
    (hordered : (costs.zip bins).Pairwise fun x y => greaterFirst x y = true) :
    packMicroBatches b groupCosts n = (do
      let created ← (((costs.zip bins).map Prod.snd).filter (· ≠ [])).mapM (createMicroBatch b)
      some (created.map Prod.fst, created.map Prod.snd)) := by
  unfold packMicroBatches
  rw [mergeSort_of_pairwise hsorted]
  dsimp only
  rw [hbins, bind_eq_bind, bind_some]
  dsimp only
  rw [if_neg hne, mergeSort_of_pairwise hordered]

theorem rearrange_of_agreed (groups : List (List (List Nat))) (counts agreed : List Int)
    (hgroups : ranks.mapM (createPromptGroups o) = some groups)
    (hsame : ∀ g ∈ groups, ∀ g' ∈ groups, g.length = g'.length)
    (hcounts : ((ranks.zip groups).map fun e => computeGroupCosts e.1 e.2).mapM
      (fun c => numMicroBatches o c.1.length c.2) = some counts)
    (hagreed : agreedCounts o counts = some agreed) :
    rearrangeMicroBatchesWithDedup o ranks =
      (ranks.zip (((ranks.zip groups).map fun e => computeGroupCosts e.1 e.2).zip agreed)).mapM
        fun e => packMicroBatches e.1 e.2.1.1 e.2.2 := by
  rw [rearrangeMicroBatchesWithDedup, hgroups, bind_eq_bind, bind_some, if_pos hsame]
  dsimp only
  rw [hcounts, bind_eq_bind, bind_some, hagreed, bind_some]

end Ranks

/-- What the index lists and the recorded groups of a rank are. -/
def recorded (result : List (MicroBatch ι) × List (List Nat)) :
    List (List (List Nat)) × List (List Nat) := (result.1.map (·.promptGroups), result.2)

/-- Two prompts with one sample each, the first of which is longer. -/
def twoPromptBatch : Batch Nat where
  promptLen := 1
  responseLength := 1
  inputIds := [[7, 1], [8, 2]]
  attentionMask := [[true, true], [true, false]]
  ids_length := by decide
  mask_length := by decide
  mask_rows := rfl

/-- One prompt with two samples. -/
def onePromptBatch : Batch Nat where
  promptLen := 1
  responseLength := 1
  inputIds := [[7, 1], [7, 2]]
  attentionMask := [[true, true], [true, true]]
  ids_length := by decide
  mask_length := by decide
  mask_rows := rfl

/-- Two prompts with one sample each, all of whose tokens are padding. -/
def paddedBatch : Batch Nat where
  promptLen := 1
  responseLength := 1
  inputIds := [[7, 1], [8, 2]]
  attentionMask := [[false, false], [false, false]]
  ids_length := by decide
  mask_length := by decide
  mask_rows := rfl

/-- A budget that takes two microbatches for the two prompts, and pieces of one sample. -/
def smallBudget : Options := ⟨2, none, true, none, some 1⟩

theorem packMicroBatches_twoPrompts :
    (packMicroBatches twoPromptBatch [(2, [0]), (1, [1])] 2).map recorded =
      some ([[[0]], [[0]]], [[0], [1]]) := by
  rw [packMicroBatches_of_pairwise [[[0]], [[1]]] [2, 1] (by decide)
    (by decide) (by decide) (by decide)]
  decide +kernel

/-- Two ranks with one sample in each of their two microbatches. -/
theorem limitsKept_iff_twoPrompts :
    ∃ results, rearrangeMicroBatchesWithDedup smallBudget [twoPromptBatch, twoPromptBatch] =
        some results ∧ LimitsKept 1 [twoPromptBatch, twoPromptBatch] results := by
  obtain ⟨r, hr, -⟩ := map_eq_some_iff.mp packMicroBatches_twoPrompts
  have hrun : rearrangeMicroBatchesWithDedup smallBudget [twoPromptBatch, twoPromptBatch] =
      some [r, r] := by
    rw [rearrange_of_agreed [[[0], [1]], [[0], [1]]] [2, 2] [2, 2]
      (by decide +kernel) (by decide) (by decide +kernel) (by decide +kernel)]
    change [(twoPromptBatch, ([(2, [0]), (1, [1])], 3), 2),
      (twoPromptBatch, ([(2, [0]), (1, [1])], 3), 2)].mapM _ = _
    simp [hr]
  refine ⟨[r, r], hrun, (limitsKept_iff one_pos rfl hrun).mpr ⟨[2, 2], by decide +kernel, ?_⟩⟩
  have hpieces : pieces 1 twoPromptBatch = [[0], [1]] := by decide +kernel
  have hfirst : costliestFirst 1 twoPromptBatch = [[0], [1]] := by
    rw [costliestFirst, hpieces]
    exact mergeSort_of_pairwise (by decide)
  have hapart : PiecesApart 1 twoPromptBatch 2 := by
    rw [PiecesApart, hfirst]
    decide
  simp [hapart]

theorem packMicroBatches_onePrompt :
    (packMicroBatches onePromptBatch [(2, [0]), (2, [1])] 1).map recorded =
      some ([[[0, 1]]], [[0, 1]]) := by
  rw [packMicroBatches_of_pairwise [[[0], [1]]] [4] (by decide) (by decide)
    (by decide) (by decide)]
  have hcreate : createMicroBatch onePromptBatch [[0], [1]] = microBatchOf onePromptBatch [0, 1] :=
    congrArg (microBatchOf onePromptBatch) (mergeSort_of_pairwise (by decide))
  change ([createMicroBatch onePromptBatch [[0], [1]]].mapM id >>= fun created =>
    some (created.map Prod.fst, created.map Prod.snd)).map recorded = _
  rw [hcreate]
  decide +kernel

theorem packMicroBatches_padded :
    (packMicroBatches paddedBatch [(0, [0]), (0, [1])] 2).map recorded =
      some ([[[0], [1]]], [[0, 1]]) := by
  rw [packMicroBatches_of_pairwise [[[0], [1]], []] [0, 0] (by decide)
    (by decide) (by decide) (by decide)]
  have hcreate : createMicroBatch paddedBatch [[0], [1]] = microBatchOf paddedBatch [0, 1] :=
    congrArg (microBatchOf paddedBatch) (mergeSort_of_pairwise (by decide))
  change ([createMicroBatch paddedBatch [[0], [1]]].mapM id >>= fun created =>
    some (created.map Prod.fst, created.map Prod.snd)).map recorded = _
  rw [hcreate]
  decide +kernel

/-- A prompt whose samples are cut into two pieces is one group of two samples again, and a rank
with padding only returns one microbatch where the other returns two. -/
theorem microBatches_exceed_limits :
    (∃ results, rearrangeMicroBatchesWithDedup ⟨10, none, true, none, some 1⟩ [onePromptBatch] =
        some results ∧ results.map recorded = [([[[0, 1]]], [[0, 1]])] ∧
        ¬LimitsKept 1 [onePromptBatch] results) ∧
      ∃ results, rearrangeMicroBatchesWithDedup smallBudget [twoPromptBatch, paddedBatch] =
        some results ∧ results.map recorded = [([[[0]], [[0]]], [[0], [1]]), ([[[0], [1]]], [[0, 1]])] ∧
        ¬LimitsKept 1 [twoPromptBatch, paddedBatch] results := by
  obtain ⟨r₁, hr₁, hrec₁⟩ := map_eq_some_iff.mp packMicroBatches_twoPrompts
  obtain ⟨r₂, hr₂, hrec₂⟩ := map_eq_some_iff.mp packMicroBatches_onePrompt
  obtain ⟨r₃, hr₃, hrec₃⟩ := map_eq_some_iff.mp packMicroBatches_padded
  constructor
  · refine ⟨[r₂], ?_, by rw [map_singleton, hrec₂], fun hlimits => ?_⟩
    · rw [rearrange_of_agreed [[[0], [1]]] [1] [1]
        (by decide +kernel) (by decide) (by decide +kernel) (by decide +kernel)]
      change [(onePromptBatch, ([(2, [0]), (2, [1])], 4), 1)].mapM _ = _
      simp [hr₂]
    · -- the recorded group has two samples
      have hgroups : r₂.1.map (·.promptGroups) = [[[0, 1]]] := congrArg Prod.fst hrec₂
      obtain ⟨micro, hmicro, hgroup⟩ := mem_map.mp
        (show [[0, 1]] ∈ r₂.1.map (·.promptGroups) from hgroups ▸ mem_singleton_self _)
      have hle := hlimits.groups r₂ (mem_singleton_self _) micro hmicro [0, 1]
        (hgroup ▸ mem_singleton_self _)
      cases hle with
      | step hle => cases hle
  · refine ⟨[r₁, r₃], ?_, by rw [map_cons, map_singleton, hrec₁, hrec₃], fun hlimits => ?_⟩
    · rw [rearrange_of_agreed [[[0], [1]], [[0], [1]]] [2, 0] [2, 2]
        (by decide +kernel) (by decide) (by decide +kernel) (by decide +kernel)]
      change [(twoPromptBatch, ([(2, [0]), (1, [1])], 3), 2),
        (paddedBatch, ([(0, [0]), (0, [1])], 0), 2)].mapM _ = _
      simp [hr₁, hr₃]
    · have hlength := hlimits.counts r₁ (by simp) r₃ (by simp)
      have hlength₁ := congrArg (fun p => p.1.length) hrec₁
      have hlength₃ := congrArg (fun p => p.1.length) hrec₃
      simp only [recorded, length_map] at hlength₁ hlength₃
      rw [hlength₁, hlength₃] at hlength
      cases hlength

end ArcticPlatform.ZorroTrain
