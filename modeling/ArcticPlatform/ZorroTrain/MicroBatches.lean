import ArcticPlatform.Library.Dict
import ArcticPlatform.Library.ListScheduling
import ArcticPlatform.Library.Results
import ArcticPlatform.ZorroTrain.Groups

/-!
# ZoRRoTrain: microbatches of prompt groups

The samples of a batch are grouped by their prompts, large groups are cut, and the pieces are put
into microbatches by their costs; all ranks agree on the number of microbatches first.  The groups
of a microbatch are found from its rows, so pieces of a prompt that meet are one group again, and
microbatches that stay empty are dropped.

Main results:

- Theorem `createPromptGroups_eq`: the groups that are packed are the pieces of the prompts.
- Theorem `length_promptGroups_le_iff`: the sizes of the groups that are found.
- Theorem `count_bin_le_iff`: pieces are small together if and only if their prompts differ.
-/

namespace ArcticPlatform.ZorroTrain

open Bins Dicts ListScheduling Results Slices
open List hiding lookup beq_eq_decide

variable {ι : Type} [DecidableEq ι]

/-! ## The source -/

/-- The options of a call. -/
structure Options where
  maxTokenLen : Int
  numBatchesDividedBy : Option Int
  sameMicroNumInDp : Bool
  minNumMicroBatch : Option Int
  maxGroupLengthThreshold : Option Int

/-- `ceildiv`; division by zero is an error. -/
def ceildiv (a b : Int) : Option Int := if b = 0 then none else some (-(a.fdiv (-b)))

/-- `roundup_divisible`. -/
def roundupDivisible (a b : Int) : Option Int :=
  if b = 0 then none else some ((a + b - 1).fdiv b * b)

/-- `prompt_groups_map`. -/
def promptGroupsMap (b : Batch ι) : Dict (List ι) (List Nat) :=
  (range b.size).foldl
    (fun map i => map.set (b.prompt i) ((map.get? (b.prompt i)).getD [] ++ [i])) Dict.empty

/-- The chunks of a group. -/
def chunks (threshold : Nat) (group : List Nat) : List (List Nat) :=
  (range ((group.length + threshold - 1) / threshold)).map fun i =>
    slice group (i * threshold) (min (i * threshold + threshold) group.length)

/-- `create_prompt_groups`. -/
def createPromptGroups (o : Options) (b : Batch ι) : Option (List (List Nat)) :=
  let promptGroups := (promptGroupsMap b).entries.map Prod.snd
  match o.maxGroupLengthThreshold with
  | none => some promptGroups
  | some threshold =>
    if promptGroups = [] ∨ threshold ≤ 0 then some promptGroups
    else if o.maxTokenLen < b.promptLen + b.responseLength * threshold then none
    else if promptGroups.any (threshold < ·.length) then
      some (promptGroups.flatMap fun group =>
        if threshold < group.length then chunks threshold.toNat group else [group])
    else some promptGroups

/-- The cost of a group in `compute_group_costs`, whose coefficient is zero. -/
def groupCost (b : Batch ι) (group : List Nat) : Nat :=
  numValid (b.promptMask (group.headD 0)) + (group.map fun i => numValid (b.responseMask i)).sum

/-- `compute_group_costs`: the costs of the groups and the total of their tokens. -/
def computeGroupCosts (b : Batch ι) (promptGroups : List (List Nat)) :
    List (Nat × List Nat) × Nat :=
  (promptGroups.map fun group => (groupCost b group, group), (promptGroups.map (groupCost b)).sum)

/-- The number of microbatches that a rank needs. -/
def numMicroBatches (o : Options) (numGroups totalDedupTokens : Nat) : Option Int := do
  let needed ← ceildiv totalDedupTokens o.maxTokenLen
  some (match o.minNumMicroBatch with
    | some least => max least (min numGroups needed)
    | none => min numGroups needed)

/-- The numbers of microbatches after the ranks have agreed. -/
def agreedCounts (o : Options) (counts : List Int) : Option (List Int) :=
  counts.mapM fun n =>
    let n := if o.sameMicroNumInDp then counts.foldl max n else n
    match o.numBatchesDividedBy with
    | some divisor => roundupDivisible n divisor
    | none => some n

/-- A microbatch, with what deduplication adds to it. -/
structure MicroBatch (ι : Type) where
  rows : Batch ι
  dedupInputIds : List ι
  reconstructionInfo : PackedInfo
  promptGroups : List (List Nat)
  origTokens : Nat
  dedupTokens : Nat

/-- The rows `batch[idx : idx + 1]` of a batch, joined. -/
def Batch.pick (b : Batch ι) (indices : List Nat) : Batch ι where
  promptLen := b.promptLen
  responseLength := b.responseLength
  inputIds := indices.flatMap fun i => slice b.inputIds i (i + 1)
  attentionMask := indices.flatMap fun i => slice b.attentionMask i (i + 1)
  ids_length := by
    intro row hrow
    obtain ⟨i, -, hi⟩ := mem_flatMap.mp hrow
    exact b.ids_length row (mem_of_mem_drop (mem_of_mem_take hi))
  mask_length := by
    intro row hrow
    obtain ⟨i, -, hi⟩ := mem_flatMap.mp hrow
    exact b.mask_length row (mem_of_mem_drop (mem_of_mem_take hi))
  mask_rows := by
    simp only [length_flatMap, slice, length_take, length_drop, b.mask_rows]

/-- A microbatch of some rows; no row at all is an error. -/
def microBatchOf (b : Batch ι) (sampleIndices : List Nat) : Option (MicroBatch ι × List Nat) := do
  let rows := b.pick sampleIndices
  let (promptGroups, _) ← findPromptGroups rows
  let (ids, mask, info) := dedupInputIds rows promptGroups
  let (packed, info) ← unpadDeduplicatedBatch ids mask info
  let origTokens := rows.size * (rows.promptLen + rows.responseLength)
  -- the percentage of saved tokens is a division
  if origTokens = 0 then none
  else some (⟨rows, packed, info, promptGroups, origTokens, packed.length⟩, sampleIndices)

/-- A microbatch from the groups of its bin, with its sample indices. -/
def createMicroBatch (b : Batch ι) (binGroups : List (List Nat)) :
    Option (MicroBatch ι × List Nat) := microBatchOf b binGroups.flatten.mergeSort

/-- The order of `sorted(zip(micro_batch_costs, micro_batch_bins), reverse=True)`. -/
def greaterFirst (x y : Nat × List (List Nat)) : Bool :=
  decide (y.1 < x.1 ∨ y.1 = x.1 ∧ y.2 ≤ x.2)

/-- The microbatches of one rank; no microbatch at all is an error. -/
def packMicroBatches (b : Batch ι) (groupCosts : List (Nat × List Nat)) (n : Int) :
    Option (List (MicroBatch ι) × List (List Nat)) := do
  let sorted := groupCosts.mergeSort fun x y => decide (y.1 ≤ x.1)
  let (bins, costs) ← sorted.foldlM place (replicate n.toNat [], replicate n.toNat 0)
  if bins = [] then none
  else
    let ordered := ((costs.zip bins).mergeSort greaterFirst).map Prod.snd
    let created ← (ordered.filter (· ≠ [])).mapM (createMicroBatch b)
    some (created.map Prod.fst, created.map Prod.snd)

/-- `rearrange_micro_batches_with_dedup`, called by all ranks of a group. -/
def rearrangeMicroBatchesWithDedup (o : Options) (ranks : List (Batch ι)) :
    Option (List (List (MicroBatch ι) × List (List Nat))) := do
  let groups ← ranks.mapM (createPromptGroups o)
  if ∀ g ∈ groups, ∀ g' ∈ groups, g.length = g'.length then
    let costs := (ranks.zip groups).map fun e => computeGroupCosts e.1 e.2
    let counts ← costs.mapM fun c => numMicroBatches o c.1.length c.2
    let agreed ← agreedCounts o counts
    (ranks.zip (costs.zip agreed)).mapM fun e => packMicroBatches e.1 e.2.1.1 e.2.2
  else none

/-! ## Pieces of prompts -/

/-- The rows that have a prompt. -/
def rowsOfPrompt (b : Batch ι) (prompt : List ι) : List Nat :=
  (range b.size).filter (b.prompt · = prompt)

/-- The rows whose prompts are new. -/
def firstRows (b : Batch ι) : List Nat :=
  (range b.size).filter fun i => ∀ j < i, b.prompt j ≠ b.prompt i

/-- The rows of each prompt in pieces below a threshold. -/
def pieces (threshold : Nat) (b : Batch ι) : List (List Nat) :=
  (firstRows b).flatMap fun i => chunks threshold (rowsOfPrompt b (b.prompt i))

/-- The prompt of a piece. -/
def piecePrompt (b : Batch ι) (piece : List Nat) : List ι := b.prompt (piece.headD 0)

/-! ## The groups of a batch -/

section Groups

variable {prompts : Nat → List ι} {n : Nat}

theorem exists_first {k : List ι} (h : ∃ j < n, prompts j = k) :
    ∃ i < n, prompts i = k ∧ ∀ j < i, prompts j ≠ prompts i := by
  obtain ⟨hlt, hk⟩ := Nat.find_spec h
  refine ⟨Nat.find h, hlt, hk, fun j hj heq => Nat.find_min h hj ⟨hj.trans hlt, heq.trans hk⟩⟩

/-- The groups of a loop over the rows, in the order of their first rows. -/
theorem entries_foldl_set (prompts : Nat → List ι) (n : Nat) :
    ((range n).foldl
      (fun map i => map.set (prompts i) ((map.get? (prompts i)).getD [] ++ [i]))
      (Dict.empty : Dict (List ι) (List Nat))).entries =
      ((range n).filter fun i => ∀ j < i, prompts j ≠ prompts i).map fun i =>
        (prompts i, (range n).filter (prompts · = prompts i)) := by
  induction n with
  | zero => rfl
  | succ n ih =>
    rw [range_succ, foldl_append, foldl_cons, foldl_nil]
    set d := (range n).foldl
      (fun map i => map.set (prompts i) ((map.get? (prompts i)).getD [] ++ [i]))
      (Dict.empty : Dict (List ι) (List Nat))
    have hkey : ∀ k, k ∈ d.keys ↔ ∃ j < n, prompts j = k := by
      intro k
      rw [Dict.keys, ih, map_map, mem_map]
      constructor
      · rintro ⟨i, hi, rfl⟩
        exact ⟨i, mem_range.mp (mem_of_mem_filter hi), rfl⟩
      · intro h
        obtain ⟨i, hlt, hk, hfirst⟩ := exists_first h
        exact ⟨i, mem_filter.mpr ⟨mem_range.mpr hlt, decide_eq_true hfirst⟩, hk⟩
    have hlt : ∀ i ∈ (range n).filter (fun i => ∀ j < i, prompts j ≠ prompts i), i < n :=
      fun i hi => mem_range.mp (mem_of_mem_filter hi)
    change Dicts.assign (prompts n) ((d.get? (prompts n)).getD [] ++ [n]) d.entries = _
    by_cases hold : ∃ j < n, prompts j = prompts n
    · -- the prompt has a group
      have hget : d.get? (prompts n) = some ((range n).filter (prompts · = prompts n)) := by
        obtain ⟨i, hi, hk, hfirst⟩ := exists_first hold
        rw [Dict.get?_eq_some, ih, ← hk]
        exact mem_map_of_mem (mem_filter.mpr
          ⟨mem_range.mpr hi, decide_eq_true hfirst⟩)
      have hnew : (range n ++ [n]).filter (fun i => ∀ j < i, prompts j ≠ prompts i) =
          (range n).filter fun i => ∀ j < i, prompts j ≠ prompts i := by
        obtain ⟨j, hj, heq⟩ := hold
        have hfalse : ¬∀ j < n, prompts j ≠ prompts n := fun h => h j hj heq
        rw [filter_append, filter_singleton, decide_eq_false hfalse, cond_false, append_nil]
      rw [assign_of_mem d.nodup ((hkey _).mpr hold), hget, hnew, ih, map_map]
      refine map_congr_left fun i hi => ?_
      by_cases heq : prompts i = prompts n
      · simp [filter_append, heq]
      · simp [filter_append, heq, Ne.symm heq]
    · have hnot : prompts n ∉ d.keys := fun h => hold ((hkey _).mp h)
      have hnone : (range n).filter (prompts · = prompts n) = [] := by
        rw [filter_eq_nil_iff]
        intro i hi heq
        exact hold ⟨i, mem_range.mp hi, of_decide_eq_true heq⟩
      have hnew : (range n ++ [n]).filter (fun i => ∀ j < i, prompts j ≠ prompts i) =
          ((range n).filter fun i => ∀ j < i, prompts j ≠ prompts i) ++ [n] := by
        have htrue : ∀ j < n, prompts j ≠ prompts n := fun j hj heq => hold ⟨j, hj, heq⟩
        rw [filter_append, filter_singleton, decide_eq_true htrue, cond_true]
      rw [assign_of_not_mem hnot, d.get?_eq_none.mpr hnot, hnew, ih, map_append]
      congr 1
      · refine map_congr_left fun i hi => ?_
        have hne : prompts n ≠ prompts i := fun heq => hold ⟨i, hlt i hi, heq.symm⟩
        simp [filter_append, hne]
      · simp [filter_append, hnone]

/-- The inner loop of `find_prompt_groups` does what an assignment to a dictionary does. -/
theorem addSample_map_snd {entries : List (List ι × List Nat)}
    (hhead : ∀ e ∈ entries, prompts (e.2.headD 0) = e.1) :
    addSample prompts n (entries.map Prod.snd) = (Dicts.assign (prompts n)
      ((lookup (prompts n) entries).getD [] ++ [n]) entries).map Prod.snd := by
  induction entries with
  | nil => rfl
  | cons e entries ih =>
    have he := hhead e mem_cons_self
    rw [map_cons, addSample, he]
    by_cases hk : prompts n = e.1
    · rw [if_pos hk, lookup, if_pos hk.symm, Dicts.assign, if_pos hk.symm]
      rfl
    · rw [if_neg hk, ih fun e he => hhead e (mem_cons_of_mem _ he), lookup,
        if_neg (Ne.symm hk), Dicts.assign, if_neg (Ne.symm hk)]
      rfl

theorem foldl_addSample (prompts : Nat → List ι) (n : Nat) :
    (range n).foldl (fun groups i => addSample prompts i groups) [] =
      ((range n).filter fun i => ∀ j < i, prompts j ≠ prompts i).map fun i =>
        (range n).filter (prompts · = prompts i) := by
  have hmap : ∀ n, (range n).foldl (fun groups i => addSample prompts i groups) [] =
      ((range n).foldl
        (fun map i => map.set (prompts i) ((map.get? (prompts i)).getD [] ++ [i]))
        (Dict.empty : Dict (List ι) (List Nat))).entries.map Prod.snd := by
    intro n
    induction n with
    | zero => rfl
    | succ n ih =>
      rw [range_succ, foldl_append, foldl_append, ih]
      refine addSample_map_snd fun e he => ?_
      rw [entries_foldl_set] at he
      obtain ⟨i, hi, rfl⟩ := mem_map.mp he
      have hmem : i ∈ (range n).filter (prompts · = prompts i) :=
        mem_filter.mpr ⟨mem_of_mem_filter hi, decide_eq_true rfl⟩
      have hhead := of_mem_filter (headD_mem (ne_nil_of_mem hmem))
      simpa using hhead
  rw [hmap, entries_foldl_set, map_map]
  rfl

end Groups

section PromptGroups

variable {b : Batch ι}

/-- The groups of a batch. -/
def promptGroups (b : Batch ι) : List (List Nat) :=
  (firstRows b).map fun i => rowsOfPrompt b (b.prompt i)

theorem promptGroupsMap_eq (b : Batch ι) :
    (promptGroupsMap b).entries.map Prod.snd = promptGroups b := by
  rw [promptGroupsMap, entries_foldl_set, map_map]
  rfl

theorem findPromptGroups_eq {groups : List (List Nat)} {unique : List (List ι)}
    (h : findPromptGroups b = some (groups, unique)) : groups = promptGroups b := by
  unfold findPromptGroups at h
  simp only at h
  split_ifs at h
  obtain ⟨rfl, -⟩ := Prod.mk.inj (Option.some.inj h)
  exact foldl_addSample b.prompt b.size

theorem promptGroups_ok (b : Batch ι) : GroupsOK b.prompt b.size (promptGroups b) := by
  have h := groupsOK_range b.prompt b.size
  rwa [foldl_addSample] at h

end PromptGroups

/-! ## The pieces of the groups -/

section Chunks

variable {threshold : Nat} {group : List Nat}

section

variable (hpos : 0 < threshold)
include hpos

theorem lt_ceil_iff {i : Nat} :
    i < (group.length + threshold - 1) / threshold ↔ i * threshold < group.length := by
  rw [← Nat.add_one_le_iff, Nat.le_div_iff_mul_le hpos, Nat.succ_mul]
  omega

theorem length_chunk {chunk : List Nat} (h : chunk ∈ chunks threshold group) :
    0 < chunk.length ∧ chunk.length ≤ threshold := by
  obtain ⟨i, hi, rfl⟩ := mem_map.mp h
  have hlt := (lt_ceil_iff hpos).mp (mem_range.mp hi)
  rw [length_slice (by omega) (min_le_right _ _)]
  omega

theorem chunks_pairwise (group : List Nat) :
    (chunks threshold group).Pairwise fun c c' => threshold < c.length + c'.length := by
  rw [chunks, pairwise_map]
  refine pairwise_lt_range.imp_of_mem fun {i j} _ hj hij => ?_
  have hlt := (lt_ceil_iff hpos).mp (mem_range.mp hj)
  have hnext : (i + 1) * threshold ≤ j * threshold := Nat.mul_le_mul_right _ hij
  rw [Nat.succ_mul] at hnext
  rw [length_slice (by omega) (min_le_right _ _), length_slice (by omega) (min_le_right _ _)]
  omega

theorem flatten_chunks (group : List Nat) : (chunks threshold group).flatten = group := by
  have htake : ∀ k, ((range k).map fun i =>
      slice group (i * threshold) (min (i * threshold + threshold) group.length)).flatten =
      group.take (k * threshold) := by
    intro k
    induction k with
    | zero => simp
    | succ k ih =>
      rw [range_succ, map_append, flatten_append, ih, map_singleton,
        flatten_singleton, Nat.succ_mul, take_add, slice]
      congr 1
      rw [take_eq_take_iff, length_drop]
      omega
  rw [chunks, htake, take_of_length_le]
  by_contra hlt
  have hceil := (lt_ceil_iff hpos).mpr (Nat.lt_of_not_le hlt)
  exact lt_irrefl _ hceil

theorem chunks_of_le (hne : group ≠ []) (hle : group.length ≤ threshold) :
    chunks threshold group = [group] := by
  have hlength := length_pos_iff.mpr hne
  have hone : (group.length + threshold - 1) / threshold = 1 := by
    rw [Nat.div_eq_iff hpos]
    omega
  rw [chunks, hone]
  simp [slice, hle]

end

end Chunks

section Pieces

variable {b : Batch ι} {threshold : Nat}

variable {piece : List Nat}

theorem mem_pieces :
    piece ∈ pieces threshold b ↔
      ∃ i ∈ firstRows b, piece ∈ chunks threshold (rowsOfPrompt b (b.prompt i)) := mem_flatMap

section

variable (hpos : 0 < threshold)
include hpos

theorem prompt_of_mem_chunks {prompt : List ι}
    (h : piece ∈ chunks threshold (rowsOfPrompt b prompt)) {i : Nat} (hi : i ∈ piece) :
    b.prompt i = prompt := by
  have hmem : i ∈ (chunks threshold (rowsOfPrompt b prompt)).flatten :=
    mem_flatten.mpr ⟨piece, h, hi⟩
  rw [flatten_chunks hpos] at hmem
  simpa using of_mem_filter hmem

theorem piecePrompt_of_mem_chunks {prompt : List ι}
    (h : piece ∈ chunks threshold (rowsOfPrompt b prompt)) : piecePrompt b piece = prompt :=
  prompt_of_mem_chunks hpos h (headD_mem (length_pos_iff.mp (length_chunk hpos h).1))

theorem length_piece (h : piece ∈ pieces threshold b) :
    0 < piece.length ∧ piece.length ≤ threshold := by
  obtain ⟨i, -, h⟩ := mem_pieces.mp h
  exact length_chunk hpos h

theorem prompt_of_mem_piece (h : piece ∈ pieces threshold b) {i : Nat}
    (hi : i ∈ piece) : b.prompt i = piecePrompt b piece := by
  obtain ⟨_, -, h⟩ := mem_pieces.mp h
  rw [piecePrompt_of_mem_chunks hpos h, prompt_of_mem_chunks hpos h hi]

theorem pieces_pairwise (b : Batch ι) :
    (pieces threshold b).Pairwise fun p q =>
      piecePrompt b p = piecePrompt b q → threshold < p.length + q.length := by
  rw [pieces, flatMap_def, pairwise_flatten, pairwise_map]
  constructor
  · intro l hl
    obtain ⟨i, -, rfl⟩ := mem_map.mp hl
    refine (chunks_pairwise hpos _).imp ?_
    intro p q hlarge _
    exact hlarge
  · refine (pairwise_lt_range.filter _).imp_of_mem fun {i j} _ hj hij => ?_
    intro p hp q hq heq
    rw [piecePrompt_of_mem_chunks hpos hp, piecePrompt_of_mem_chunks hpos hq] at heq
    -- later first rows have other prompts
    have hfirst : ∀ j' < j, b.prompt j' ≠ b.prompt j := by simpa using of_mem_filter hj
    exact absurd heq (hfirst i hij)

theorem flatten_pieces_perm (b : Batch ι) : (pieces threshold b).flatten.Perm (range b.size) := by
  have hflatten : (pieces threshold b).flatten = (promptGroups b).flatten := by
    rw [pieces, promptGroups, flatMap_def, flatten_flatten, map_map]
    congr 1
    exact map_congr_left fun i _ => flatten_chunks hpos _
  rw [hflatten]
  exact (promptGroups_ok b).flatten_perm

/-- The groups that are packed. -/
theorem createPromptGroups_eq {o : Options} {groups : List (List Nat)}
    (hthreshold : o.maxGroupLengthThreshold = some (threshold : Int))
    (h : createPromptGroups o b = some groups) : groups = pieces threshold b := by
  have hpieces : pieces threshold b = (promptGroups b).flatMap (chunks threshold) := by
    rw [pieces, promptGroups, flatMap_map]
  have hne := (promptGroups_ok b).nonempty
  rw [createPromptGroups, hthreshold, promptGroupsMap_eq] at h
  dsimp only at h
  split_ifs at h with hnil hbudget hlarge
  · rcases hnil with hnil | hnot
    · rw [hpieces, ← Option.some.inj h, hnil]
      rfl
    · omega
  · rw [hpieces, ← Option.some.inj h]
    refine flatMap_congr fun group hgroup => ?_
    by_cases hlt : threshold < group.length
    · rw [if_pos (by exact_mod_cast hlt), Int.toNat_natCast]
    · rw [if_neg (by exact_mod_cast hlt), chunks_of_le hpos (hne group hgroup) (not_lt.mp hlt)]
  · rw [hpieces, ← Option.some.inj h]
    have hsmall : ∀ group ∈ promptGroups b, chunks threshold group = [group] := by
      intro group hgroup
      refine chunks_of_le hpos (hne group hgroup) (not_lt.mp fun hlt => hlarge ?_)
      exact any_eq_true.mpr ⟨group, hgroup, decide_eq_true (by exact_mod_cast hlt)⟩
    rw [flatMap_congr hsmall, flatMap_singleton']

end

end Pieces

/-! ## The groups of a microbatch -/

section Micro

variable {b : Batch ι} {threshold : Nat}

variable {indices : List Nat}

section

variable (hlt : ∀ i ∈ indices, i < b.size)
include hlt

section

omit [DecidableEq ι]

theorem inputIds_pick : (b.pick indices).inputIds = indices.map fun i => b.inputIds.getD i [] := by
  have hone : ∀ i ∈ indices, slice b.inputIds i (i + 1) = [b.inputIds.getD i []] := by
    intro i hi
    have hsize : i < b.inputIds.length := hlt i hi
    rw [slice, Nat.add_sub_cancel_left, take_one, head?_drop,
      getElem?_eq_getElem hsize, getD_eq_getElem?_getD, getElem?_eq_getElem hsize]
    rfl
  change (indices.flatMap fun i => slice b.inputIds i (i + 1)) = _
  rw [flatMap_congr hone, map_eq_flatMap]

theorem size_pick : (b.pick indices).size = indices.length := by
  rw [Batch.size, inputIds_pick hlt, length_map]

theorem prompts_pick :
    (range (b.pick indices).size).map (b.pick indices).prompt = indices.map b.prompt := by
  apply ext_getElem
  · simp [size_pick hlt]
  · intro k hk hk'
    have hlength : k < indices.length := by simpa using hk'
    simp [Batch.prompt, inputIds_pick hlt, hlength]
    rfl

end

end

/-- The groups that are found have a size if and only if no prompt occurs more often. -/
theorem length_promptGroups_le_iff (b : Batch ι) :
    (∀ group ∈ promptGroups b, group.length ≤ threshold) ↔
      ∀ prompt, ((range b.size).map b.prompt).count prompt ≤ threshold := by
  have hcount : ∀ prompt, ((range b.size).map b.prompt).count prompt =
      (rowsOfPrompt b prompt).length := by
    intro prompt
    rw [count, countP_map, countP_eq_length_filter, rowsOfPrompt]
    congr 1
    exact filter_congr fun x _ => by rw [Function.comp_apply, beq_eq_decide]
  constructor
  · intro h prompt
    rw [hcount]
    by_cases hex : ∃ j < b.size, b.prompt j = prompt
    · obtain ⟨i, hi, rfl, hfirst⟩ := exists_first hex
      exact h _ (mem_map_of_mem
        (mem_filter.mpr ⟨mem_range.mpr hi, decide_eq_true hfirst⟩))
    · have hnone : rowsOfPrompt b prompt = [] := by
        rw [rowsOfPrompt, filter_eq_nil_iff]
        intro j hj heq
        exact hex ⟨j, mem_range.mp hj, of_decide_eq_true heq⟩
      rw [hnone]
      exact zero_le
  · intro h group hgroup
    obtain ⟨i, -, rfl⟩ := mem_map.mp hgroup
    rw [← hcount]
    exact h _

/-- Pieces of a bin keep the threshold together if and only if their prompts differ. -/
theorem count_bin_le_iff (hpos : 0 < threshold) {bin : List (List Nat)}
    (hbin : bin.Subperm (pieces threshold b)) :
    (∀ prompt, (bin.flatten.map b.prompt).count prompt ≤ threshold) ↔
      (bin.map (piecePrompt b)).Nodup := by
  have hmem : ∀ piece ∈ bin, piece ∈ pieces threshold b := fun piece h => hbin.subset h
  have hcount : ∀ l : List (List Nat), (∀ piece ∈ l, piece ∈ pieces threshold b) → ∀ prompt,
      (l.flatten.map b.prompt).count prompt =
        ((l.filter (piecePrompt b · = prompt)).map List.length).sum := by
    intro l hl prompt
    induction l with
    | nil => rfl
    | cons piece l ih =>
      have hpiece : piece.map b.prompt = replicate piece.length (piecePrompt b piece) := by
        rw [map_congr_left fun i hi => prompt_of_mem_piece hpos (hl piece mem_cons_self) hi]
        exact map_const'
      rw [flatten_cons, map_append, count_append, hpiece, count_replicate,
        ih fun piece h => hl piece (mem_cons_of_mem _ h), filter_cons]
      by_cases heq : piecePrompt b piece = prompt <;> simp [heq]
  constructor
  · intro h
    rw [Nodup, pairwise_map, pairwise_iff_forall_sublist]
    intro p q hpq heq
    have hlarge : threshold < p.length + q.length := by
      obtain ⟨l, hperm, hsublist⟩ := hbin
      have hpairwise := (pieces_pairwise hpos b).sublist hsublist
      have hsymm : bin.Pairwise fun p q =>
          piecePrompt b p = piecePrompt b q → threshold < p.length + q.length := by
        refine (hperm.pairwise_iff fun {p q} h heq => ?_).mp hpairwise
        rw [add_comm]
        exact h heq.symm
      exact pairwise_iff_forall_sublist.mp hsymm hpq heq
    -- the two pieces are among those of their prompt
    have hsub := ((hpq.filter (piecePrompt b · = piecePrompt b q)).map List.length).sum_le_sum
      (by simp)
    have hle := h (piecePrompt b q)
    rw [hcount bin hmem] at hle
    have hboth : ([p, q].filter (piecePrompt b · = piecePrompt b q)).map List.length =
        [p.length, q.length] := by
      simp [heq]
    rw [hboth] at hsub
    simp only [sum_cons, sum_nil] at hsub
    omega
  · intro h prompt
    rw [hcount bin hmem]
    have hone : (bin.filter (piecePrompt b · = prompt)).length ≤ 1 := by
      rw [← countP_eq_length_filter]
      have hle := nodup_iff_count_le_one.mp h prompt
      rw [count, countP_map] at hle
      simpa [Function.comp_def, beq_eq_decide] using hle
    cases hfilter : bin.filter (piecePrompt b · = prompt) with
    | nil => simp
    | cons piece rest =>
      rw [hfilter, length_cons] at hone
      have hrest : rest = [] := eq_nil_of_length_eq_zero (by omega)
      have hpiece : piece ∈ bin := mem_of_mem_filter (hfilter ▸ mem_cons_self)
      have hle := (length_piece hpos (hmem piece hpiece)).2
      simpa [hrest] using hle

end Micro

end ArcticPlatform.ZorroTrain
