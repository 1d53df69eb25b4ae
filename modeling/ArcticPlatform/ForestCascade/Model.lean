import ArcticPlatform.Library.Vectors

/-!
# Forest cascade metadata

An embedding of `_recursive_lcp_split`, `_forest_sort_and_group`,
`_forest_make_suffix_block_table` and `_try_build_forest_cascade_metadata` of
`inference/vllm/attention/flash_attn_forest_cascade.py`.  A block table is the list of
its rows, and a one-dimensional tensor is a list of integers.

Main results:

- Definition `tryBuild`: the metadata, if they are built.
- Theorem `argmin_window_lt`: every split makes the ranges smaller.
-/

namespace ArcticPlatform.ForestCascade

open Scatter Slices Vectors
open List hiding argmin

/-- The parameters of the grouping; `fractionTooLow n B` is
`n / float(B) < float(min_non_singleton_fraction)`. -/
structure Thresholds where
  minGroupSize : Int
  minAdditionalPrefixBlocks : Int
  fractionTooLow : Nat → Nat → Bool
  maxNonSingletonGroups : Int

/-- The block table, the sequence lengths and the starts of the queries of a batch. -/
structure Batch where
  cols : Nat
  blockTable : List (List Int)
  seqLens : List Int
  queryStartLoc : List Int
  width : ∀ row ∈ blockTable, row.length = cols
  seqLens_length : seqLens.length = blockTable.length

/-! ## Splitting -/

/-- A group of sorted requests and the number of blocks they share. -/
structure Group where
  start : Nat
  stop : Nat
  prefixBlocks : Int

/-- `_prefix`. -/
def prefixOf (adjLcps fullSorted : List Int) (startBlock : Int) (a b : Nat) : Int :=
  if b - a ≤ 1 then fullSorted.getD a 0
  else min (startBlock + minOf (slice adjLcps a (b - 1))) (minOf (slice fullSorted a b))

/-- The range is split: the halves gain more, or the agreements within it differ much. -/
def shouldSplit (adjLcps fullSorted : List Int) (startBlock minGroupSize : Int)
    (s split e : Nat) : Bool :=
  let rng := slice adjLcps s (e - 1)
  let benefit := fun a b : Nat =>
    if minGroupSize ≤ ((b - a : Nat) : Int) then
      ((b - a : Nat) : Int) * max (prefixOf adjLcps fullSorted startBlock a b - startBlock) 0
    else 0
  decide (benefit s e < benefit s split + benefit split e) || decide (minOf rng * 2 < maxOf rng)

/-- A position of the least entry lies inside the window. -/
theorem argmin_window_lt (adjLcps : List Int) {s e : Nat} (h : 1 < e - s) :
    argmin (slice adjLcps s (e - 1)) < e - 1 - s := by
  by_cases hnil : slice adjLcps s (e - 1) = []
  · rw [hnil]
    simp [argmin]
    omega
  · have hlt := argmin_lt hnil
    have hlen : (slice adjLcps s (e - 1)).length ≤ e - 1 - s := by
      rw [slice, length_take]
      exact min_le_left _ _
    omega

/-- The work that is left for a stack of ranges. -/
def work (stack : List (Nat × Nat)) : Nat := (stack.map fun r => 2 * (r.2 - r.1 - 1) + 1).sum

/-- The loop of `_recursive_lcp_split`; the top of the stack is the head of the list. -/
def splitLoop (adjLcps fullSorted : List Int) (startBlock minGroupSize : Int)
    (stack : List (Nat × Nat)) (results : List Group) : List Group :=
  match stack with
  | [] => results
  | (s, e) :: stack =>
    if e - s = 0 then splitLoop adjLcps fullSorted startBlock minGroupSize stack results
    else if e - s = 1 then
      splitLoop adjLcps fullSorted startBlock minGroupSize stack
        (results ++ [⟨s, e, fullSorted.getD s 0⟩])
    else
      let split := s + argmin (slice adjLcps s (e - 1)) + 1
      if shouldSplit adjLcps fullSorted startBlock minGroupSize s split e then
        splitLoop adjLcps fullSorted startBlock minGroupSize ((split, e) :: (s, split) :: stack)
          results
      else
        splitLoop adjLcps fullSorted startBlock minGroupSize stack
          (results ++ [⟨s, e, prefixOf adjLcps fullSorted startBlock s e⟩])
termination_by work stack
decreasing_by
  · simp [work]
  · simp [work]
  · have hlt := argmin_window_lt adjLcps (s := s) (e := e) (by omega)
    simp only [work, map_cons, sum_cons]
    omega
  · simp [work]

/-- The order of the results, as tuples. -/
def Group.le (g g' : Group) : Bool :=
  decide (g.start < g'.start) || (decide (g.start = g'.start) &&
    (decide (g.stop < g'.stop) || (decide (g.stop = g'.stop) &&
      decide (g.prefixBlocks ≤ g'.prefixBlocks))))

/-- `_recursive_lcp_split`. -/
def recursiveLcpSplit (adjLcps fullSorted : List Int) (startBlock minGroupSize : Int) (B : Nat) :
    List Group :=
  (splitLoop adjLcps fullSorted startBlock minGroupSize [(0, B)] []).mergeSort Group.le

/-! ## Sorting and grouping -/

/-- `bt_work`: the columns from the common prefix on, with `-1` after the full blocks. -/
def maskedRow (startBlock stop : Nat) (row : List Int) (full : Int) : List Int :=
  (slice row startBlock stop).zipIdx.map fun entry =>
    if ((startBlock + entry.2 : Nat) : Int) < full then entry.1 else -1

/-- `np.lexsort`, with the first column as the first key. -/
def lexsort (rows : List (List Int)) : List Nat :=
  (List.range rows.length).mergeSort fun i j => decide (rows.getD i [] ≤ rows.getD j [])

/-- `t[perm]`. -/
def indexSelect {α : Type} (default : α) (t : List α) (perm : List Nat) : List α :=
  perm.map fun i => t.getD i default

/-- `adj_lcps`: the full blocks in which neighbours agree. -/
def adjacentLcps (startBlock : Int) (btSorted : List (List Int)) (fullSorted : List Int) :
    List Int :=
  let rawLcps := zipWith (fun r r' => (cumprod (same r r')).sum) btSorted.dropLast btSorted.tail
  let minFullPair := zipWith (fun f f' => max (min f f' - startBlock) 0)
    fullSorted.dropLast fullSorted.tail
  zipWith min rawLcps minFullPair

/-- What `_forest_sort_and_group` returns. -/
structure Grouping where
  perm : List Nat
  btP : List (List Int)
  starts : List Nat
  ends : List Nat
  groupSizes : List Nat
  totalPrefixBlocks : List Int

/-- `_forest_sort_and_group`. -/
def sortAndGroup (cols : Nat) (blockTable : List (List Int)) (fullBlocks : List Int)
    (startBlock : Nat) (th : Thresholds) : Option Grouping :=
  let B := blockTable.length
  if B ≤ 1 then none
  else
    let effectiveMaxCol := min (cols : Int) (maxOf fullBlocks)
    if effectiveMaxCol - startBlock ≤ 0 then none
    else
      let btWork := zipWith (maskedRow startBlock effectiveMaxCol.toNat) blockTable fullBlocks
      let perm := lexsort btWork
      let btSorted := indexSelect [] btWork perm
      let fullSorted := indexSelect 0 fullBlocks perm
      let adjLcps := adjacentLcps startBlock btSorted fullSorted
      let groups := recursiveLcpSplit adjLcps fullSorted startBlock th.minGroupSize B
      if groups = [] then none
      else
        let groupSizes := groups.map fun g => g.stop - g.start
        -- a group that gains too little keeps the common prefix only
        let totalPrefixBlocks := groups.map fun g =>
          if g.prefixBlocks - startBlock < th.minAdditionalPrefixBlocks then (startBlock : Int)
          else g.prefixBlocks
        let nonSingleton := fun n : Nat => decide (th.minGroupSize ≤ (n : Int))
        let numGroups := groupSizes.countP nonSingleton
        if numGroups = 0 then none
        else if th.maxNonSingletonGroups < (numGroups : Int) then none
        else if th.fractionTooLow (groupSizes.filter nonSingleton).sum B then none
        else if !(totalPrefixBlocks.zip groupSizes).any
            (fun (t, n) => decide ((startBlock : Int) < t) && nonSingleton n) then none
        else
          some {
            perm := perm
            btP := indexSelect [] blockTable perm
            starts := groups.map Group.start
            ends := groups.map Group.stop
            groupSizes := groupSizes
            totalPrefixBlocks := totalPrefixBlocks }

/-! ## Metadata -/

/-- One row of `_forest_make_suffix_block_table`. -/
def suffixRow (fullCols : Nat) (maxSuffixBlocks prefixBlocks suffixBlocks : Int) (row : List Int) :
    List Int :=
  (List.range maxSuffixBlocks.toNat).map fun (i : Nat) =>
    let idxInFull := (i : Int) + prefixBlocks
    let clamped := min (max idxInFull 0) ((fullCols : Int) - 1)
    if (i : Int) < suffixBlocks ∧ idxInFull < fullCols then row.getD clamped.toNat 0 else 0

/-- `_forest_make_suffix_block_table`. -/
def makeSuffixBlockTable (fullCols : Nat) (table : List (List Int))
    (prefixBlocks suffixBlocks : List Int) (maxSuffixBlocks : Int) : List (List Int) :=
  (table.zip (prefixBlocks.zip suffixBlocks)).map fun (row, p, s) =>
    suffixRow fullCols maxSuffixBlocks p s row

/-- What `_try_build_forest_cascade_metadata` returns. -/
structure Metadata where
  perm : List Nat
  tokenPerm : List Int
  packedQueryStartLoc : List Int
  groupOffsets : List Int
  groupSizes : List Nat
  prefixKvLens : List Int
  prefixBlockTable : List (List Int)
  suffixKvLens : List Int
  suffixBlockTable : List (List Int)
  maxGroupQueryLen : Int
  maxGroupSize : Nat
  maxPrefixLen : Int
  maxSuffixLen : Int

/-- `query_start_loc[1:] - query_start_loc[:-1]`. -/
def queryLens (batch : Batch) : List Int :=
  zipWith (· - ·) batch.queryStartLoc.tail batch.queryStartLoc.dropLast

/-- `context_lens`. -/
def contextLens (batch : Batch) : List Int := zipWith (· - ·) batch.seqLens (queryLens batch)

/-- The metadata of a grouping; nothing where torch refuses a negative repetition. -/
def assemble (batch : Batch) (blockSize : Int) (g : Grouping) : Option Metadata :=
  let queryLensPacked := indexSelect 0 (queryLens batch) g.perm
  let packedQueryStartLoc := offsets queryLensPacked
  let totalTokens := packedQueryStartLoc.getLastD 0
  if totalTokens ≤ 0 then none
  else
    let groupQueryLens := zipWith (· - ·) (indexSelect 0 packedQueryStartLoc g.ends)
      (indexSelect 0 packedQueryStartLoc g.starts)
    if queryLensPacked.any (· < 0) then none
    else
      let packedReqIds := blockIndex (queryLensPacked.map Int.toNat)
      let startPos := indexSelect 0 packedQueryStartLoc packedReqIds
      let posInReq := zipWith (· - ·) ((List.range totalTokens.toNat).map fun (i : Nat) => (i : Int))
        startPos
      let origReqIds := indexSelect 0 g.perm packedReqIds
      let origStartPos := indexSelect 0 batch.queryStartLoc origReqIds
      let maxPrefixBlocks := maxOf g.totalPrefixBlocks
      let prefixKvLens := g.totalPrefixBlocks.map (· * blockSize)
      let prefixBlocksReq := indexSelect 0 g.totalPrefixBlocks (blockIndex g.groupSizes)
      let seqLensPacked := indexSelect 0 batch.seqLens g.perm
      let suffixKvLens := zipWith (· - ·) seqLensPacked (prefixBlocksReq.map (· * blockSize))
      if suffixKvLens.any (· < 0) then none
      else
        let suffixBlocksReq := suffixKvLens.map fun n => (n + (blockSize - 1)) / blockSize
        some {
          perm := g.perm
          tokenPerm := zipWith (· + ·) origStartPos posInReq
          packedQueryStartLoc := packedQueryStartLoc
          groupOffsets := offsets groupQueryLens
          groupSizes := g.groupSizes
          prefixKvLens := prefixKvLens
          prefixBlockTable := (indexSelect [] g.btP g.starts).map (·.take maxPrefixBlocks.toNat)
          suffixKvLens := suffixKvLens
          suffixBlockTable := makeSuffixBlockTable batch.cols g.btP prefixBlocksReq suffixBlocksReq
            (maxOf suffixBlocksReq)
          maxGroupQueryLen := maxOf groupQueryLens
          maxGroupSize := g.groupSizes.max?.getD 0
          maxPrefixLen := maxOf prefixKvLens
          maxSuffixLen := maxOf suffixKvLens }

/-- `_try_build_forest_cascade_metadata`. -/
def tryBuild (batch : Batch) (commonPrefixLen blockSize : Int) (th : Thresholds) :
    Option Metadata :=
  if batch.blockTable.length = 0 then none
  else if commonPrefixLen < 0 then none
  else if commonPrefixLen % blockSize ≠ 0 then none
  else if batch.queryStartLoc.length ≠ batch.blockTable.length + 1 then none
  else if (contextLens batch).any (· < 0) then none
  else
    let prefix0Blocks := commonPrefixLen / blockSize
    if minOf (contextLens batch) / blockSize < prefix0Blocks then none
    else
      (sortAndGroup batch.cols batch.blockTable ((contextLens batch).map (· / blockSize))
        prefix0Blocks.toNat th).bind (assemble batch blockSize)

end ArcticPlatform.ForestCascade
