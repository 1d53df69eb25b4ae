import ArcticPlatform.ForestCascade.Coverage
import Mathlib

/-!
# The metadata of a batch

For every batch whose rows share the common prefix, the metadata permute the requests and
the tokens, the groups cover the requests, and every request attends each of its keys
once, through its group's prefix row or through its suffix row.

Main results:

- Theorem `assemble_attends`: the metadata of a grouping.
- Theorem `forest_attends_once`: the metadata of a batch.
-/

namespace ArcticPlatform.ForestCascade

open Scatter Slices Vectors List

/-- The request at packed position `k` is in group `g`. -/
def InGroup (md : Metadata) (g k : Nat) : Prop :=
  (md.groupSizes.take g).sum ≤ k ∧ k < (md.groupSizes.take (g + 1)).sum

/-- Metadata under which every request of the batch attends each of its keys once. -/
structure AttendsOnce (batch : Batch) (lens : List Nat) (blockSize : Nat) (md : Metadata) : Prop where
  perm : md.perm.Perm (range batch.blockTable.length)
  tokenPerm : md.tokenPerm.Perm ((range lens.sum).map fun (i : Nat) => (i : Int))
  packed : md.packedQueryStartLoc =
    (cumulative (md.perm.map fun r => lens.getD r 0)).map fun (n : Nat) => (n : Int)
  tokens : md.tokenPerm = (range md.perm.length).flatMap fun k =>
    (range (lens.getD (md.perm.getD k 0) 0)).map fun (j : Nat) =>
      batch.queryStartLoc.getD (md.perm.getD k 0) 0 + (j : Int)
  groups : md.groupSizes.sum = batch.blockTable.length ∧ ∀ n ∈ md.groupSizes, 0 < n
  groupOffsets : ∀ g, g ≤ md.groupSizes.length →
    md.groupOffsets[g]? = md.packedQueryStartLoc[(md.groupSizes.take g).sum]?
  keys : ∀ g k r, InGroup md g k → md.perm[k]? = some r → ∃ prefixLen suffixLen prefixRow suffixRow,
      md.prefixKvLens[g]? = some prefixLen ∧ md.suffixKvLens[k]? = some suffixLen ∧
      md.prefixBlockTable[g]? = some prefixRow ∧ md.suffixBlockTable[k]? = some suffixRow ∧
      Covered (batch.blockTable.getD r []) blockSize (lens.getD r 0) (batch.seqLens.getD r 0)
        prefixLen suffixLen prefixRow suffixRow

/-- The starts of the queries are the running sums of their lengths. -/
def HasQueries (batch : Batch) (lens : List Nat) : Prop :=
  lens.length = batch.blockTable.length ∧
    batch.queryStartLoc = (cumulative lens).map fun (n : Nat) => (n : Int)

variable {batch : Batch} {lens : List Nat} {blockSize : Nat}

theorem queryLens_eq (hq : HasQueries batch lens) :
    queryLens batch = lens.map fun (n : Nat) => (n : Int) := by
  rw [queryLens, hq.2]
  apply ext_getElem?
  intro k
  by_cases hk : k < lens.length
  · have hstart := cumulative_getElem? (le_of_lt hk)
    have hstop := cumulative_getElem? (Nat.succ_le_of_lt hk)
    have hsum := sum_take_succ (getElem?_eq_getElem hk)
    have hlast : k < (cumulative lens).length - 1 := by simp [length_cumulative, hk]
    simp only [getElem?_zipWith, getElem?_tail, getElem?_dropLast, getElem?_map,
      length_map, if_pos hlast, hstart, hstop, getElem?_eq_getElem hk, Option.map_some, hsum]
    push_cast
    simp
  · rw [getElem?_eq_none (by simp [length_cumulative]; omega), getElem?_eq_none (by simp; omega)]

theorem getD_contextLens (hq : HasQueries batch lens) {r : Nat} (hr : r < batch.blockTable.length) :
    (contextLens batch).getD r 0 = batch.seqLens.getD r 0 - (lens.getD r 0 : Nat) := by
  have hseq : r < batch.seqLens.length := batch.seqLens_length ▸ hr
  have hlen : r < lens.length := hq.1 ▸ hr
  simp [contextLens, queryLens_eq hq, getD_eq_getElem?_getD, getElem?_zipWith,
    getElem?_eq_getElem hseq, getElem?_eq_getElem hlen]

theorem getElem?_indexSelect {α : Type} (default : α) (t : List α) (perm : List Nat) (k : Nat) :
    (indexSelect default t perm)[k]? = perm[k]?.map fun i => t.getD i default := getElem?_map

theorem groupOffsets_eq (pl : List Nat) {groups : List Group}
    (hcover : Consecutive 0 pl.length (groups.map Group.range)) {g : Nat} (hg : g ≤ groups.length) :
    (offsets (zipWith (· - ·)
        (indexSelect 0 ((cumulative pl).map fun (n : Nat) => (n : Int)) (groups.map Group.stop))
        (indexSelect 0 ((cumulative pl).map fun (n : Nat) => (n : Int))
          (groups.map Group.start))))[g]? =
      ((cumulative pl).map fun (n : Nat) => (n : Int))[(((groups.map Group.range).map
        fun r => r.2 - r.1).take g).sum]? := by
  set c : Nat → Int := fun k => ((cumulative pl).map fun (n : Nat) => (n : Int)).getD k 0 with hc
  have hzero : c 0 = 0 := by
    simp only [hc]
    rw [getD_cast, getD_cumulative zero_le]
    rfl
  have hsome : ∀ k, k ≤ pl.length →
      ((cumulative pl).map fun (n : Nat) => (n : Int))[k]? = some (c k) := by
    intro k hk
    simp only [hc]
    rw [getElem?_map, cumulative_getElem? hk, getD_cast, getD_cumulative hk]
    rfl
  have hlens : zipWith (· - ·)
      (indexSelect 0 ((cumulative pl).map fun (n : Nat) => (n : Int)) (groups.map Group.stop))
      (indexSelect 0 ((cumulative pl).map fun (n : Nat) => (n : Int)) (groups.map Group.start)) =
      groups.map fun gr => c gr.stop - c gr.start := by
    simp only [indexSelect, map_map, zipWith_map, zipWith_self]
    rfl
  have hscan := scanl_groups c hcover
  rw [hzero] at hscan
  obtain ⟨hstarts, hstop⟩ := hcover.start_eq
  rw [hlens, offsets, hscan]
  by_cases hlt : g < groups.length
  · have hstart := hstarts g groups[g].range (by simp [hlt])
    rw [zero_add] at hstart
    have hbounds := hcover.bounds (mem_map_of_mem (getElem_mem hlt))
    rw [getElem?_append_left (by simpa using hlt), ← hstart, hsome _ (by omega)]
    simp [getElem?_eq_getElem hlt, Group.range]
  · obtain rfl : g = groups.length := by omega
    rw [getElem?_append_right (by simp), take_of_length_le (by simp)]
    rw [zero_add] at hstop
    rw [← hstop, hsome _ (le_refl _)]
    simp

theorem getLastD_cumulative (pl : List Nat) :
    ((cumulative pl).map fun (n : Nat) => (n : Int)).getLastD 0 = (pl.sum : Nat) := by
  have hlast := cumulative_getElem? (le_refl pl.length)
  rw [take_length] at hlast
  rw [getLastD_eq_getLast?, getLast?_eq_getElem?, length_map, length_cumulative,
    getElem?_map, Nat.add_sub_cancel, hlast]
  rfl

variable {g : Grouping} {groups : List Group} {start i k r : Nat}

theorem Grouping.Valid.groupSizes_eq {t : List (List Int)} {full : List Int}
    (h : g.Valid t full start groups) :
    g.groupSizes = (groups.map Group.range).map fun r => r.2 - r.1 := by
  rw [h.groupSizes, map_map]
  rfl

/-- The group of a packed position, and the prefix blocks found for it. -/
theorem Grouping.Valid.group_of {t : List (List Int)} {full : List Int}
    (h : g.Valid t full start groups)
    (hlow : (g.groupSizes.take i).sum ≤ k) (hhigh : k < (g.groupSizes.take (i + 1)).sum) :
    ∃ hi : i < groups.length, groups[i].start ≤ k ∧ k < groups[i].stop ∧
      (indexSelect 0 g.totalPrefixBlocks (blockIndex g.groupSizes))[k]? =
        some groups[i].prefixBlocks := by
  have hi : i < groups.length := by
    by_contra hge
    have hlen : g.groupSizes.length ≤ i := by simpa [h.groupSizes] using hge
    rw [take_of_length_le hlen] at hlow
    rw [take_of_length_le (by omega)] at hhigh
    omega
  have hstart := h.cover.start_eq.1 i groups[i].range (by simp [hi])
  have hbounds := h.cover.bounds (mem_map_of_mem (getElem_mem hi))
  rw [← h.groupSizes_eq] at hstart
  simp only [Group.range, zero_add] at hstart hbounds
  have hsize : g.groupSizes[i]? = some (groups[i].stop - groups[i].start) := by
    simp [h.groupSizes, hi]
  have hindex := blockIndex_getElem? hlow hhigh
  rw [sum_take_succ hsize] at hhigh
  refine ⟨hi, by omega, by omega, ?_⟩
  rw [getElem?_indexSelect, hindex, Option.map_some, getD_eq_getElem?_getD, h.totalPrefixBlocks]
  simp [hi]

/-- The suffix of a request behind `t` blocks of prefix. -/
theorem suffix_getElem? (blockSize : Nat) {req : List Int} {t : Int}
    (hbtP : g.btP = indexSelect [] batch.blockTable g.perm) (hr : g.perm[k]? = some r)
    (hreq : req[k]? = some t) :
    let kv := zipWith (· - ·) (indexSelect 0 batch.seqLens g.perm)
      (req.map (· * (blockSize : Int)))
    let blocks := kv.map fun n => (n + ((blockSize : Int) - 1)) / (blockSize : Int)
    let suffixBlocks := (batch.seqLens.getD r 0 - t * blockSize + (blockSize - 1)) / blockSize
    kv[k]? = some (batch.seqLens.getD r 0 - t * blockSize) ∧ blocks[k]? = some suffixBlocks ∧
      (makeSuffixBlockTable batch.cols g.btP req blocks (maxOf blocks))[k]? =
        some (suffixRow batch.cols (maxOf blocks) t suffixBlocks (batch.blockTable.getD r [])) := by
  intro kv blocks suffixBlocks
  have hrow : g.btP[k]? = some (batch.blockTable.getD r []) := by
    rw [hbtP, getElem?_indexSelect, hr]
    rfl
  have hkv : kv[k]? = some (batch.seqLens.getD r 0 - t * blockSize) := by
    simp only [kv, getElem?_zipWith, getElem?_map, hreq, getElem?_indexSelect, hr, Option.map_some]
  have hblocks : blocks[k]? = some suffixBlocks := by
    rw [getElem?_map, hkv]
    rfl
  have hzip : (g.btP.zip (req.zip blocks))[k]? = some (batch.blockTable.getD r [], t, suffixBlocks) :=
    getElem?_zip_eq_some.mpr ⟨hrow, getElem?_zip_eq_some.mpr ⟨hreq, hblocks⟩⟩
  refine ⟨hkv, hblocks, ?_⟩
  rw [makeSuffixBlockTable, getElem?_map, hzip]
  rfl

/-- The metadata of a valid grouping. -/
theorem assemble_attends {md : Metadata} (hsize : 0 < blockSize) (hq : HasQueries batch lens)
    (hcols : ∀ n ∈ batch.seqLens, n ≤ batch.cols * blockSize)
    (hvalid : g.Valid batch.blockTable ((contextLens batch).map (· / (blockSize : Int))) start groups)
    (hmd : assemble batch blockSize g = some md) : AttendsOnce batch lens blockSize md := by
  have hB : g.perm.length = batch.blockTable.length := by simpa using hvalid.perm.length_eq
  set pl := g.perm.map fun r => lens.getD r 0 with hpl
  have hplLength : pl.length = batch.blockTable.length := by simp [hpl, hB]
  have hlensPacked : indexSelect 0 (queryLens batch) g.perm = pl.map fun (n : Nat) => (n : Int) := by
    rw [queryLens_eq hq, hpl, indexSelect, map_map]
    apply map_congr_left
    intro r _
    exact getD_cast lens r
  have hpacked : offsets (pl.map fun (n : Nat) => (n : Int)) =
      (cumulative pl).map fun (n : Nat) => (n : Int) := offsets_cast pl
  have hnats : (pl.map fun (n : Nat) => (n : Int)).map Int.toNat = pl := by
    rw [map_map]
    exact map_id' pl
  simp only [assemble, hlensPacked, hpacked, getLastD_cumulative, hnats, Int.toNat_natCast] at hmd
  split_ifs at hmd
  obtain rfl := Option.some.inj hmd
  have htokens := tokens_packed batch.queryStartLoc g.perm pl
  have hstop := hvalid.cover.start_eq.2
  rw [← hvalid.groupSizes_eq] at hstop
  constructor
  · exact hvalid.perm
  · rw [htokens, hpl, length_map, hq.2]
    exact tokens_perm (hq.1 ▸ hvalid.perm)
  · rfl
  · rw [htokens, hpl, length_map]
    apply flatMap_congr
    intro k hk
    have hlen : (g.perm.map fun r => lens.getD r 0).getD k 0 = lens.getD (g.perm.getD k 0) 0 := by
      simp [getD_eq_getElem?_getD, getElem?_eq_getElem (mem_range.mp hk)]
    rw [hlen]
  · refine ⟨by rw [hstop, zero_add], ?_⟩
    intro n hn
    rw [hvalid.groupSizes] at hn
    obtain ⟨gr, hgr, rfl⟩ := mem_map.mp hn
    have hlt := (hvalid.cover.bounds (mem_map_of_mem hgr)).2.1
    simp only [Group.range] at hlt
    omega
  · intro i hi
    have hi' : i ≤ groups.length := by simpa [hvalid.groupSizes] using hi
    have hoffsets := groupOffsets_eq pl (hplLength ▸ hvalid.cover) hi'
    rw [← hvalid.groupSizes_eq, ← hvalid.starts, ← hvalid.ends] at hoffsets
    exact hoffsets
  · intro i k r hin hr
    obtain ⟨hlow, hhigh⟩ := hin
    simp only at hlow hhigh hr
    obtain ⟨hi, hstart, hlt, hreq⟩ := hvalid.group_of hlow hhigh
    have hgr : groups[i] ∈ groups := getElem_mem hi
    have hle : groups[i].stop ≤ _ := (hvalid.cover.bounds (mem_map_of_mem hgr)).2.2
    have hkr : g.perm.getD k 0 = r := by
      rw [getD_eq_getElem?_getD, hr]
      rfl
    have hrB : r < batch.blockTable.length :=
      mem_range.mp (hvalid.perm.mem_iff.mp (mem_of_getElem? hr))
    set t := groups[i].prefixBlocks with ht
    have htotal' : g.totalPrefixBlocks[i]? = some t := by
      simp [hvalid.totalPrefixBlocks, hi, ht]
    obtain ⟨hsuffix, hblocks, hsuffixRow⟩ := suffix_getElem? blockSize hvalid.btP hr hreq
    have hfirst : (indexSelect [] g.btP g.starts)[i]? =
        some (batch.blockTable.getD (g.perm.getD groups[i].start 0) []) := by
      rw [getElem?_indexSelect, hvalid.starts, getElem?_map, getElem?_eq_getElem hi,
        Option.map_some, Option.map_some, hvalid.btP, getD_indexSelect _ _ (by omega)]
    refine ⟨t * blockSize, batch.seqLens.getD r 0 - t * blockSize,
      (batch.blockTable.getD (g.perm.getD groups[i].start 0) []).take
        (maxOf g.totalPrefixBlocks).toNat, _, ?_, hsuffix, ?_, hsuffixRow, ?_⟩
    · simp [htotal']
    · rw [getElem?_map, hfirst]
      rfl
    · have hwidth : ∀ r', r' < batch.blockTable.length →
          (batch.blockTable.getD r' []).length = batch.cols := by
        intro r' hr'
        apply batch.width
        rw [getD_eq_getElem?_getD, getElem?_eq_getElem hr']
        exact getElem_mem hr'
      have hfirstB : g.perm.getD groups[i].start 0 < batch.blockTable.length := by
        have hmem : g.perm.getD groups[i].start 0 ∈ g.perm := by
          rw [getD_eq_getElem?_getD, getElem?_eq_getElem (by omega)]
          exact getElem_mem _
        exact mem_range.mp (hvalid.perm.mem_iff.mp hmem)
      have hfull := hvalid.full groups[i] hgr k (by omega) (by omega)
      have hshared := hvalid.shared groups[i] hgr k (by omega) (by omega)
      rw [hkr] at hfull hshared
      have hcontext : ((contextLens batch).map (· / (blockSize : Int))).getD r 0 =
          (batch.seqLens.getD r 0 - (lens.getD r 0 : Nat)) / blockSize := by
        have hlength : r < (contextLens batch).length := by
          simp [contextLens, queryLens_eq hq, batch.seqLens_length, hq.1, hrB]
        rw [← getD_contextLens hq hrB]
        simp [getD_eq_getElem?_getD, getElem?_eq_getElem hlength]
      have hseq : batch.seqLens.getD r 0 ∈ batch.seqLens := getD_mem (batch.seqLens_length ▸ hrB)
      apply covered hsize (hwidth r hrB) (hwidth _ hfirstB)
      · exact (Int.natCast_nonneg start).trans (hvalid.least groups[i] hgr)
      · rw [← hcontext]
        exact hfull
      · exact hcols _ hseq
      · exact hshared
      · exact le_maxOf (mem_of_getElem? htotal')
      · exact le_maxOf (mem_of_getElem? hblocks)

/-- Metadata that are built for a batch: its rows share the common prefix and have a block for every
key. -/
theorem forest_attends_once (batch : Batch) (lens : List Nat) (blockSize : Nat)
    (commonPrefixLen : Int) (th : Thresholds) (md : Metadata) (hsize : 0 < blockSize)
    (hq : HasQueries batch lens) (hcols : ∀ n ∈ batch.seqLens, n ≤ batch.cols * blockSize)
    (hshared : ∀ row ∈ batch.blockTable, ∀ row' ∈ batch.blockTable,
      row.take (commonPrefixLen / blockSize).toNat = row'.take (commonPrefixLen / blockSize).toNat)
    (hmd : tryBuild batch commonPrefixLen blockSize th = some md) :
    AttendsOnce batch lens blockSize md := by
  simp only [tryBuild] at hmd
  split_ifs at hmd with _ hneg _ _ _ hmin
  obtain ⟨g, hgroup, hassemble⟩ := Option.bind_eq_some_iff.mp hmd
  have hpos : (0 : Int) < blockSize := by omega
  have hlength : ((contextLens batch).map (· / (blockSize : Int))).length =
      batch.blockTable.length := by
    simp [contextLens, queryLens_eq hq, batch.seqLens_length, hq.1]
  have hfull : ∀ f ∈ (contextLens batch).map (· / (blockSize : Int)),
      ((commonPrefixLen / blockSize).toNat : Int) ≤ f := by
    intro f hf
    obtain ⟨n, hn, rfl⟩ := mem_map.mp hf
    have hle : minOf (contextLens batch) / blockSize ≤ n / blockSize :=
      Int.ediv_le_ediv hpos (minOf_le hn)
    have hnonneg : 0 ≤ commonPrefixLen / blockSize := Int.ediv_nonneg (by omega) hpos.le
    omega
  obtain ⟨groups, hvalid⟩ := sortAndGroup_valid hlength hfull hshared hgroup
  exact assemble_attends hsize hq hcols hvalid hassemble

/-- Four requests that share one block, in two groups. -/
def fourRequests : Batch where
  cols := 5
  blockTable := [[1, 2, 3, 4, 0], [1, 9, 8, 0, 0], [1, 2, 3, 5, 0], [1, 9, 8, 7, 0]]
  seqLens := [14, 11, 13, 16]
  queryStartLoc := [0, 1, 2, 4, 5]
  width := by decide
  seqLens_length := rfl

theorem forest_attends_once_four :
    ∃ md, tryBuild fourRequests 4 (4 : Nat) ⟨2, 1, fun n B => decide (2 * n < B), 4⟩ = some md ∧
      md.perm = [2, 0, 1, 3] ∧ md.tokenPerm = [2, 3, 0, 1, 4] ∧ md.groupSizes = [2, 2] ∧
      md.prefixBlockTable = [[1, 2], [1, 9]] ∧
      md.suffixBlockTable = [[3, 5], [3, 4], [8, 0], [8, 7]] ∧
      AttendsOnce fourRequests [1, 1, 2, 1] 4 md := by
  have hrun : (tryBuild fourRequests 4 (4 : Nat) ⟨2, 1, fun n B => decide (2 * n < B), 4⟩).any
      (fun md => md.perm = [2, 0, 1, 3] ∧ md.tokenPerm = [2, 3, 0, 1, 4] ∧ md.groupSizes = [2, 2] ∧
        md.prefixBlockTable = [[1, 2], [1, 9]] ∧
        md.suffixBlockTable = [[3, 5], [3, 4], [8, 0], [8, 7]]) = true := by
    decide_cbv
  obtain ⟨md, hmd, hfields⟩ := (Option.any_eq_true _ _).mp hrun
  obtain ⟨hperm, htokens, hsizes, hprefix, hsuffix⟩ := of_decide_eq_true hfields
  refine ⟨md, hmd, hperm, htokens, hsizes, hprefix, hsuffix, ?_⟩
  exact forest_attends_once fourRequests [1, 1, 2, 1] 4 4 _ md (by decide) ⟨rfl, by decide⟩
    (by decide) (by decide) hmd

end ArcticPlatform.ForestCascade
