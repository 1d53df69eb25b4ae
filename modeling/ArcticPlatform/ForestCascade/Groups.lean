import ArcticPlatform.ForestCascade.Model

/-!
# Groups of requests that share a prefix

The groups are consecutive ranges of the sorted requests.  Neighbours agree in at least
the blocks that are counted for them, hence all requests of a group agree in the blocks
of the group's prefix, and the prefix holds context of each of them.

Main results:

- Theorem `recursiveLcpSplit_consecutive`: the groups cover the requests.
- Theorem `take_eq_of_lcps`: the agreement of neighbours bounds that of a range.
- Theorem `sortAndGroup_valid`: what the grouping guarantees.
-/

namespace ArcticPlatform.ForestCascade

open Slices Vectors List

/-! ## Splitting -/

/-- The positions of a group. -/
def Group.range (g : Group) : Nat × Nat := (g.start, g.stop)

variable (adjLcps fullSorted : List Int) (startBlock minGroupSize : Int)

/-- The ranges that are left and those that are settled follow one another, from the last to the
first, and every settled group has the prefix of its range. -/
theorem splitLoop_consecutive {a b : Nat} (stack : List (Nat × Nat)) (results : List Group)
    (hranges : Consecutive a b (stack.reverse ++ (results.map Group.range).reverse))
    (hpre : ∀ g ∈ results, g.prefixBlocks = prefixOf adjLcps fullSorted startBlock g.start g.stop) :
    Consecutive a b
        ((splitLoop adjLcps fullSorted startBlock minGroupSize stack results).map Group.range).reverse ∧
      ∀ g ∈ splitLoop adjLcps fullSorted startBlock minGroupSize stack results,
        g.prefixBlocks = prefixOf adjLcps fullSorted startBlock g.start g.stop := by
  induction stack, results using splitLoop.induct adjLcps fullSorted startBlock minGroupSize with
  | case1 results =>
    rw [splitLoop]
    exact ⟨hranges, hpre⟩
  | case2 results s e stack hzero ih =>
    -- no range on the stack is empty
    have hlt := (hranges.bounds (r := (s, e)) (by simp)).2.1
    simp only at hlt
    omega
  | case3 results s e stack _ hone ih =>
    rw [splitLoop, if_neg (by omega), if_pos hone]
    apply ih
    · simpa [Group.range] using hranges
    · intro g hg
      rcases mem_append.mp hg with hg | hg
      · exact hpre g hg
      · rw [mem_singleton] at hg
        rw [hg, prefixOf, if_pos (le_of_eq hone)]
  | case4 results s e stack hzero hone split hsplit ih =>
    rw [splitLoop, if_neg hzero, if_neg hone, if_pos hsplit]
    apply ih _ hpre
    have hin := argmin_window_lt adjLcps (s := s) (e := e) (by omega)
    have hmid : s < split ∧ split < e := by omega
    simp only [reverse_cons, append_assoc] at hranges ⊢
    obtain ⟨c, hstack, hrest⟩ := consecutive_append.mp hranges
    apply consecutive_append.mpr
    refine ⟨c, hstack, ?_⟩
    obtain ⟨hs, hse, hdone⟩ := hrest
    exact ⟨hs, by simp only at hs; omega, rfl, hmid.2, hdone⟩
  | case5 results s e stack hzero hone split hsplit ih =>
    rw [splitLoop, if_neg hzero, if_neg hone, if_neg hsplit]
    apply ih
    · simpa [Group.range] using hranges
    · intro g hg
      rcases mem_append.mp hg with hg | hg
      · exact hpre g hg
      · rw [mem_singleton] at hg
        rw [hg]

theorem Group.le_total (g g' : Group) : (Group.le g g' || Group.le g' g) = true := by
  simp only [Group.le, Bool.or_eq_true, Bool.and_eq_true, decide_eq_true_eq]
  omega

theorem Group.le_trans (g g' g'' : Group) (h : Group.le g g' = true) (h' : Group.le g' g'' = true) :
    Group.le g g'' = true := by
  simp only [Group.le, Bool.or_eq_true, Bool.and_eq_true, decide_eq_true_eq] at *
  omega

/-- The groups follow one another and cover the requests; each has the prefix of its range. -/
theorem recursiveLcpSplit_consecutive {B : Nat} (hB : 0 < B) :
    Consecutive 0 B
        ((recursiveLcpSplit adjLcps fullSorted startBlock minGroupSize B).map Group.range) ∧
      ∀ g ∈ recursiveLcpSplit adjLcps fullSorted startBlock minGroupSize B,
        g.prefixBlocks = prefixOf adjLcps fullSorted startBlock g.start g.stop := by
  have hstart : Consecutive 0 B ([(0, B)].reverse ++ ([].map Group.range).reverse) := ⟨rfl, hB, rfl⟩
  obtain ⟨hranges, hpre⟩ := splitLoop_consecutive adjLcps fullSorted startBlock minGroupSize
    [(0, B)] [] hstart (by simp)
  set results := splitLoop adjLcps fullSorted startBlock minGroupSize [(0, B)] [] with hresults
  have hsorted : recursiveLcpSplit adjLcps fullSorted startBlock minGroupSize B =
      results.reverse := by
    have hanti : ∀ g g' : Group, g ∈ results.mergeSort Group.le → g' ∈ results.reverse →
        Group.le g g' = true → Group.le g' g = true → g = g' := by
      intro g g' _ _ h h'
      simp only [Group.le, Bool.or_eq_true, Bool.and_eq_true, decide_eq_true_eq] at h h'
      cases g
      cases g'
      simp only [Group.mk.injEq] at *
      omega
    -- the groups are settled from the last to the first
    have hreverse : results.reverse.Pairwise fun g g' => Group.le g g' = true := by
      rw [← map_reverse] at hranges
      apply (pairwise_map.mp hranges.sorted).imp
      intro g g' hlt
      simp only [Group.range] at hlt
      simp [Group.le, hlt]
    exact Perm.eq_of_pairwise hanti (pairwise_mergeSort Group.le_trans Group.le_total _)
      hreverse ((mergeSort_perm _ _).trans (reverse_perm _).symm)
  rw [hsorted, map_reverse]
  refine ⟨hranges, fun g hg => hpre g (mem_reverse.mp hg)⟩

variable {adjLcps fullSorted startBlock}

/-! ## Agreement -/

theorem take_maskedRow {start stop n : Nat} {row : List Int} {full : Int}
    (hfull : ((start + n : Nat) : Int) ≤ full) :
    (maskedRow start stop row full).take n = (slice row start stop).take n := by
  apply ext_getElem?
  intro i
  simp only [maskedRow, getElem?_take, getElem?_map, getElem?_zipIdx]
  split_ifs with hi
  · cases (slice row start stop)[i]? with
    | none => rfl
    | some x =>
      have hlt : ((start + (0 + i) : Nat) : Int) < full := by
        push_cast at hfull ⊢
        omega
      simp only [Option.map_some, if_pos hlt]
  · rfl

theorem take_eq_of_masked {start stop n : Nat} {row row' : List Int} {full full' : Int}
    (hagree : n ≤ agreement (maskedRow start stop row full) (maskedRow start stop row' full'))
    (hfull : ((start + n : Nat) : Int) ≤ full) (hfull' : ((start + n : Nat) : Int) ≤ full')
    (hstart : row.take start = row'.take start) : row.take (start + n) = row'.take (start + n) := by
  have hmasked := take_agreement _ _ hagree
  rw [take_maskedRow hfull, take_maskedRow hfull'] at hmasked
  have hwidth : n ≤ stop - start := by
    have hlen := le_trans hagree (agreement_le_length _ _)
    simp only [maskedRow, length_map, length_zipIdx, slice, length_take] at hlen
    omega
  rw [slice, slice, take_take, take_take, min_eq_left hwidth] at hmasked
  rw [take_add, take_add, hstart, hmasked]

/-- Neighbours that agree: all rows of a range agree with its first. -/
theorem take_eq_of_lcps {rows : Nat → List Int} {s e c : Nat}
    (hlcp : ∀ i, s ≤ i → i + 1 < e → (rows i).take c = (rows (i + 1)).take c) {k : Nat} (hs : s ≤ k)
    (he : k < e) : (rows k).take c = (rows s).take c := by
  induction k, hs using Nat.le_induction with
  | base => rfl
  | succ k hk ih => rw [← hlcp k hk he, ih (by omega)]

/-! ## Prefixes -/

theorem getD_mem_slice {l : List Int} {a b i : Nat} (ha : a ≤ i) (hb : i < b) (hi : i < l.length) :
    l.getD i 0 ∈ slice l a b := by
  have hget : (slice l a b)[i - a]? = some (l.getD i 0) := by
    rw [slice, getElem?_take, if_pos (by omega), getElem?_drop, Nat.add_sub_cancel' ha,
      getD_eq_getElem?_getD, getElem?_eq_getElem hi]
    rfl
  exact mem_of_getElem? hget

variable {s e : Nat}

/-- The prefix of a range lies inside the full blocks of its requests and inside what neighbours
agree on. -/
theorem prefixOf_le (startBlock : Int) (hse : s < e) (hfull : e ≤ fullSorted.length)
    (hlcp : e ≤ adjLcps.length + 1) :
    (∀ k, s ≤ k → k < e → prefixOf adjLcps fullSorted startBlock s e ≤ fullSorted.getD k 0) ∧
      ∀ i, s ≤ i → i + 1 < e →
        prefixOf adjLcps fullSorted startBlock s e ≤ startBlock + adjLcps.getD i 0 := by
  rw [prefixOf]
  split_ifs with hone
  · constructor
    · intro k hs he
      rw [show k = s by omega]
    · intro i hs he
      omega
  · constructor
    · intro k hs he
      exact (min_le_right _ _).trans (minOf_le (getD_mem_slice hs he (by omega)))
    · intro i hs he
      have hmin := minOf_le (getD_mem_slice hs (b := e - 1) (by omega) (l := adjLcps) (by omega))
      have hle := min_le_left (startBlock + minOf (slice adjLcps s (e - 1)))
        (minOf (slice fullSorted s e))
      omega

theorem le_prefixOf (hse : s < e) (hfull : e ≤ fullSorted.length) (hlcp : e ≤ adjLcps.length + 1)
    (hleast : ∀ f ∈ fullSorted, startBlock ≤ f) (hnonneg : ∀ n ∈ adjLcps, 0 ≤ n) :
    startBlock ≤ prefixOf adjLcps fullSorted startBlock s e := by
  rw [prefixOf]
  split_ifs with hone
  · exact hleast _ (getD_mem (by omega))
  · have hmem : ∀ {l : List Int} {b : Nat}, s < b → b ≤ l.length → minOf (slice l s b) ∈ l := by
      intro l b hsb hb
      have hne : slice l s b ≠ [] := ne_nil_of_mem (getD_mem_slice (le_refl s) hsb (by omega))
      exact mem_of_mem_drop (mem_of_mem_take (minOf_mem hne))
    have hlcps := hnonneg _ (hmem (l := adjLcps) (b := e - 1) (by omega) (by omega))
    have hfulls := hleast _ (hmem (l := fullSorted) (b := e) hse hfull)
    exact le_min (by omega) hfulls

/-! ## Sorted requests -/

theorem getD_indexSelect {α : Type} (default : α) (t : List α) {perm : List Nat} {k : Nat}
    (hk : k < perm.length) :
    (indexSelect default t perm).getD k default = t.getD (perm.getD k 0) default := by
  simp [indexSelect, getD_eq_getElem?_getD, getElem?_eq_getElem hk]

variable {bt : List (List Int)}

theorem getD_adjacentLcps {i : Nat} (hbt : i + 1 < bt.length) (hfull : i + 1 < fullSorted.length) :
    (adjacentLcps startBlock bt fullSorted).getD i 0 =
      min (agreement (bt.getD i []) (bt.getD (i + 1) []) : Int)
        (max (min (fullSorted.getD i 0) (fullSorted.getD (i + 1) 0) - startBlock) 0) := by
  have hbt' : i < bt.length - 1 := by omega
  have hfull' : i < fullSorted.length - 1 := by omega
  simp only [adjacentLcps, sum_cumprod, getD_eq_getElem?_getD, getElem?_zipWith,
    getElem?_tail, getElem?_dropLast, if_pos hbt', if_pos hfull',
    getElem?_eq_getElem hbt, getElem?_eq_getElem hfull, getElem?_eq_getElem (Nat.lt_of_succ_lt hbt),
    getElem?_eq_getElem (Nat.lt_of_succ_lt hfull), Option.getD_some]

theorem length_adjacentLcps (h : bt.length = fullSorted.length) :
    (adjacentLcps startBlock bt fullSorted).length = fullSorted.length - 1 := by
  simp [adjacentLcps, h]

theorem adjacentLcps_nonneg : ∀ n ∈ adjacentLcps startBlock bt fullSorted, 0 ≤ n := by
  intro n hn
  rw [adjacentLcps, ← map_uncurry_zip_eq_zipWith] at hn
  obtain ⟨⟨lcp, pair⟩, hmem, rfl⟩ := mem_map.mp hn
  obtain ⟨hlcp, hpair⟩ := of_mem_zip hmem
  rw [← map_uncurry_zip_eq_zipWith] at hlcp hpair
  obtain ⟨⟨r, r'⟩, -, rfl⟩ := mem_map.mp hlcp
  obtain ⟨⟨f, f'⟩, -, rfl⟩ := mem_map.mp hpair
  refine le_min ?_ (le_max_right _ _)
  rw [Function.uncurry_apply_pair, sum_cumprod]
  exact Int.natCast_nonneg _

variable {blockTable : List (List Int)} {fullBlocks : List Int}

theorem getD_zipWith_maskedRow {start stop : Nat} {j : Nat} (hj : j < blockTable.length)
    (hf : j < fullBlocks.length) :
    (zipWith (maskedRow start stop) blockTable fullBlocks).getD j [] =
      maskedRow start stop (blockTable.getD j []) (fullBlocks.getD j 0) := by
  simp only [getD_eq_getElem?_getD, getElem?_zipWith, getElem?_eq_getElem hj,
    getElem?_eq_getElem hf, Option.getD_some]

/-- The prefix of a range of sorted requests is at least the common prefix, lies in the full blocks of
the requests, and is common to them. -/
theorem prefixOf_shared {start stop : Nat}
    {perm : List Nat} (hlen : fullBlocks.length = blockTable.length)
    (hfull : ∀ f ∈ fullBlocks, (start : Int) ≤ f)
    (hshared : ∀ row ∈ blockTable, ∀ row' ∈ blockTable, row.take start = row'.take start)
    (hperm : perm.Perm (List.range blockTable.length)) (hse : s < e)
    (he : e ≤ blockTable.length) {P : Int} (hP : P = prefixOf (adjacentLcps start
        (indexSelect [] (zipWith (maskedRow start stop) blockTable fullBlocks) perm)
        (indexSelect 0 fullBlocks perm)) (indexSelect 0 fullBlocks perm) start s e) :
    start ≤ P ∧ ∀ k, s ≤ k → k < e → P ≤ fullBlocks.getD (perm.getD k 0) 0 ∧
      ∀ c, c ≤ P.toNat → (blockTable.getD (perm.getD k 0) []).take c =
        (blockTable.getD (perm.getD s 0) []).take c := by
  set fullSorted := indexSelect 0 fullBlocks perm with hsorted
  set bt := indexSelect [] (zipWith (maskedRow start stop) blockTable fullBlocks) perm with hbt
  set adj := adjacentLcps start bt fullSorted with hadj
  have hB : perm.length = blockTable.length := by simpa using hperm.length_eq
  have hfullLength : fullSorted.length = blockTable.length := by simp [hsorted, indexSelect, hB]
  have hbtLength : bt.length = blockTable.length := by simp [hbt, indexSelect, hB]
  have hadjLength : adj.length = blockTable.length - 1 := by
    rw [hadj, length_adjacentLcps (hbtLength.trans hfullLength.symm), hfullLength]
  have hindex : ∀ k, k < blockTable.length → perm.getD k 0 < blockTable.length := by
    intro k hk
    rw [← mem_range, ← hperm.mem_iff, getD_eq_getElem?_getD, getElem?_eq_getElem (hB ▸ hk)]
    exact getElem_mem _
  have hsortedFull : ∀ k, k < blockTable.length →
      fullSorted.getD k 0 = fullBlocks.getD (perm.getD k 0) 0 :=
    fun k hk => getD_indexSelect 0 fullBlocks (hB ▸ hk)
  have hleast : ∀ f ∈ fullSorted, (start : Int) ≤ f := by
    intro f hf
    obtain ⟨i, hi, rfl⟩ := mem_map.mp hf
    rw [hperm.mem_iff, mem_range, ← hlen] at hi
    exact hfull _ (getD_mem hi)
  have heFull : e ≤ fullSorted.length := by omega
  have heAdj : e ≤ adj.length + 1 := by omega
  have hle := prefixOf_le start hse heFull heAdj
  rw [← hP] at hle
  obtain ⟨hbelow, hneighbours⟩ := hle
  refine ⟨?_, fun k hs hk => ⟨?_, fun c hc => ?_⟩⟩
  · rw [hP]
    exact le_prefixOf hse heFull heAdj hleast adjacentLcps_nonneg
  · rw [← hsortedFull k (by omega)]
    exact hbelow k hs hk
  · have hneighbour : ∀ i, s ≤ i → i + 1 < e → (blockTable.getD (perm.getD i 0) []).take c =
        (blockTable.getD (perm.getD (i + 1) 0) []).take c := ?_
    · exact take_eq_of_lcps hneighbour hs hk
    intro i hsi hie
    have hrow : ∀ k, k < blockTable.length → blockTable.getD (perm.getD k 0) [] ∈ blockTable := by
      intro k hk
      rw [getD_eq_getElem?_getD, getElem?_eq_getElem (hindex k hk)]
      exact getElem_mem _
    have hcommon := hshared _ (hrow i (by omega)) _ (hrow (i + 1) (by omega))
    by_cases hcs : c ≤ start
    · -- inside the common prefix
      have htake := congrArg (take c) hcommon
      rwa [take_take, take_take, min_eq_left hcs] at htake
    · have hle := hneighbours i hsi hie
      rw [hadj, getD_adjacentLcps (by omega) (by omega), hsortedFull i (by omega),
        hsortedFull (i + 1) (by omega), hbt, getD_indexSelect _ _ (by omega),
        getD_indexSelect _ _ (by omega),
        getD_zipWith_maskedRow (hindex i (by omega)) (hlen ▸ hindex i (by omega)),
        getD_zipWith_maskedRow (hindex (i + 1) (by omega)) (hlen ▸ hindex (i + 1) (by omega))] at hle
      obtain ⟨n, rfl⟩ := Nat.exists_eq_add_of_le (Nat.le_of_not_le hcs)
      have hagree : n ≤ agreement
          (maskedRow start stop (blockTable.getD (perm.getD i 0) [])
            (fullBlocks.getD (perm.getD i 0) 0))
          (maskedRow start stop (blockTable.getD (perm.getD (i + 1) 0) [])
            (fullBlocks.getD (perm.getD (i + 1) 0) 0)) := by
        omega
      apply take_eq_of_masked hagree _ _ hcommon
      · push_cast
        omega
      · push_cast
        omega

/-! ## Grouping -/

/-- What the grouping guarantees: the requests are permuted, and the groups follow one another; the
prefix of a group is common to its requests and lies in their full blocks. -/
structure Grouping.Valid (blockTable : List (List Int)) (fullBlocks : List Int) (startBlock : Nat)
    (groups : List Group) (g : Grouping) : Prop where
  perm : g.perm.Perm (List.range blockTable.length)
  btP : g.btP = indexSelect [] blockTable g.perm
  starts : g.starts = groups.map Group.start
  ends : g.ends = groups.map Group.stop
  groupSizes : g.groupSizes = groups.map fun gr => gr.stop - gr.start
  totalPrefixBlocks : g.totalPrefixBlocks = groups.map Group.prefixBlocks
  cover : Consecutive 0 blockTable.length (groups.map Group.range)
  least : ∀ gr ∈ groups, (startBlock : Int) ≤ gr.prefixBlocks
  full : ∀ gr ∈ groups, ∀ k, gr.start ≤ k → k < gr.stop →
    gr.prefixBlocks ≤ fullBlocks.getD (g.perm.getD k 0) 0
  shared : ∀ gr ∈ groups, ∀ k, gr.start ≤ k → k < gr.stop →
    (blockTable.getD (g.perm.getD k 0) []).take gr.prefixBlocks.toNat =
      (blockTable.getD (g.perm.getD gr.start 0) []).take gr.prefixBlocks.toNat

/-- The grouping of a batch whose rows share the common prefix, which every request has in full. -/
theorem sortAndGroup_valid {cols start : Nat} {th : Thresholds} {g : Grouping}
    (hlen : fullBlocks.length = blockTable.length) (hfull : ∀ f ∈ fullBlocks, (start : Int) ≤ f)
    (hshared : ∀ row ∈ blockTable, ∀ row' ∈ blockTable, row.take start = row'.take start)
    (hgroup : sortAndGroup cols blockTable fullBlocks start th = some g) :
    ∃ groups : List Group, g.Valid blockTable fullBlocks start groups := by
  obtain ⟨hB, hgroup⟩ := Option.ite_none_left_eq_some.mp hgroup
  -- the checks that follow hold whatever the groups are
  iterate 6 obtain ⟨-, hgroup⟩ := Option.ite_none_left_eq_some.mp hgroup
  obtain rfl := Option.some.inj hgroup
  set stop := (min (cols : Int) (maxOf fullBlocks)).toNat
  set perm := lexsort (zipWith (maskedRow start stop) blockTable fullBlocks) with hpermEq
  have hperm : perm.Perm (List.range blockTable.length) := by
    have hlength : (zipWith (maskedRow start stop) blockTable fullBlocks).length =
        blockTable.length := by simp [hlen]
    rw [hpermEq, lexsort, hlength]
    exact mergeSort_perm _ _
  set adj := adjacentLcps start
    (indexSelect [] (zipWith (maskedRow start stop) blockTable fullBlocks) perm)
    (indexSelect 0 fullBlocks perm)
  obtain ⟨hcover, hpre⟩ := recursiveLcpSplit_consecutive adj (indexSelect 0 fullBlocks perm) start
    th.minGroupSize (B := blockTable.length) (by omega)
  set groups := recursiveLcpSplit adj (indexSelect 0 fullBlocks perm) start th.minGroupSize
    blockTable.length
  -- a group keeps its prefix or the common one
  let adjust : Group → Group := fun gr => { gr with
    prefixBlocks := if gr.prefixBlocks - start < th.minAdditionalPrefixBlocks then (start : Int)
      else gr.prefixBlocks }
  have hadjust : ∀ gr ∈ groups, (start : Int) ≤ (adjust gr).prefixBlocks ∧
      ∀ k, gr.start ≤ k → k < gr.stop →
        (adjust gr).prefixBlocks ≤ fullBlocks.getD (perm.getD k 0) 0 ∧
        (blockTable.getD (perm.getD k 0) []).take (adjust gr).prefixBlocks.toNat =
          (blockTable.getD (perm.getD gr.start 0) []).take (adjust gr).prefixBlocks.toNat := by
    intro gr hgr
    obtain ⟨-, hlt, hstop⟩ := hcover.bounds (mem_map_of_mem hgr)
    obtain ⟨hleast, hrest⟩ := prefixOf_shared hlen hfull hshared hperm hlt hstop (hpre gr hgr)
    have hle : (start : Int) ≤ (adjust gr).prefixBlocks ∧
        (adjust gr).prefixBlocks ≤ gr.prefixBlocks := by
      simp only [adjust]
      split_ifs
      · exact ⟨le_refl _, hleast⟩
      · exact ⟨hleast, le_refl _⟩
    refine ⟨hle.1, fun k hs hk => ?_⟩
    obtain ⟨hbelow, htake⟩ := hrest k hs hk
    exact ⟨hle.2.trans hbelow, htake _ (by omega)⟩
  refine ⟨groups.map adjust, hperm, rfl, ?_, ?_, ?_, ?_, ?_, ?_, ?_, ?_⟩
  · rw [map_map]
    rfl
  · rw [map_map]
    rfl
  · rw [map_map]
    rfl
  · rw [map_map]
    rfl
  · rw [map_map]
    exact hcover
  · intro gr hgr
    obtain ⟨gr', hgr', rfl⟩ := mem_map.mp hgr
    exact (hadjust gr' hgr').1
  · intro gr hgr k hs hk
    obtain ⟨gr', hgr', rfl⟩ := mem_map.mp hgr
    exact ((hadjust gr' hgr').2 k hs hk).1
  · intro gr hgr k hs hk
    obtain ⟨gr', hgr', rfl⟩ := mem_map.mp hgr
    exact ((hadjust gr' hgr').2 k hs hk).2

end ArcticPlatform.ForestCascade
