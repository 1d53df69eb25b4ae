import ArcticPlatform.ForestCascade.Groups

/-!
# Every key is attended once

Prefix attention of a group reads the first blocks of its prefix row, and suffix attention
of a request reads its suffix row with the causal mask.  Together they read the keys that
causal attention of the request reads, each of them once.

Main results:

- Theorem `covered`: the prefix row and the suffix row are the request's own row.
- Theorem `tokens_perm`: the tokens of a request stay together and in order.
- Theorem `forest_attends_once`: the metadata of a batch.
-/

namespace ArcticPlatform.ForestCascade

open Scatter Slices Vectors List

/-! ## Keys -/

/-- The keys at the first positions of a row of blocks: the block and the slot in it. -/
def keys (row : List Int) (blockSize n : Nat) : List (Int × Nat) :=
  (range n).map fun t => (row.getD (t / blockSize) 0, t % blockSize)

/-- The keys that query `j` of `queryLen` queries attends under the causal mask: the last
query attends all of them. -/
def causalKeys (row : List Int) (blockSize kvLen queryLen j : Nat) : List (Int × Nat) :=
  keys row blockSize (kvLen - queryLen + j + 1)

theorem keys_congr {row row' : List Int} {blockSize m n : Nat} (hsize : 0 < blockSize)
    (hrow : row.take m = row'.take m) (hn : n ≤ m * blockSize) :
    keys row blockSize n = keys row' blockSize n := by
  apply map_congr_left
  intro t ht
  have hblock : t / blockSize < m :=
    (Nat.div_lt_iff_lt_mul hsize).mpr (lt_of_lt_of_le (mem_range.mp ht) hn)
  have hget : ∀ l : List Int, l.getD (t / blockSize) 0 = (l.take m).getD (t / blockSize) 0 := by
    intro l
    rw [getD_eq_getElem?_getD, getD_eq_getElem?_getD, getElem?_take, if_pos hblock]
  rw [hget row, hrow, ← hget]

theorem keys_append (row : List Int) {blockSize : Nat} (hsize : 0 < blockSize) (m n : Nat) :
    keys row blockSize (m * blockSize + n) =
      keys row blockSize (m * blockSize) ++ keys (row.drop m) blockSize n := by
  simp only [keys, range_add, map_append, map_map]
  congr 1
  apply map_congr_left
  intro t _
  have hdiv : (m * blockSize + t) / blockSize = m + t / blockSize := by
    rw [mul_comm, Nat.mul_add_div hsize]
  simp [hdiv, getD_eq_getElem?_getD, Nat.mul_add_mod_self_right]

/-- A request whose keys are split into those of its group's prefix row and those of its suffix
row. -/
structure Covered (row : List Int) (blockSize queryLen : Nat) (seqLen prefixLen suffixLen : Int)
    (prefixRow suffixRow : List Int) : Prop where
  whole : prefixLen = ((prefixLen.toNat / blockSize * blockSize : Nat) : Int)
  lens : prefixLen + suffixLen = seqLen
  context : prefixLen ≤ seqLen - queryLen
  inside : prefixLen.toNat / blockSize ≤ prefixRow.length
  own : prefixRow.take (prefixLen.toNat / blockSize) = row.take (prefixLen.toNat / blockSize)
  blocks : prefixRow.take (prefixLen.toNat / blockSize) ++
      suffixRow.take ((suffixLen + (blockSize - 1)) / blockSize).toNat =
    row.take ((seqLen + (blockSize - 1)) / blockSize).toNat
  attended : ∀ j, j < queryLen → causalKeys row blockSize seqLen.toNat queryLen j =
    keys prefixRow blockSize prefixLen.toNat ++
      causalKeys suffixRow blockSize suffixLen.toNat queryLen j

theorem take_suffixRow {cols m n : Nat} {maxSuffixBlocks : Int} {row : List Int}
    (hrow : row.length = cols) (hmax : (n : Int) ≤ maxSuffixBlocks) (hcols : m + n ≤ cols) :
    (suffixRow cols maxSuffixBlocks m n row).take n = (row.drop m).take n := by
  apply ext_getElem?
  intro i
  rw [getElem?_take, getElem?_take]
  split_ifs with hi
  · have hmem : i < maxSuffixBlocks.toNat := by omega
    have hlt : m + i < row.length := by omega
    have hvalid : ((i : Nat) : Int) < n ∧ (i : Int) + m < cols := by omega
    have hclamp : (min (max ((i : Int) + m) 0) ((cols : Int) - 1)).toNat = m + i := by omega
    rw [suffixRow, getElem?_map, getElem?_range hmem, Option.map_some, if_pos hvalid, hclamp,
      getElem?_drop, getD_eq_getElem?_getD, getElem?_eq_getElem hlt]
    rfl
  · rfl

/-- The prefix row and the suffix row of a request are its own row. -/
theorem covered {cols blockSize queryLen : Nat} {row first : List Int} {seqLen t : Int}
    {maxPrefixBlocks maxSuffixBlocks : Int} (hsize : 0 < blockSize) (hrow : row.length = cols)
    (hfirst : first.length = cols) (ht : 0 ≤ t) (hfull : t ≤ (seqLen - queryLen) / blockSize)
    (hcols : seqLen ≤ cols * blockSize) (hshared : row.take t.toNat = first.take t.toNat)
    (hpre : t ≤ maxPrefixBlocks)
    (hsuffix : (seqLen - t * blockSize + (blockSize - 1)) / blockSize ≤ maxSuffixBlocks) :
    Covered row blockSize queryLen seqLen (t * blockSize) (seqLen - t * blockSize)
      (first.take maxPrefixBlocks.toNat)
      (suffixRow cols maxSuffixBlocks t ((seqLen - t * blockSize + (blockSize - 1)) / blockSize)
        row) := by
  obtain ⟨m, rfl⟩ := Int.eq_ofNat_of_zero_le ht
  have hpos : (0 : Int) < blockSize := by omega
  -- the prefix holds context only
  have hcontext : (m : Int) * blockSize ≤ seqLen - queryLen := by
    calc (m : Int) * blockSize ≤ (seqLen - queryLen) / blockSize * blockSize :=
          mul_le_mul_of_nonneg_right hfull hpos.le
      _ ≤ seqLen - queryLen := Int.ediv_mul_le _ hpos.ne'
  have hdiv : ((m : Int) * blockSize).toNat / blockSize = m := by
    rw [← Nat.cast_mul, Int.toNat_natCast, Nat.mul_div_cancel _ hsize]
  obtain ⟨n, hn⟩ := Int.eq_ofNat_of_zero_le
    (show 0 ≤ (seqLen - m * blockSize + (blockSize - 1)) / blockSize from
      Int.ediv_nonneg (by omega) hpos.le)
  have hceil : (seqLen + (blockSize - 1)) / blockSize = ((m + n : Nat) : Int) := by
    have hshift : seqLen + (blockSize - 1) =
        seqLen - m * blockSize + (blockSize - 1) + m * blockSize := by ring
    rw [hshift, Int.add_mul_ediv_right _ _ hpos.ne', hn]
    push_cast
    ring
  have hfit : m + n ≤ cols := by
    have hle : (seqLen + (blockSize - 1)) / blockSize ≤ cols := by
      apply Int.lt_add_one_iff.mp
      apply Int.ediv_lt_of_lt_mul hpos
      linarith
    omega
  have hown : (first.take maxPrefixBlocks.toNat).take m = row.take m := by
    rw [take_take, min_eq_left (by omega)]
    simpa using hshared.symm
  have hsuffixRow : (suffixRow cols maxSuffixBlocks m n row).take n = (row.drop m).take n := by
    apply take_suffixRow hrow _ hfit
    omega
  rw [hn]
  refine ⟨?_, by ring, hcontext, ?_, ?_, ?_, ?_⟩
  · rw [hdiv]
    push_cast
    ring
  · rw [hdiv, length_take, hfirst]
    omega
  · rw [hdiv]
    exact hown
  · rw [hdiv, hown, hn, hceil, Int.toNat_natCast, Int.toNat_natCast, hsuffixRow, ← take_add]
  · intro j hj
    obtain ⟨q, hq⟩ := Int.eq_ofNat_of_zero_le (show 0 ≤ seqLen - m * blockSize by omega)
    have hseq : seqLen.toNat - queryLen + j + 1 = m * blockSize + (q - queryLen + j + 1) := by
      have hsum : seqLen = ((m * blockSize + q : Nat) : Int) := by
        push_cast
        linarith
      rw [hsum, Int.toNat_natCast]
      omega
    have hlast : q - queryLen + j + 1 ≤ n * blockSize := by
      have hle : q ≤ n * blockSize := by
        have hbound := Int.lt_ediv_add_one_mul_self (seqLen - m * blockSize + (blockSize - 1)) hpos
        rw [hn, hq] at hbound
        have hcast : ((q : Nat) : Int) ≤ ((n * blockSize : Nat) : Int) := by
          push_cast
          linarith
        exact_mod_cast hcast
      omega
    rw [causalKeys, causalKeys, hseq, keys_append row hsize, hq, Int.toNat_natCast,
      ← Nat.cast_mul, Int.toNat_natCast, keys_congr hsize hown.symm (le_refl _),
      keys_congr hsize hsuffixRow.symm hlast]

/-! ## Tokens -/

theorem zipWith_indexSelect (f : Nat → Int) (d : Nat → Int) (ids : List Nat) (l : List Nat) :
    zipWith (· + ·) (ids.map f)
        (zipWith (· - ·) (l.map fun (i : Nat) => (i : Int)) (ids.map d)) =
      zipWith (fun (k p : Nat) => f k + ((p : Int) - d k)) ids l := by
  induction ids generalizing l with
  | nil => simp
  | cons k ids ih =>
    cases l with
    | nil => simp
    | cons p l => simpa using ih l

theorem getD_cast (l : List Nat) (k : Nat) :
    (l.map fun (n : Nat) => (n : Int)).getD k 0 = (l.getD k 0 : Nat) := by
  simp only [getD_eq_getElem?_getD, getElem?_map]
  cases l[k]? <;> rfl

theorem getD_cumulative {l : List Nat} {k : Nat} (hk : k ≤ l.length) :
    (cumulative l).getD k 0 = (l.take k).sum := by
  rw [getD_eq_getElem?_getD, cumulative_getElem? hk]
  rfl

theorem map_getD_range (l : List Nat) : ((range l.length).map fun k => l.getD k 0) = l := by
  apply ext_getElem?
  intro i
  by_cases hi : i < l.length <;> simp [hi, getD_eq_getElem?_getD]

theorem tokens_packed (starts : List Int) (perm pl : List Nat) :
    zipWith (· + ·) (indexSelect 0 starts (indexSelect 0 perm (blockIndex pl)))
        (zipWith (· - ·) ((range pl.sum).map fun (i : Nat) => (i : Int))
          (indexSelect 0 ((cumulative pl).map fun (n : Nat) => (n : Int)) (blockIndex pl))) =
      (range pl.length).flatMap fun k =>
        (range (pl.getD k 0)).map fun (j : Nat) => starts.getD (perm.getD k 0) 0 + (j : Int) := by
  simp only [indexSelect, map_map]
  rw [zipWith_indexSelect, zipWith_blockIndex]
  apply flatMap_congr
  intro k hk
  apply map_congr_left
  intro j _
  rw [getD_cast, getD_cumulative (le_of_lt (mem_range.mp hk))]
  simp only [Function.comp_apply]
  push_cast
  ring

/-- The tokens of the packed requests are the tokens of the batch. -/
theorem tokens_perm {lens perm : List Nat} (hperm : perm.Perm (range lens.length)) :
    ((range perm.length).flatMap fun k =>
        (range ((perm.map fun r => lens.getD r 0).getD k 0)).map fun (j : Nat) =>
          ((cumulative lens).map fun (n : Nat) => (n : Int)).getD (perm.getD k 0) 0 + (j : Int)).Perm
      ((range lens.sum).map fun (i : Nat) => (i : Int)) := by
  let tokens : Nat → List Int := fun r => (range (lens.getD r 0)).map fun (j : Nat) =>
    ((cumulative lens).map fun (n : Nat) => (n : Int)).getD r 0 + (j : Int)
  have hpacked : ((range perm.length).flatMap fun k =>
      (range ((perm.map fun r => lens.getD r 0).getD k 0)).map fun (j : Nat) =>
        ((cumulative lens).map fun (n : Nat) => (n : Int)).getD (perm.getD k 0) 0 + (j : Int)) =
      perm.flatMap tokens := by
    conv_rhs => rw [← map_getD_range perm, flatMap_map]
    apply flatMap_congr
    intro k hk
    have hlen : (perm.map fun r => lens.getD r 0).getD k 0 = lens.getD (perm.getD k 0) 0 := by
      simp [getD_eq_getElem?_getD, getElem?_eq_getElem (mem_range.mp hk)]
    rw [hlen]
  have hall : (range lens.length).flatMap tokens =
      (range lens.sum).map fun (i : Nat) => (i : Int) := by
    rw [← flatMap_range_take, map_flatMap]
    apply flatMap_congr
    intro r hr
    rw [map_map]
    apply map_congr_left
    intro j _
    rw [getD_cast, getD_cumulative (le_of_lt (mem_range.mp hr))]
    simp
  rw [hpacked, ← hall]
  exact hperm.flatMap_right tokens

theorem scanl_groups (c : Nat → Int) {a b : Nat} {groups : List Group}
    (hcover : Consecutive a b (groups.map Group.range)) :
    (groups.map fun gr => c gr.stop - c gr.start).scanl (· + ·) (c a) =
      (groups.map fun gr => c gr.start) ++ [c b] := by
  induction groups generalizing a with
  | nil =>
    have hab : a = b := hcover
    simp [hab]
  | cons gr groups ih =>
    obtain ⟨hstart, -, hrest⟩ := hcover
    obtain rfl : gr.start = a := hstart
    have hnext : c gr.start + (c gr.stop - c gr.start) = c gr.stop := by ring
    simp only [map_cons, scanl_cons, hnext, cons_append]
    exact congrArg _ (ih hrest)

end ArcticPlatform.ForestCascade
