import ArcticPlatform.Library.StableSort
import ArcticPlatform.Library.SuffixMeans

/-!
# Second-moment masking

`_apply_m2po_masking` keeps the tokens with the smallest second moments: it sorts them in
decreasing order, cuts where the mean of what is behind first falls below the threshold, and
writes the result back through the mask.  Masks and tensors are flat lists in row-major order,
and arithmetic is that of an ordered field.

Main results:

- Theorem `applyM2poMasking_keeps`: the mask that is returned, for every input.
-/

namespace ArcticPlatform.Grpo

open StableSort SuffixMeans List

variable {K : Type*} [Field K] [LinearOrder K]

/-! ## The function -/

/-- `x[mask]` for a boolean mask. -/
def select (x : List K) (mask : List Bool) : List K :=
  ((x.zip mask).filter fun e => e.2).map fun e => e.1

/-- `out = torch.zeros_like(mask)` and then `out[mask] = values`. -/
def maskedAssign : List Bool → List Bool → List Bool
  | [], _ => []
  | false :: mask, values => false :: maskedAssign mask values
  | true :: mask, values => values.headD false :: maskedAssign mask values.tail

/-- `x.cumsum(0)`. -/
def cumsum (x : List K) : List K := (range x.length).map fun i => (x.take (i + 1)).sum

/-- `_apply_m2po_masking`; `sort` gives the positions of `torch.sort` with
`descending=True`. -/
def applyM2poMasking (sort : List K → List Nat) (oldLogp proxLogp : List K) (lossMask : List Bool)
    (m2Threshold : K) : Except String (List Bool) :=
  let delta := zipWith (· - ·) oldLogp proxLogp
  let m2 := delta.map fun d => d * d
  let m2Selected := select m2 lossMask
  if m2Selected.length = 0 then .ok lossMask
  else
    let indices := sort m2Selected
    let sortedM2 := indices.map fun i => m2Selected.getD i 0
    let restoredIndices := argsort indices
    let n := sortedM2.length
    let suffixSums := (cumsum sortedM2.reverse).reverse
    let counts := (range n).map fun i => ((n - i : Nat) : K)
    let avgM2Suffix := zipWith (· / ·) suffixSums counts
    let below := (range n).filter fun i => avgM2Suffix.getD i 0 < m2Threshold
    let numToMask := below.head?.getD (n - 1)
    let sortedMask := (range n).map fun i => decide (numToMask ≤ i)
    if sortedMask.count true = 0 then
      .error "All tokens are masked out when applying M2PO masking."
    else
      let m2SelectedMask := restoredIndices.map fun i => sortedMask.getD i false
      .ok (maskedAssign lossMask m2SelectedMask)

/-- What `torch.sort` with `descending=True` gives: every position once, values in
decreasing order and ties in any order. -/
structure SortsDescending (sort : List K → List Nat) : Prop where
  perm : ∀ x, (sort x).Perm (range x.length)
  sorted : ∀ x, ((sort x).map fun i => x.getD i 0).Pairwise (· ≥ ·)

/-! ## Masks -/

section Masks

variable {x : List K} {mask values : List Bool} {p : Nat}

/-- The position of a token among the selected ones. -/
def rank (mask : List Bool) (p : Nat) : Nat := (mask.take p).count true

omit [LinearOrder K] [Field K] in
theorem length_select (hx : x.length = mask.length) : (select x mask).length = mask.count true := by
  induction mask generalizing x with
  | nil => simp [select]
  | cons b mask ih =>
    cases x with
    | nil => simp at hx
    | cons a x =>
      have hrest := ih (by simpa using hx)
      simp only [select, length_map] at hrest ⊢
      cases b <;> simp [hrest]

omit [LinearOrder K] [Field K] in
theorem select_rank (hx : x.length = mask.length) (hp : mask[p]? = some true) :
    (select x mask)[rank mask p]? = x[p]? := by
  induction mask generalizing x p with
  | nil => simp at hp
  | cons b mask ih =>
    cases x with
    | nil => simp at hx
    | cons a x =>
      have hlength : x.length = mask.length := by simpa using hx
      have hselect : select (a :: x) (b :: mask) =
          if b then a :: select x mask else select x mask := by
        cases b <;> simp [select]
      cases p with
      | zero =>
        obtain rfl : b = true := by simpa using hp
        rw [hselect]
        rfl
      | succ p =>
        have hrest := ih hlength (by simpa using hp)
        rw [hselect]
        cases b <;> simpa [rank] using hrest

theorem length_maskedAssign : (maskedAssign mask values).length = mask.length := by
  induction mask generalizing values with
  | nil => rfl
  | cons b mask ih => cases b <;> simp [maskedAssign, ih]

theorem maskedAssign_eq_true : (maskedAssign mask values)[p]? = some true ↔
    mask[p]? = some true ∧ values[rank mask p]? = some true := by
  induction mask generalizing values p with
  | nil => simp [maskedAssign]
  | cons b mask ih =>
    cases p with
    | zero => cases b <;> cases values <;> simp [maskedAssign, rank]
    | succ p =>
      cases b with
      | false => simpa [maskedAssign, rank] using ih
      | true =>
        rw [maskedAssign, getElem?_cons_succ, ih]
        simp [rank]

theorem rank_lt (hp : mask[p]? = some true) : rank mask p < mask.count true := by
  obtain ⟨hlt, hget⟩ := List.getElem?_eq_some_iff.mp hp
  have hsplit : mask = mask.take p ++ true :: mask.drop (p + 1) := by
    rw [← hget, ← drop_eq_getElem_cons hlt, take_append_drop]
  conv_rhs => rw [hsplit]
  simp [rank]

theorem count_maskedAssign (hvalues : values.length = mask.count true) :
    (maskedAssign mask values).count true = values.count true := by
  induction mask generalizing values with
  | nil =>
    rw [eq_nil_of_length_eq_zero hvalues]
    rfl
  | cons b mask ih =>
    cases b with
    | false => simpa [maskedAssign] using ih (by simpa using hvalues)
    | true =>
      cases values with
      | nil => simp at hvalues
      | cons v values =>
        have hrest := @ih values (by simpa using hvalues)
        cases v <;> simp [maskedAssign, hrest]

end Masks

/-! ## The cut -/

section Cut

variable {x : List K} {i n : Nat}

omit [LinearOrder K] in
theorem suffixSums_eq (x : List K) :
    (cumsum x.reverse).reverse = (range x.length).map fun i => (x.drop i).sum := by
  apply ext_getElem
  · simp [cumsum]
  · intro i hi hi'
    have hlt : i < x.length := by simpa using hi'
    simp only [cumsum, getElem_reverse, getElem_map, getElem_range, length_map,
      length_range, length_reverse]
    have hback : x.length - 1 - i + 1 = x.length - i := by omega
    rw [hback, take_reverse, sum_reverse]
    congr 2
    omega

theorem below_eq (x : List K) (threshold : K) :
    ((range x.length).filter fun i => (zipWith (· / ·) (cumsum x.reverse).reverse
        ((range x.length).map fun i => ((x.length - i : Nat) : K))).getD i 0 < threshold).head? =
      firstBelow x threshold := by
  rw [firstBelow]
  congr 1
  apply filter_congr
  intro i hi
  have hlt := mem_range.mp hi
  rw [suffixSums_eq]
  simp only [getD_eq_getElem?_getD, getElem?_zipWith, getElem?_map,
    getElem?_range hlt, Option.map_some, Option.getD_some]
  rfl

theorem count_cut (n c : Nat) : ((range n).map fun i => decide (c ≤ i)).count true = n - c := by
  induction n with
  | zero => simp
  | succ n ih =>
    rw [range_succ, map_append, count_append, ih, map_singleton]
    by_cases hc : c ≤ n
    · simp [hc]
      omega
    · simp [hc]
      omega

theorem count_cut_of_perm {indices : List Nat} (hperm : indices.Perm (range n)) (c : Nat) :
    ((range n).map fun j => decide (c ≤ indices.idxOf j)).count true = n - c := by
  have hnodup : indices.Nodup := hperm.nodup_iff.mpr nodup_range
  have hlength : indices.length = n := by simpa using hperm.length_eq
  have hinverse : indices.map indices.idxOf = range n := by
    apply ext_getElem
    · simp [hlength]
    · intro i hi hi'
      rw [getElem_map, getElem_range, hnodup.idxOf_getElem]
  have hmap := hperm.map fun j => decide (c ≤ indices.idxOf j)
  rw [← hmap.count_eq, ← count_cut n c, ← hinverse, map_map]
  rfl

variable {sort : List K → List Nat}

theorem sorted_perm (hsort : SortsDescending sort) (x : List K) :
    ((sort x).map fun i => x.getD i 0).Perm x := by
  have hmap := (hsort.perm x).map fun i => x.getD i 0
  have hself : (range x.length).map (fun i => x.getD i 0) = x := by
    apply ext_getElem
    · simp
    · intro i hi hi'
      simp [getD_eq_getElem?_getD, hi']
  rwa [hself] at hmap

/-- The mean of the `k` smallest values. -/
def smallestMean (values : List K) (k : Nat) : K :=
  ((values.mergeSort fun a b => decide (a ≤ b)).take k).sum / k

theorem smallestMean_eq (hsort : SortsDescending sort) (x : List K) (hi : i ≤ x.length) :
    smallestMean x (x.length - i) = suffixMean ((sort x).map fun i => x.getD i 0) i := by
  set S := (sort x).map fun i => x.getD i 0
  have hperm : S.Perm x := sorted_perm hsort x
  have hlength := hperm.length_eq
  have hascending : x.mergeSort (fun a b => decide (a ≤ b)) = S.reverse := by
    have hleft : (x.mergeSort fun a b => decide (a ≤ b)).Pairwise (· ≤ ·) := by
      have hpairwise : (x.mergeSort fun a b => decide (a ≤ b)).Pairwise fun a b =>
          decide (a ≤ b) = true := by
        refine pairwise_mergeSort (fun a b c hab hbc => ?_) (fun a b => ?_) x
        · simp only [decide_eq_true_eq] at *
          exact hab.trans hbc
        · simpa using le_total a b
      simpa using hpairwise
    have hright : S.reverse.Pairwise (· ≤ ·) := pairwise_reverse.mpr (hsort.sorted x)
    exact ((mergeSort_perm _ _).trans (hperm.symm.trans S.reverse_perm.symm)).eq_of_pairwise
      (fun a b _ _ hab hba => le_antisymm hab hba) hleft hright
  rw [smallestMean, hascending, suffixMean, take_reverse, sum_reverse, hlength]
  congr 3
  omega

end Cut

/-! ## What is kept -/

section Kept

variable {sort : List K → List Nat} {oldLogp proxLogp m2 : List K} {mask : List Bool}
  {threshold threshold' : K}

/-- The mask keeps the tokens with the smallest second moments, as many as have a mean below the
threshold, and at least one. -/
structure KeepsSmallest (m2 : List K) (mask : List Bool) (threshold : K) (kept : List Bool) :
    Prop where
  length : kept.length = mask.length
  subset : ∀ p : Nat, kept[p]? = some true → mask[p]? = some true
  nonempty : 0 < mask.count true → 0 < kept.count true
  smallest : ∀ (p q : Nat) (a b : K), kept[p]? = some true → mask[q]? = some true → kept[q]? ≠ some true →
    m2[p]? = some a → m2[q]? = some b → a ≤ b
  below : 1 < kept.count true → smallestMean (select m2 mask) (kept.count true) < threshold
  largest : ∀ k, kept.count true < k → k ≤ mask.count true →
    ¬ smallestMean (select m2 mask) k < threshold

/-- `delta * delta`. -/
def secondMoments (oldLogp proxLogp : List K) : List K :=
  (zipWith (· - ·) oldLogp proxLogp).map fun d => d * d

/-- Where the sorted second moments are cut. -/
def cut (sorted : List K) (threshold : K) : Nat :=
  (firstBelow sorted threshold).getD (sorted.length - 1)

theorem cut_lt {sorted : List K} (hne : sorted ≠ []) : cut sorted threshold < sorted.length := by
  have hpos := length_pos_iff.mpr hne
  unfold cut
  cases hfirst : firstBelow sorted threshold with
  | none =>
    simp only [Option.getD_none]
    omega
  | some c => exact firstBelow_lt hfirst

/-- The mask with the tokens in front of the cut taken out. -/
def keptMask (sort : List K → List Nat) (m2 : List K) (mask : List Bool) (threshold : K) :
    List Bool :=
  let selected := select m2 mask
  let indices := sort selected
  let c := cut (indices.map fun i => selected.getD i 0) threshold
  maskedAssign mask ((range selected.length).map fun j => decide (c ≤ indices.idxOf j))

/-- The error is never raised. -/
theorem applyM2poMasking_eq (hsort : SortsDescending sort) (oldLogp proxLogp : List K)
    (mask : List Bool) (threshold : K) :
    applyM2poMasking sort oldLogp proxLogp mask threshold =
      .ok (if (select (secondMoments oldLogp proxLogp) mask).length = 0 then mask
        else keptMask sort (secondMoments oldLogp proxLogp) mask threshold) := by
  have hfold : (zipWith (· - ·) oldLogp proxLogp).map (fun d => d * d) =
      secondMoments oldLogp proxLogp := rfl
  unfold applyM2poMasking keptMask
  dsimp only
  rw [hfold]
  set selected := select (secondMoments oldLogp proxLogp) mask
  by_cases hempty : selected.length = 0
  · simp [hempty]
  · have hperm := hsort.perm selected
    set indices := sort selected
    set sorted := indices.map fun i => selected.getD i 0 with hsorted
    have hlength : sorted.length = selected.length := by
      rw [hsorted, length_map, hperm.length_eq, length_range]
    have hlt : cut sorted threshold < selected.length := by
      rw [← hlength]
      apply cut_lt
      intro hnil
      rw [hnil] at hlength
      exact hempty hlength.symm
    simp only [if_neg hempty, below_eq]
    rw [← cut, count_cut, if_neg (by omega), argsort_of_perm hperm, map_map, hlength]
    congr 2
    apply map_congr_left
    intro j hj
    have hmem : j ∈ indices := hperm.mem_iff.mpr hj
    have hidx : indices.idxOf j < selected.length := by
      have := idxOf_lt_length_of_mem hmem
      rwa [hperm.length_eq, length_range] at this
    simp [getD_eq_getElem?_getD, hidx]

theorem keptMask_eq_true {p : Nat} (hp : mask[p]? = some true)
    (hlength : (select m2 mask).length = mask.count true) :
    (keptMask sort m2 mask threshold)[p]? = some true ↔
      cut ((sort (select m2 mask)).map fun i => (select m2 mask).getD i 0) threshold ≤
        (sort (select m2 mask)).idxOf (rank mask p) := by
  have hlt : rank mask p < (select m2 mask).length := hlength ▸ rank_lt hp
  rw [keptMask, maskedAssign_eq_true]
  simp [hp, hlt]

theorem count_keptMask (hsort : SortsDescending sort)
    (hlength : (select m2 mask).length = mask.count true) :
    (keptMask sort m2 mask threshold).count true = mask.count true -
      cut ((sort (select m2 mask)).map fun i => (select m2 mask).getD i 0) threshold := by
  rw [keptMask, count_maskedAssign (by simpa using hlength),
    count_cut_of_perm (hsort.perm (select m2 mask)), hlength]

theorem sorted_idxOf (hsort : SortsDescending sort) {x : List K} {j : Nat} (hj : j < x.length) :
    ((sort x).map fun i => x.getD i 0)[(sort x).idxOf j]? = some x[j] := by
  have hmem : j ∈ sort x := (hsort.perm x).mem_iff.mpr (mem_range.mpr hj)
  have hget := getElem_idxOf (idxOf_lt_length_of_mem hmem)
  rw [getElem?_map, getElem?_eq_getElem (idxOf_lt_length_of_mem hmem), hget]
  simp [getD_eq_getElem?_getD, hj]

variable [IsStrictOrderedRing K]

/-- Masks that are kept consist of the tokens with the smallest second moments. -/
theorem keptMask_keeps (hsort : SortsDescending sort) (hm2 : m2.length = mask.length)
    (hne : (select m2 mask).length ≠ 0) :
    KeepsSmallest m2 mask threshold (keptMask sort m2 mask threshold) := by
  have hlength := length_select hm2
  set x := select m2 mask
  set S := (sort x).map fun i => x.getD i 0
  have hsorted : S.Pairwise (· ≥ ·) := hsort.sorted x
  have hlengthS : S.length = x.length := (sorted_perm hsort x).length_eq
  have hlt : cut S threshold < x.length := by
    rw [← hlengthS]
    apply cut_lt
    intro hnil
    rw [hnil] at hlengthS
    exact hne hlengthS.symm
  have hcount : (keptMask sort m2 mask threshold).count true = x.length - cut S threshold := by
    rw [hlength]
    exact count_keptMask hsort hlength
  have hsubset : ∀ p : Nat, (keptMask sort m2 mask threshold)[p]? = some true →
      mask[p]? = some true := fun p hp => (maskedAssign_eq_true.mp hp).1
  constructor
  · exact length_maskedAssign
  · exact hsubset
  · omega
  · intro p q a b hp hmaskq hq ha hb
    have hmaskp := hsubset p hp
    have hcutp : cut S threshold ≤ (sort x).idxOf (rank mask p) :=
      (keptMask_eq_true hmaskp hlength).mp hp
    have hcutq : ¬ cut S threshold ≤ (sort x).idxOf (rank mask q) :=
      fun hle => hq ((keptMask_eq_true hmaskq hlength).mpr hle)
    have hrankp : rank mask p < x.length := hlength ▸ rank_lt hmaskp
    have hrankq : rank mask q < x.length := hlength ▸ rank_lt hmaskq
    have hap : x[rank mask p] = a := by
      rw [← select_rank hm2 hmaskp, getElem?_eq_getElem hrankp] at ha
      exact Option.some.inj ha
    have hbq : x[rank mask q] = b := by
      rw [← select_rank hm2 hmaskq, getElem?_eq_getElem hrankq] at hb
      exact Option.some.inj hb
    obtain ⟨hltp, hgetp⟩ := List.getElem?_eq_some_iff.mp (sorted_idxOf hsort hrankp)
    obtain ⟨hltq, hgetq⟩ := List.getElem?_eq_some_iff.mp (sorted_idxOf hsort hrankq)
    have hge := pairwise_iff_getElem.mp hsorted _ _ hltq hltp (by omega)
    rwa [hgetp, hgetq, hap, hbq] at hge
  · intro hmany
    rw [hcount] at hmany ⊢
    rw [smallestMean_eq hsort x hlt.le, firstBelow_spec hsorted (by rwa [hlengthS])]
    cases hfirst : firstBelow S threshold with
    | none =>
      have hcut : cut S threshold = S.length - 1 := by rw [cut, hfirst, Option.getD_none]
      omega
    | some c => exact ⟨c, rfl, by rw [cut, hfirst, Option.getD_some]⟩
  · intro k hk hkn hbelow
    rw [hcount] at hk
    rw [← hlength] at hkn
    have hback : x.length - (x.length - k) = k := by omega
    rw [← hback, smallestMean_eq hsort x (by omega),
      firstBelow_spec hsorted (by rw [hlengthS]; omega)] at hbelow
    obtain ⟨c, hfirst, hc⟩ := hbelow
    have hcut : cut S threshold = c := by rw [cut, hfirst, Option.getD_some]
    omega

theorem cut_anti {sorted : List K} (hsorted : sorted.Pairwise (· ≥ ·)) (hne : sorted ≠ [])
    (hle : threshold ≤ threshold') : cut sorted threshold' ≤ cut sorted threshold := by
  cases hfirst : firstBelow sorted threshold with
  | none =>
    have hcut : cut sorted threshold = sorted.length - 1 := by rw [cut, hfirst, Option.getD_none]
    have hlt : cut sorted threshold' < sorted.length := cut_lt hne
    omega
  | some c =>
    have hlt := firstBelow_lt hfirst
    have hbelow := (firstBelow_spec hsorted hlt).mpr ⟨c, hfirst, le_rfl⟩
    obtain ⟨c', hfirst', hc'⟩ := (firstBelow_spec hsorted hlt).mp (hbelow.trans_le hle)
    rw [cut, cut, hfirst, hfirst']
    exact hc'

theorem keptMask_mono (hsort : SortsDescending sort) (hm2 : m2.length = mask.length)
    (hne : (select m2 mask).length ≠ 0) (hle : threshold ≤ threshold') {p : Nat}
    (hp : (keptMask sort m2 mask threshold)[p]? = some true) :
    (keptMask sort m2 mask threshold')[p]? = some true := by
  have hlength := length_select hm2
  have hmask : mask[p]? = some true := (maskedAssign_eq_true.mp hp).1
  have hne' : (sort (select m2 mask)).map (fun i => (select m2 mask).getD i 0) ≠ [] := by
    intro hnil
    have := (sorted_perm hsort (select m2 mask)).length_eq
    rw [hnil] at this
    exact hne this.symm
  rw [keptMask_eq_true hmask hlength] at hp ⊢
  exact (cut_anti (hsort.sorted _) hne' hle).trans hp

/-- The mask that is returned, for every input: a part of the mask that was given, the tokens
with the smallest second moments, growing with the threshold. -/
theorem applyM2poMasking_keeps (hsort : SortsDescending sort) (hold : oldLogp.length = mask.length)
    (hprox : proxLogp.length = mask.length) :
    ∃ kept : K → List Bool,
      (∀ threshold, applyM2poMasking sort oldLogp proxLogp mask threshold = .ok (kept threshold) ∧
        KeepsSmallest (secondMoments oldLogp proxLogp) mask threshold (kept threshold)) ∧
      ∀ (threshold threshold' : K) (p : Nat), threshold ≤ threshold' →
        (kept threshold)[p]? = some true → (kept threshold')[p]? = some true := by
  have hm2 : (secondMoments oldLogp proxLogp).length = mask.length := by
    simp [secondMoments, hold, hprox]
  by_cases hempty : (select (secondMoments oldLogp proxLogp) mask).length = 0
  · refine ⟨fun _ => mask, fun threshold => ⟨?_, ?_⟩, fun _ _ _ _ hp => hp⟩
    · rw [applyM2poMasking_eq hsort, if_pos hempty]
    · rw [length_select hm2] at hempty
      constructor
      · rfl
      · exact fun p hp => hp
      · exact fun hpos => hpos
      · exact fun p q a b _ hq hnot => absurd hq hnot
      · intro hmany
        dsimp only at hmany
        omega
      · intro k hk hkn
        dsimp only at hk
        omega
  · refine ⟨keptMask sort (secondMoments oldLogp proxLogp) mask, fun threshold => ⟨?_, ?_⟩, ?_⟩
    · rw [applyM2poMasking_eq hsort, if_neg hempty]
    · exact keptMask_keeps hsort hm2 hempty
    · exact fun threshold threshold' p hle hp => keptMask_mono hsort hm2 hempty hle hp

end Kept

/-! ## A concrete sort -/

/-- The positions of a list by decreasing value, ties in their order. -/
def sortDescending (x : List K) : List Nat :=
  (range x.length).mergeSort fun i j => decide (x.getD j 0 ≤ x.getD i 0)

theorem sortDescending_sorts : SortsDescending (K := K) sortDescending := by
  constructor
  · intro x
    exact mergeSort_perm _ _
  · intro x
    have hpairwise : (sortDescending x).Pairwise fun i j => decide (x.getD j 0 ≤ x.getD i 0) := by
      refine pairwise_mergeSort (fun i j k hij hjk => ?_) (fun i j => ?_) _
      · simp only [decide_eq_true_eq] at *
        exact hjk.trans hij
      · simpa using le_total (x.getD j 0) (x.getD i 0)
    rw [pairwise_map]
    simpa using hpairwise

theorem applyM2poMasking_keeps_three : ∃ kept : ℚ → List Bool,
    (∀ threshold, applyM2poMasking sortDescending [1, 2, 3] [0, 0, 0] [true, false, true]
        threshold = .ok (kept threshold) ∧
      KeepsSmallest (secondMoments [1, 2, 3] [0, 0, 0]) [true, false, true] threshold
        (kept threshold)) ∧ ∀ (threshold threshold' : ℚ) (p : Nat), threshold ≤ threshold' →
      (kept threshold)[p]? = some true → (kept threshold')[p]? = some true :=
  applyM2poMasking_keeps sortDescending_sorts rfl rfl

end ArcticPlatform.Grpo
