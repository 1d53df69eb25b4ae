import ArcticPlatform.Library.StableSort
import ArcticPlatform.Ulysses.RankLayout

/-!
# The order of the shift model's logits

The head of the shift model is cut over the SP_TP group: the rank at a position of the
group has the slice of the vocabulary with that number.  The gather puts the slices in
the order of the global ranks, the padding is cut off, and
`_fix_shift_logits_ordering` permutes pieces of the columns.

Main results:

- Theorem `computeShiftLogitsPerm_eq`: the permutation is the order of the group.
- Theorem `shift_logits_iff`: when the columns are in the order of the vocabulary.
-/

namespace ArcticPlatform.Ulysses

open Chunks Meshes StableSort StridedViews List Function

variable {α : Type}

/-! ## The code -/

/-- `_compute_shift_logits_perm`, from the ranks of `_SP_TP`. -/
def computeShiftLogitsPerm (spTp : Option (List Nat)) : Option (List Nat) :=
  match spTp with
  | none => none
  | some ranks =>
    let sortedRanks := ranks.mergeSort
    if ranks = sortedRanks then none
    else
      let ncclToShard := sortedRanks.map ranks.idxOf
      some (argsort ncclToShard)

/-- One row of `logits.view(-1, tp_size, shard_size)[:, perm, :]`, where the width divides. -/
def reorderRow (perm : List Nat) (row : List α) : List α :=
  if row.length % perm.length ≠ 0 then row
  else
    let shards := cut (replicate perm.length (row.length / perm.length)) row
    perm.flatMap fun i => shards.getD i []

/-- `_fix_shift_logits_ordering` on the logits of the step, if there are any. -/
def fixShiftLogitsOrdering (perm : Option (List Nat)) (logits : Option (List (List α))) :
    Option (List (List α)) :=
  match perm with
  | none => logits
  | some perm => logits.map fun rows => rows.map (reorderRow perm)

/-! ## The head and the gather -/

/-- The slice that the head gives to a position of the group. -/
def headSlice (head : Nat → α) (width p : Nat) : List α :=
  (range width).map fun j => head (p * width + j)

/-- The slices in the order of the global ranks, cut to the vocabulary. -/
def gatherLogits (ranks : List Nat) (width vocabSize : Nat) (head : Nat → α) : List α :=
  (ranks.mergeSort.flatMap fun rank => headSlice head width (ranks.idxOf rank)).take vocabSize

/-- After the step the columns of every row are the logits of the tokens in order. -/
def InVocabularyOrder (ranks : List Nat) (width vocabSize : Nat) : Prop :=
  ∀ (α : Type) (heads : List (Nat → α)),
    fixShiftLogitsOrdering (computeShiftLogitsPerm (some ranks))
        (some (heads.map (gatherLogits ranks width vocabSize))) =
      some (heads.map fun head => (range vocabSize).map head)

/-! ## Groups in any order -/

section Order

variable {order : List Nat} {n : Nat} (b : Nat)

theorem mergeSort_shifted (hperm : order.Perm (range n)) :
    (order.map (b + ·)).mergeSort = (range n).map (b + ·) := by
  have hsorted : ((range n).map (b + ·)).Pairwise fun x y => decide (x ≤ y) = true := by
    rw [pairwise_map]
    exact pairwise_lt_range.imp fun hlt => by simpa using le_of_lt hlt
  have hpairwise : (order.map (b + ·)).mergeSort.Pairwise fun x y => decide (x ≤ y) = true :=
    pairwise_mergeSort (by simpa using fun x y z => le_trans) (by simpa using le_total) _
  apply Perm.eq_of_pairwise _ hpairwise hsorted
    ((mergeSort_perm _ _).trans (hperm.map _))
  intro x y _ _ hxy hyx
  exact le_antisymm (by simpa using hxy) (by simpa using hyx)

theorem idxOf_shifted (order : List Nat) (k : Nat) : (order.map (b + ·)).idxOf (b + k) = order.idxOf k := by
  induction order with
  | nil => rfl
  | cons x order ih =>
    rw [map_cons, idxOf_cons, idxOf_cons, ih]
    rcases eq_or_ne x k with rfl | hne
    · simp
    · have hne' : b + x ≠ b + k := fun h => hne (add_left_cancel h)
      rw [beq_eq_false_iff_ne.mpr hne, beq_eq_false_iff_ne.mpr hne']

section

variable (hperm : order.Perm (range n))
include hperm

theorem map_idxOf_perm : ((range n).map order.idxOf).Perm (range n) := by
  have hself : order.map order.idxOf = range n := by
    have hnodup : order.Nodup := hperm.nodup_iff.mpr nodup_range
    apply ext_getElem (by simp [hperm.length_eq])
    intro i hi hi'
    simp [hnodup.idxOf_getElem]
  exact (hperm.symm.map order.idxOf).trans (hself ▸ .refl _)

theorem map_idxOf_idxOf : (range n).map ((range n).map order.idxOf).idxOf = order := by
  have hlength : order.length = n := by rw [hperm.length_eq, length_range]
  have hnodup : order.Nodup := hperm.nodup_iff.mpr nodup_range
  have hnodup' := (map_idxOf_perm hperm).nodup_iff.mpr nodup_range
  apply ext_getElem (by simp [hlength])
  intro q hq hq'
  have hlt : order[q] < n := mem_range.mp (hperm.subset (getElem_mem hq'))
  have hlt' : order[q] < ((range n).map order.idxOf).length := by simpa using hlt
  have hget : ((range n).map order.idxOf)[order[q]] = q := by simp [hnodup.idxOf_getElem]
  have hidx := hnodup'.idxOf_getElem order[q] hlt'
  rw [hget] at hidx
  simpa using hidx

/-- The permutation is the order of the group. -/
theorem computeShiftLogitsPerm_eq :
    computeShiftLogitsPerm (some (order.map (b + ·))) =
      if order = range n then none else some order := by
  have hinj : Injective fun l : List Nat => l.map (b + ·) :=
    map_injective_iff.mpr fun x y h => add_left_cancel h
  have hiff : order.map (b + ·) = (range n).map (b + ·) ↔ order = range n := hinj.eq_iff
  simp only [computeShiftLogitsPerm, mergeSort_shifted b hperm, hiff]
  split_ifs with hid
  · rfl
  · -- The rank at a position of the group, and the position of a rank, are inverse to each other.
    have hkeys : ((range n).map (b + ·)).map (order.map (b + ·)).idxOf =
        (range n).map order.idxOf := by
      rw [map_map]
      exact map_congr_left fun k _ => idxOf_shifted b order k
    rw [hkeys, argsort_of_perm (map_idxOf_perm hperm), map_idxOf_idxOf hperm]

theorem gatherLogits_eq {width vocabSize : Nat} (hv : vocabSize ≤ n * width) (head : Nat → α) :
    gatherLogits (order.map (b + ·)) width vocabSize head =
      (range vocabSize).map fun c => head (order.idxOf (c / width) * width + c % width) := by
  have hall : ((range n).flatMap fun k => headSlice head width (order.idxOf k)) =
      (range (n * width)).map fun c => head (order.idxOf (c / width) * width + c % width) := by
    rw [← rows_flatten, map_flatMap]
    apply flatMap_congr
    intro k _
    rw [headSlice, row, map_map]
    apply map_congr_left
    intro j hj
    obtain ⟨hdiv, hmod⟩ := (digits_iff (i := k) (mem_range.mp hj)).mp rfl
    rw [comp_apply, hdiv, hmod]
  rw [gatherLogits, mergeSort_shifted b hperm, flatMap_map]
  simp only [idxOf_shifted]
  rw [hall, ← map_take, take_range, min_eq_left hv]

theorem reorderRow_eq (m : Nat) (hn : 0 < n) (f : Nat → α) :
    reorderRow order ((range (n * m)).map f) =
      (range (n * m)).map fun v => f (order.getD (v / m) 0 * m + v % m) := by
  have hlength : order.length = n := by rw [hperm.length_eq, length_range]
  have hpieces : cut (replicate n m) ((range (n * m)).map f) =
      (range n).map fun i => (range m).map fun j => f (i * m + j) := by
    rw [← rows_flatten, map_flatMap, flatMap_def]
    have hsizes : ((range n).map fun i => (row m fun j => i * m + j).map f).map List.length =
        replicate n m := by simp [comp_def]
    rw [← hsizes, cut_flatten]
    simp [row, comp_def]
  have horder : order = (range n).map (order.getD · 0) := by
    apply ext_getElem (by simp [hlength])
    intro i hi hi'
    simp [hi]
  rw [reorderRow, hlength, length_map, length_range, if_neg (by simp),
    Nat.mul_div_cancel_left m hn, hpieces]
  conv_lhs => rw [horder]
  rw [flatMap_map, ← rows_flatten, map_flatMap]
  apply flatMap_congr
  intro q hq
  have hq' : order.getD q 0 < n := by
    rw [getD_eq_getElem _ _ (by rw [hlength]; exact mem_range.mp hq)]
    exact mem_range.mp (hperm.subset (getElem_mem _))
  rw [getD_eq_getElem _ _ (by simpa using hq'), getElem_map, getElem_range, row, map_map]
  apply map_congr_left
  intro j hj
  obtain ⟨hdiv, hmod⟩ := (digits_iff (i := q) (mem_range.mp hj)).mp rfl
  rw [comp_apply, hdiv, hmod]

end

end Order

/-! ## The order of the group -/

section Group

variable (s : ParallelSizes)

/-- The place in the group's block of ranks of the rank at each position. -/
def groupOrder : List Nat := addresses [⟨s.tp, 1⟩, ⟨s.sp, s.tp⟩]

theorem groupOrder_perm : (groupOrder s).Perm (range (s.tp * s.sp)) := by
  have hmajor : RowMajor [⟨s.sp, s.tp⟩, ⟨s.tp, 1⟩] := by simp [RowMajor]
  have hrange := addresses_eq_range hmajor
  rw [total_cons, total_cons, total_nil, mul_one, mul_comm] at hrange
  exact hrange ▸ addresses_perm (Perm.swap _ _ _)

theorem groupOrder_eq : groupOrder s =
    (range (s.tp * s.sp)).map fun p => p / s.sp + p % s.sp * s.tp := by
  rw [groupOrder, addresses_eq_row, row]
  simp [offset]

theorem groupOrder_getD {p : Nat} (hp : p < s.tp * s.sp) :
    (groupOrder s).getD p 0 = p / s.sp + p % s.sp * s.tp := by
  rw [groupOrder_eq, getD_eq_getElem _ _ (by simpa using hp)]
  simp

theorem groupOrder_eq_range_iff : groupOrder s = range (s.tp * s.sp) ↔ s.sp = 1 ∨ s.tp = 1 := by
  obtain ⟨-, -, -, hsp, htp⟩ := s.pos
  constructor
  · intro h
    by_contra hne
    have hone : 1 < s.tp * s.sp := by nlinarith [show 2 ≤ s.sp by omega, show 2 ≤ s.tp by omega]
    -- The second position has the rank one stride of TP further on.
    have hget := groupOrder_getD s hone
    rw [h, getD_eq_getElem _ _ (by simpa using hone), getElem_range,
      Nat.div_eq_of_lt (by omega), Nat.mod_eq_of_lt (by omega)] at hget
    omega
  · intro h
    rw [groupOrder_eq]
    conv_rhs => rw [← map_id (range (s.tp * s.sp))]
    apply map_congr_left
    intro p hp
    have hlt := mem_range.mp hp
    rcases h with h | h
    · rw [h, Nat.div_one, Nat.mod_one, zero_mul, add_zero, id]
    · rw [h, one_mul] at hlt
      rw [h, Nat.div_eq_of_lt hlt, Nat.mod_eq_of_lt hlt, mul_one, zero_add, id]

theorem mem_spTp {external k : Nat} {ranks : List Nat} (h : ranks ∈ (groupRanks s external k).spTp) :
    ∃ b, ranks = (groupOrder s).map (b + ·) := by
  obtain ⟨b, -, rfl⟩ := mem_map.mp h
  exact ⟨b, by simp [groupOrder, ParallelSizes.axis]⟩

/-! ## The columns -/

/-- The token whose logit the gather puts in a column. -/
def gatheredToken (width c : Nat) : Nat :=
  (groupOrder s).idxOf (c / width) * width + c % width

/-- The token whose logit is in a column after the step. -/
def shownToken (width vocabSize v : Nat) : Nat :=
  let m := vocabSize / (s.tp * s.sp)
  if groupOrder s = range (s.tp * s.sp) ∨ ¬s.tp * s.sp ∣ vocabSize then gatheredToken s width v
  else gatheredToken s width ((groupOrder s).getD (v / m) 0 * m + v % m)

variable {s}

theorem idxOf_groupOrder {p : Nat} (hp : p < s.tp * s.sp) :
    (groupOrder s).idxOf ((groupOrder s).getD p 0) = p := by
  have hlength : p < (groupOrder s).length := by rwa [(groupOrder_perm s).length_eq, length_range]
  rw [getD_eq_getElem _ _ hlength]
  exact ((groupOrder_perm s).nodup_iff.mpr nodup_range).idxOf_getElem p hlength

variable {width vocabSize : Nat}

theorem inVocabularyOrder_iff (b : Nat) (hv : vocabSize ≤ s.tp * s.sp * width) :
    InVocabularyOrder ((groupOrder s).map (b + ·)) width vocabSize ↔
      ∀ v < vocabSize, shownToken s width vocabSize v = v := by
  obtain ⟨-, -, -, hsp, htp⟩ := s.pos
  have hperm := groupOrder_perm s
  have hshown : ∀ (β : Type) (heads : List (Nat → β)),
      fixShiftLogitsOrdering (computeShiftLogitsPerm (some ((groupOrder s).map (b + ·))))
          (some (heads.map (gatherLogits ((groupOrder s).map (b + ·)) width vocabSize))) =
        some (heads.map fun head =>
          (range vocabSize).map fun v => head (shownToken s width vocabSize v)) := by
    intro β heads
    have hgather : heads.map (gatherLogits ((groupOrder s).map (b + ·)) width vocabSize) =
        heads.map fun head => (range vocabSize).map fun c => head (gatheredToken s width c) :=
      map_congr_left fun head _ => gatherLogits_eq b hperm hv head
    rw [computeShiftLogitsPerm_eq b hperm, hgather]
    by_cases hid : groupOrder s = range (s.tp * s.sp)
    · simp only [fixShiftLogitsOrdering, shownToken, hid, if_true, true_or]
    · rw [if_neg hid]
      simp only [fixShiftLogitsOrdering, Option.map_some, map_map, Option.some.injEq]
      apply map_congr_left
      intro head _
      rw [comp_apply]
      by_cases hdvd : s.tp * s.sp ∣ vocabSize
      · obtain ⟨m, rfl⟩ := hdvd
        rw [reorderRow_eq hperm m (mul_pos htp hsp)]
        simp only [shownToken, hid, dvd_mul_right, not_true_eq_false, or_self, if_false,
          Nat.mul_div_cancel_left m (mul_pos htp hsp)]
      · have hmod : vocabSize % (s.tp * s.sp) ≠ 0 := fun h => hdvd (Nat.dvd_of_mod_eq_zero h)
        rw [reorderRow, hperm.length_eq, length_map, length_range, length_range, if_pos hmod]
        simp only [shownToken, hid, hdvd, not_false_eq_true, or_true, if_true]
  constructor
  · intro h v hlt
    have hrow := (hshown Nat [id]).symm.trans (h Nat [id])
    simp only [map_cons, map_nil, Option.some.injEq, List.cons.injEq, and_true, id_eq] at hrow
    have hcolumn := congrArg (·[v]?) hrow
    simpa [hlt] using hcolumn
  · intro h β heads
    rw [hshown]
    congr 1
    apply map_congr_left
    intro head _
    exact map_congr_left fun v hlt => by rw [h v (mem_range.mp hlt)]

theorem getD_idxOf {k : Nat} (hk : k < s.tp * s.sp) :
    (groupOrder s).getD ((groupOrder s).idxOf k) 0 = k := by
  have hmem : k ∈ groupOrder s := (groupOrder_perm s).mem_iff.mpr (mem_range.mpr hk)
  rw [getD_eq_getElem _ _ (idxOf_lt_length_of_mem hmem), getElem_idxOf]

theorem groupOrder_first : (groupOrder s).getD 0 0 = 0 ∧ (groupOrder s).idxOf 0 = 0 := by
  obtain ⟨-, -, -, hsp, htp⟩ := s.pos
  have hpos : 0 < s.tp * s.sp := mul_pos htp hsp
  have hfirst : (groupOrder s).getD 0 0 = 0 := by
    rw [groupOrder_getD s hpos, Nat.zero_div, Nat.zero_mod, zero_mul, zero_add]
  have hidx := idxOf_groupOrder hpos
  rw [hfirst] at hidx
  exact ⟨hfirst, hidx⟩

theorem gathered_iff (hsp : 2 ≤ s.sp) (htp : 2 ≤ s.tp) (hv : vocabSize ≤ s.tp * s.sp * width) :
    (∀ v < vocabSize, gatheredToken s width v = v) ↔ vocabSize ≤ width := by
  constructor
  · intro h
    by_contra hlt
    -- The second rank of the block stands at the position SP.
    have hone : s.sp < s.tp * s.sp := by nlinarith
    have hidx := idxOf_groupOrder hone
    rw [groupOrder_getD s hone, Nat.div_self (by omega), Nat.mod_self, zero_mul, add_zero] at hidx
    have hwidth : 0 < width := by
      rcases Nat.eq_zero_or_pos width with hw | hw
      · simp [hw] at hv; omega
      · exact hw
    have hcolumn := h width (by omega)
    rw [gatheredToken, Nat.div_self hwidth, hidx, Nat.mod_self, add_zero] at hcolumn
    nlinarith
  · intro hle v hlt
    rw [gatheredToken, Nat.div_eq_of_lt (by omega), groupOrder_first.2, Nat.mod_eq_of_lt (by omega),
      zero_mul, zero_add]

/-- The permutation moves whole slices back only when its pieces are the slices. -/
theorem permuted_iff (hsp : 2 ≤ s.sp) (htp : 2 ≤ s.tp) {width m : Nat} (hm : m ≤ width) :
    (∀ v < s.tp * s.sp * m, gatheredToken s width ((groupOrder s).getD (v / m) 0 * m + v % m) = v) ↔
      m = width ∨ m = 0 := by
  have hone : 1 < s.tp * s.sp := by nlinarith
  constructor
  · intro h
    by_contra hne
    have hpos : 0 < m := by omega
    have hlt : m < width := by omega
    have hsecond : (groupOrder s).getD 1 0 = s.tp := by
      rw [groupOrder_getD s hone, Nat.div_eq_of_lt hsp, Nat.mod_eq_of_lt hsp, one_mul, zero_add]
    -- The piece after the first one comes from column TP * m of the gathered row.
    have hcolumn := h m (by nlinarith)
    rw [Nat.div_self hpos, Nat.mod_self, hsecond, add_zero, gatheredToken] at hcolumn
    have hslice : (groupOrder s).idxOf (s.tp * m / width) = 0 := by
      by_contra hslice
      have hle : width ≤ (groupOrder s).idxOf (s.tp * m / width) * width :=
        Nat.le_mul_of_pos_left _ (pos_of_ne_zero hslice)
      omega
    have hquot : s.tp * m / width < s.tp * s.sp := by
      rw [Nat.div_lt_iff_lt_mul (by omega)]
      calc s.tp * m < s.tp * width := Nat.mul_lt_mul_of_pos_left hlt (by omega)
        _ ≤ s.tp * s.sp * width := Nat.mul_le_mul_right _ (Nat.le_mul_of_pos_right _ (by omega))
    have hrank := getD_idxOf hquot
    rw [hslice, groupOrder_first.1] at hrank
    have hdiv := Nat.div_add_mod (s.tp * m) width
    rw [← hrank, mul_zero, zero_add] at hdiv
    rw [hslice, zero_mul, zero_add, hdiv] at hcolumn
    nlinarith
  · rintro (rfl | rfl) v hlt
    · have hm : 0 < m := Nat.pos_of_mul_pos_left (Nat.zero_lt_of_lt hlt)
      have hq : v / m < s.tp * s.sp := Nat.div_lt_of_lt_mul (by rwa [mul_comm])
      obtain ⟨hdiv, hmod⟩ := (digits_iff (i := (groupOrder s).getD (v / m) 0) (Nat.mod_lt v hm)).mp rfl
      rw [gatheredToken, hdiv, hmod, idxOf_groupOrder hq, Nat.div_add_mod']
    · exact absurd hlt (by simp)

/-- The columns are in the order of the vocabulary exactly when the group is in the order of its
ranks, nothing was padded, or only the first slice is used and no permutation is applied. -/
theorem shownToken_iff (hv : vocabSize ≤ s.tp * s.sp * width) :
    (∀ v < vocabSize, shownToken s width vocabSize v = v) ↔
      s.sp = 1 ∨ s.tp = 1 ∨ vocabSize = s.tp * s.sp * width ∨ vocabSize = 0 ∨
        vocabSize ≤ width ∧ ¬s.tp * s.sp ∣ vocabSize := by
  obtain ⟨-, -, -, hsp, htp⟩ := s.pos
  have hpos : 0 < s.tp * s.sp := mul_pos htp hsp
  by_cases hid : groupOrder s = range (s.tp * s.sp)
  · have hsorted := (groupOrder_eq_range_iff s).mp hid
    refine iff_of_true (fun v hlt => ?_) (by tauto)
    have hq : v / width < s.tp * s.sp := Nat.div_lt_of_lt_mul (by rw [mul_comm]; omega)
    have hidx := idxOf_groupOrder hq
    rw [hid, getD_eq_getElem _ _ (by simpa using hq), getElem_range] at hidx
    rw [shownToken, if_pos (.inl hid), gatheredToken, hid, hidx, Nat.div_add_mod']
  · obtain ⟨hsp₁, htp₁⟩ := not_or.mp (mt (groupOrder_eq_range_iff s).mpr hid)
    by_cases hdvd : s.tp * s.sp ∣ vocabSize
    · obtain ⟨m, rfl⟩ := hdvd
      have hm : m ≤ width := Nat.le_of_mul_le_mul_left hv hpos
      have hiff := permuted_iff (s := s) (by omega) (by omega) hm
      simp only [shownToken, hid, dvd_mul_right, not_true_eq_false, or_self, if_false,
        Nat.mul_div_cancel_left m hpos, hiff, hsp₁, htp₁, false_or, and_false, or_false,
        Nat.mul_eq_zero, hpos.ne', Nat.mul_right_inj hpos.ne']
    · have hiff := gathered_iff (s := s) (by omega) (by omega) hv
      have hfull : vocabSize ≠ s.tp * s.sp * width := fun h => hdvd ⟨width, h⟩
      have hnonempty : vocabSize ≠ 0 := fun h => hdvd (h ▸ Nat.dvd_zero _)
      simp only [shownToken, hid, hdvd, not_false_eq_true, or_true, if_true, hiff, hsp₁, htp₁, hfull,
        hnonempty, false_or, and_true]

end Group

/-- When the shift model's logits are in the order of the vocabulary. -/
theorem shift_logits_iff {s : ParallelSizes} {external : Nat} {dcp : Option Nat}
    (hdcp : ∀ k, dcp = some k → k ∣ s.tp) {g : GroupRanks}
    (hg : initializeModelParallel (external * (s.dp * s.engineSize)) s dcp = some g) {ranks : List Nat}
    (hranks : ranks ∈ g.spTp) {padded vocabSize : Nat} (hpadded : s.tp * s.sp ∣ padded)
    (hv : vocabSize ≤ padded) :
    InVocabularyOrder ranks (padded / (s.tp * s.sp)) vocabSize ↔
      s.sp = 1 ∨ s.tp = 1 ∨ vocabSize = padded ∨ vocabSize = 0 ∨
        vocabSize ≤ padded / (s.tp * s.sp) ∧ ¬s.tp * s.sp ∣ vocabSize := by
  rw [initializeModelParallel_eq s external hdcp, Option.some.injEq] at hg
  subst hg
  obtain ⟨b, rfl⟩ := mem_spTp s hranks
  have hwidth : s.tp * s.sp * (padded / (s.tp * s.sp)) = padded := Nat.mul_div_cancel' hpadded
  rw [inVocabularyOrder_iff b (hwidth.symm ▸ hv), shownToken_iff (hwidth.symm ▸ hv), hwidth]

/-- Tensor and sequence parallelism of two. -/
def twoAndTwo : ParallelSizes := ⟨1, 1, 1, 2, 2, by decide⟩

theorem shift_logits_iff_twoAndTwo :
    InVocabularyOrder [0, 2, 1, 3] (8 / 4) 4 ↔
      twoAndTwo.sp = 1 ∨ twoAndTwo.tp = 1 ∨ 4 = 8 ∨ 4 = 0 ∨ 4 ≤ 8 / 4 ∧ ¬4 ∣ 4 := by
  have hdcp : ∀ k, (none : Option Nat) = some k → k ∣ twoAndTwo.tp := by simp
  have hranks : [0, 2, 1, 3] ∈ (groupRanks twoAndTwo 1 2).spTp := by decide
  have hpadded : twoAndTwo.tp * twoAndTwo.sp ∣ 8 := by decide
  have hv : 4 ≤ 8 := by decide
  exact shift_logits_iff hdcp (initializeModelParallel_eq twoAndTwo 1 hdcp) hranks hpadded hv

/-- Four tokens padded to eight: column 1 shows token 4. -/
theorem padded_columns_scrambled :
    initializeModelParallel 4 twoAndTwo none = some (groupRanks twoAndTwo 1 2) ∧
      [0, 2, 1, 3] ∈ (groupRanks twoAndTwo 1 2).spTp ∧ ¬InVocabularyOrder [0, 2, 1, 3] 2 4 := by
  refine ⟨initializeModelParallel_eq twoAndTwo 1 (by simp), by decide, fun h => ?_⟩
  have hv : 4 ≤ twoAndTwo.tp * twoAndTwo.sp * 2 := by decide
  have hcolumn := (inVocabularyOrder_iff 0 hv).mp h 1 (by decide)
  exact absurd hcolumn (by decide)

end ArcticPlatform.Ulysses
