import ArcticPlatform.ZorroTrain.OffsetTables

/-!
# ZoRRoTrain: the layout of the unpadded split attention

The split attention reads the prompts of a dedup tensor at offsets that index the
response table, which is in group order, with the batch position of the first
sample of a group.  The query segments are in group order and the key segments in
batch order.  This module computes what the functions return on every tensor with
the dedup layout, and when that is what the attention needs.

Main results:

- Theorem `splitAttention_eq`: the tensors and tables that the split attention
  is computed from.
- Theorem `splitAttention_laidOut_iff`: they are laid out correctly exactly when
  the offsets and the lengths agree in both orders.
-/

namespace ArcticPlatform.ZorroTrain

open Slices List
open Option hiding map_map

/-! ## Sums over prefixes -/

theorem sum_take_add_le {l : List Nat} {a j b x : Nat} (haj : a ≤ j) (hjb : j < b)
    (hj : l[j]? = some x) : (l.take a).sum + x ≤ (l.take b).sum := by
  have hmid := sum_take_succ hj
  have hlow := sum_take_mono l haj
  have hhigh := sum_take_mono l (Nat.succ_le_of_lt hjb)
  rw [Nat.succ_eq_add_one] at hhigh
  omega

theorem zipWith_sub_cumulative (lengths : List Nat) :
    zipWith (· - ·) (cumulative lengths).tail (cumulative lengths) = lengths := by
  apply ext_getElem?
  intro k
  rcases lt_or_ge k lengths.length with hk | hk
  · have hget : lengths[k]? = some lengths[k] := getElem?_eq_getElem hk
    rw [getElem?_zipWith, getElem?_tail, cumulative_getElem? hk.le,
      cumulative_getElem? hk, sum_take_succ hget, hget]
    simp
  · rw [getElem?_eq_none hk, getElem?_eq_none]
    rw [length_zipWith, length_tail, length_cumulative]
    omega

/-! ## What the loops return -/

section Loops

variable {α ι : Type} {prompts : Nat → List ι} {groups : List (List Nat)} {n : Nat}
  {p r : Nat → Nat} {info : PackedInfo} {P R : Nat → List α}

/-- Prompt lengths of the groups. -/
def promptLengths (p : Nat → Nat) (groups : List (List Nat)) : List Nat :=
  groups.map fun group => p (group.headD 0)

/-- The offset at which the prompt of group `k` is read. -/
def readOffset (p r : Nat → Nat) (groups : List (List Nat)) (k : Nat) : Nat :=
  ((promptLengths p groups).take k).sum +
    ((groups.flatten.map r).take ((groups.getD k []).headD 0)).sum

/-- The tokens that are read as the prompt of group `k`. -/
def readPrompt (p r : Nat → Nat) (groups : List (List Nat)) (dedup : List α) (k : Nat) : List α :=
  slice dedup (readOffset p r groups k)
    (readOffset p r groups k + p ((groups.getD k []).headD 0))

theorem layoutLength_eq (groups : List (List Nat)) :
    layoutLength p r groups = (promptLengths p groups).sum + (groups.flatten.map r).sum := by
  induction groups with
  | nil => rfl
  | cons group groups ih =>
    rw [layoutLength_cons, ih, promptLengths, promptLengths, map_cons, sum_cons, flatten_cons,
      map_append, sum_append]
    omega

theorem take_flatten_map (groups : List (List Nat)) (k : Nat) :
    (groups.flatten.map r).take (groups.take k).flatten.length = (groups.take k).flatten.map r := by
  rw [← map_take]
  congr 1
  conv_lhs => rw [← take_append_drop k groups, flatten_append]
  rw [take_append_drop, take_left]

theorem layoutLength_take (groups : List (List Nat)) (k : Nat) :
    layoutLength p r (groups.take k) = ((promptLengths p groups).take k).sum +
      ((groups.flatten.map r).take (groups.take k).flatten.length).sum := by
  rw [layoutLength_eq, take_flatten_map, promptLengths, promptLengths, map_take]

variable {k : Nat} {group : List Nat}

theorem readOffset_le (hgroups : GroupsOK prompts n groups) (hk : groups[k]? = some group) :
    readOffset p r groups k ≤ layoutLength p r (groups.take k) := by
  have hget : groups.getD k [] = group := by
    rw [getD_eq_getElem?_getD, hk, getD_some]
  rw [readOffset, layoutLength_take, hget]
  exact Nat.add_le_add_left (sum_take_mono _ (hgroups.head_le hk)) _

theorem layoutLength_take_add_le (hk : groups[k]? = some group) :
    layoutLength p r (groups.take k) + p (group.headD 0) + (group.map r).sum ≤
      layoutLength p r groups := by
  obtain ⟨hlt, rfl⟩ := List.getElem?_eq_some_iff.mp hk
  have hsplit : groups = groups.take k ++ (groups[k] :: groups.drop (k + 1)) := by
    rw [← drop_eq_getElem_cons hlt, take_append_drop]
  have hsum : layoutLength p r groups = layoutLength p r (groups.take k) +
      layoutLength p r (groups[k] :: groups.drop (k + 1)) := by
    rw [← layoutLength_append, ← hsplit]
  rw [layoutLength_cons] at hsum
  omega

section

variable (hgroups : GroupsOK prompts n groups)
include hgroups

theorem length_readPrompt {dedup : List α}
    (hdedup : dedup.length = layoutLength p r groups) (hk : groups[k]? = some group) :
    (readPrompt p r groups dedup k).length = p (group.headD 0) := by
  have hget : groups.getD k [] = group := by
    rw [getD_eq_getElem?_getD, hk, getD_some]
  have hle := readOffset_le (p := p) (r := r) hgroups hk
  have hend := layoutLength_take_add_le (p := p) (r := r) hk
  rw [readPrompt, length_slice (Nat.le_add_right _ _) (by rw [hget, hdedup]; omega), hget]
  omega

/-- The loop of `_get_sequences_packed_from_dedup_tensor`: the groups of `done` are read, the next
ones fill `Z`. -/
theorem placePrompts_eq {dedup : List α}
    (hdedup : dedup.length = layoutLength p r groups) {split : SplitInfo}
    (hlengths : split.promptLengths = 0 :: promptLengths p groups)
    (hcu : split.cuSeqlensUniquePrompts = cumulative (promptLengths p groups)) :
    ∀ (rest done : List (List Nat)) (Z : List α), groups = done ++ rest →
      Z.length = (promptLengths p rest).sum →
      placePrompts dedup split (cumulative (groups.flatten.map r)) done.length
        (promptLengths p done).sum rest
        ((range done.length).flatMap (readPrompt p r groups dedup) ++ Z) =
      some ((range groups.length).flatMap (readPrompt p r groups dedup)) := by
  intro rest
  induction rest with
  | nil =>
    intro done Z hsplit hZ
    obtain rfl : Z = [] := by simpa [promptLengths] using hZ
    rw [append_nil] at hsplit
    subst hsplit
    simp [placePrompts]
  | cons group rest ih =>
    intro done Z hsplit hZ
    have hk : groups[done.length]? = some group := by
      rw [hsplit]
      simp
    have hgroup : group ∈ groups := mem_of_getElem? hk
    have hget : groups.getD done.length [] = group := by
      rw [getD_eq_getElem?_getD, hk, getD_some]
    have hheadmem : group.headD 0 ∈ group := headD_mem (hgroups.nonempty group hgroup)
    have hhead : group.head? = some (group.headD 0) := by
      cases group with
      | nil => simp at hheadmem
      | cons i rest => rfl
    have hheadlt : group.headD 0 < n :=
      (hgroups.mem _).mp (mem_flatten.mpr ⟨group, hgroup, hheadmem⟩)
    have hlen : (promptLengths p groups)[done.length]? = some (p (group.headD 0)) := by
      rw [promptLengths, getElem?_map, hk, map_some]
    have hlenlt : done.length < (promptLengths p groups).length :=
      (List.getElem?_eq_some_iff.mp hlen).1
    have htake : (promptLengths p groups).take done.length = promptLengths p done := by
      rw [hsplit, promptLengths, promptLengths, map_append, take_append_of_le_length
        (by simp), take_of_length_le (by simp)]
    have hoffset : (promptLengths p done).sum +
        ((groups.flatten.map r).take (group.headD 0)).sum = readOffset p r groups done.length := by
      rw [readOffset, htake, hget]
    have hdone : ((range done.length).flatMap (readPrompt p r groups dedup)).length =
        (promptLengths p done).sum := by
      rw [length_flatMap, ← htake]
      congr 1
      apply ext_getElem?
      intro j
      rcases lt_or_ge j done.length with hj | hj
      · obtain ⟨g, hg⟩ : ∃ g, groups[j]? = some g := by
          rw [hsplit, getElem?_append_left hj]
          exact ⟨_, getElem?_eq_getElem hj⟩
        rw [getElem?_map, getElem?_range hj, map_some,
          length_readPrompt hgroups hdedup hg, getElem?_take_of_lt hj, promptLengths,
          getElem?_map, hg, map_some]
      · rw [getElem?_eq_none (by simpa using hj), getElem?_eq_none]
        rw [length_take]
        omega
    have hprompt := length_readPrompt hgroups hdedup hk
    have hZlen : Z.length = p (group.headD 0) + (promptLengths p rest).sum := by
      rw [hZ]
      simp [promptLengths]
    have hZtake : (Z.take (p (group.headD 0))).length = p (group.headD 0) := by
      rw [length_take]
      omega
    have hassign : assign ((range done.length).flatMap (readPrompt p r groups dedup) ++ Z)
        (promptLengths p done).sum ((promptLengths p done).sum + p (group.headD 0))
        (readPrompt p r groups dedup done.length) =
        some ((range (done.length + 1)).flatMap (readPrompt p r groups dedup) ++
          Z.drop (p (group.headD 0))) := by
      conv_lhs => rw [← take_append_drop (p (group.headD 0)) Z, ← append_assoc]
      rw [assign_append hdone (by rw [hZtake]) (by rw [hZtake, hprompt]), range_succ,
        flatMap_append, flatMap_singleton]
    have hstart : (cumulative (promptLengths p groups))[done.length]? =
        some (promptLengths p done).sum := by
      rw [cumulative_getElem? hlenlt.le, htake]
    have hstop : (cumulative (promptLengths p groups))[done.length + 1]? =
        some ((promptLengths p done).sum + p (group.headD 0)) := by
      rw [cumulative_getElem? hlenlt, sum_take_succ hlen, htake]
    have hresponse : (cumulative (groups.flatten.map r))[group.headD 0]? =
        some ((groups.flatten.map r).take (group.headD 0)).sum :=
      cumulative_getElem? (by rw [length_map, hgroups.length_flatten]; exact hheadlt.le)
    have hread : slice dedup (readOffset p r groups done.length)
        (readOffset p r groups done.length + p (group.headD 0)) =
        readPrompt p r groups dedup done.length := by
      rw [readPrompt, hget]
    simp only [placePrompts, hhead, hresponse, hlengths, hcu, getElem?_cons_succ, hlen,
      hstart, hstop, hoffset, hread, hassign, bind_eq_bind, bind_some]
    have hnext := ih (done ++ [group]) (Z.drop (p (group.headD 0))) (by rw [hsplit]; simp)
      (by rw [length_drop]; omega)
    have hsum : (promptLengths p (done ++ [group])).sum =
        (promptLengths p done).sum + p (group.headD 0) := by
      simp [promptLengths]
    rwa [length_append, length_singleton, hsum] at hnext

/-- The responses of every group, for the groups behind those of `done`. -/
theorem responseParts_eq (hB : Blocks p r P R 0 groups)
    {split : SplitInfo} (hcu : split.cuSeqlensUniquePrompts = cumulative (promptLengths p groups))
    (hreordered : split.reorderedSeqIdx = reorderedSeqIdx groups) :
    ∀ (rest done : List (List Nat)), groups = done ++ rest →
      responseParts (layout P R 0 groups) split (cumulative (groups.flatten.map r)) done.length
        (done.flatten.map r).sum rest = some (rest.map fun group => group.flatMap R) := by
  intro rest
  induction rest with
  | nil => intros; rfl
  | cons group rest ih =>
    intro done hsplit
    have hk : groups[done.length]? = some group := by
      rw [hsplit]
      simp
    have hgroup : group ∈ groups := mem_of_getElem? hk
    have hne : group ≠ [] := hgroups.nonempty group hgroup
    have hlast : group.getLast? = some (group.getLast hne) := getLast?_eq_some_getLast hne
    have htakedone : groups.take done.length = done := by
      rw [hsplit]
      simp
    have hlastget : group[group.length - 1]? = some (group.getLast hne) := by
      rw [getLast_eq_getElem]
      exact getElem?_eq_getElem _
    have hslot := getElem?_flatten hk hlastget
    rw [htakedone] at hslot
    have hpos : 0 < group.length := length_pos_iff.mpr hne
    have hslotnext : done.flatten.length + (group.length - 1) + 1 =
        (groups.take (done.length + 1)).flatten.length := by
      rw [take_add_one, hk, htakedone]
      simp
      omega
    have hlen : (promptLengths p groups)[done.length]? = some (p (group.headD 0)) := by
      rw [promptLengths, getElem?_map, hk, map_some]
    have hlenlt : done.length < (promptLengths p groups).length :=
      (List.getElem?_eq_some_iff.mp hlen).1
    have htake : (promptLengths p groups).take done.length = promptLengths p done := by
      rw [promptLengths, promptLengths, ← map_take, htakedone]
    have hoffset : (cumulative (promptLengths p groups))[done.length + 1]? =
        some ((promptLengths p done).sum + p (group.headD 0)) := by
      rw [cumulative_getElem? hlenlt, sum_take_succ hlen, htake]
    have hresponses : (cumulative (groups.flatten.map r))[
        done.flatten.length + (group.length - 1) + 1]? =
        some ((done.flatten.map r).sum + (group.map r).sum) := by
      have hslotlt := (List.getElem?_eq_some_iff.mp hslot).1
      rw [cumulative_getElem? (by rw [length_map]; omega), hslotnext, take_flatten_map,
        take_add_one, hk, htakedone]
      simp
    have hdone : (layout P R 0 done ++ P done.length).length =
        (done.flatten.map r).sum + ((promptLengths p done).sum + p (group.headD 0)) := by
      have hP := hB.prompt done.length group hk
      rw [zero_add] at hP
      have hlay : (layout P R 0 done).length = layoutLength p r done := by
        rw [hsplit] at hB
        exact length_layout hB.take
      rw [length_append, hP, hlay, layoutLength_eq]
      omega
    have hR : (group.flatMap R).length = (group.map r).sum :=
      length_flatMap_eq fun i hi => hB.response i (mem_flatten.mpr ⟨group, hgroup, hi⟩)
    have hslice : slice (layout P R 0 groups)
        ((done.flatten.map r).sum + ((promptLengths p done).sum + p (group.headD 0)))
        ((promptLengths p done).sum + p (group.headD 0) +
          ((done.flatten.map r).sum + (group.map r).sum)) = group.flatMap R := by
      have hlayout : layout P R 0 groups = layout P R 0 done ++ P done.length ++
          group.flatMap R ++ layout P R (done.length + 1) rest := by
        rw [hsplit, layout_append, zero_add, layout]
        simp only [append_assoc]
      rw [hlayout]
      exact slice_append hdone (by rw [hR]; omega)
    have hnext := ih (done ++ [group]) (by rw [hsplit]; simp)
    have hsum : ((done ++ [group]).flatten.map r).sum =
        (done.flatten.map r).sum + (group.map r).sum := by
      simp
    rw [length_append, length_singleton, hsum] at hnext
    simp only [responseParts, hlast, hreordered, lookup_reorderedSeqIdx hgroups.nodup hslot, hcu,
      hoffset, hresponses, hnext, hslice, bind_eq_bind, bind_some, map_cons]

/-- The loop of `_get_sequences_reconstructed_from_dedup_tensors`, for the groups behind those of
`done`. -/
theorem joinParts_eq (hB : Blocks p r P R 0 groups) {Q : Nat → List α} :
    ∀ (rest done : List (List Nat)), groups = done ++ rest →
      joinParts (groups.flatten.map r) (groupSizes groups) done.length
        ((range groups.length).map Q) (rest.map fun group => group.flatMap R) =
      some (rest.flatten.map fun i => Q (groupOf groups i) ++ R i) := by
  intro rest
  induction rest with
  | nil => intros; rfl
  | cons group rest ih =>
    intro done hsplit
    have hk : groups[done.length]? = some group := by
      rw [hsplit]
      simp
    have hklt : done.length < groups.length := (List.getElem?_eq_some_iff.mp hk).1
    have hQ : ((range groups.length).map Q)[done.length]? = some (Q done.length) := by
      rw [getElem?_map, getElem?_range hklt, map_some]
    have hsizes : ∀ k ≤ groups.length, (groupSizes groups)[k]? =
        some ((groups.map List.length).take k).sum := fun k hk =>
      cumulative_getElem? (by rwa [length_map])
    have hslice : slice (groups.flatten.map r) ((groups.map List.length).take done.length).sum
        ((groups.map List.length).take (done.length + 1)).sum = (group.map R).map List.length := by
      have hblock : (groups.map (map r))[done.length]? = some (group.map r) := by
        rw [getElem?_map, hk, map_some]
      have := slice_flatten hblock
      have hlens : (groups.map (map r)).map List.length = groups.map List.length := by
        rw [map_map]
        exact map_congr_left fun g _ => length_map _
      rw [hlens] at this
      rw [map_flatten, this, map_map]
      exact map_congr_left fun i hi =>
        (hB.response i (mem_flatten.mpr ⟨group, mem_of_getElem? hk, hi⟩)).symm
    have hrow : group.map (fun i => Q done.length ++ R i) =
        group.map fun i => Q (groupOf groups i) ++ R i := by
      refine map_congr_left fun i hi => ?_
      rw [groupOf_eq hgroups.nodup hk hi]
    have hnext := ih (done ++ [group]) (by rw [hsplit]; simp)
    rw [length_append, length_singleton] at hnext
    simp only [map_cons, joinParts, hQ, hsizes _ hklt.le, hsizes _ hklt, hslice,
      bind_eq_bind, bind_some, hnext, flatten_cons, map_append]
    have hsplitSizes := splitSizes_flatten (group.map R)
    rw [← flatMap_def] at hsplitSizes
    rw [hsplitSizes, bind_some, map_map, ← hrow]
    rfl

end

theorem flatten_map_flatMap (groups : List (List Nat)) (R : Nat → List α) :
    (groups.map fun group => group.flatMap R).flatten = groups.flatten.flatMap R := by
  induction groups with
  | nil => rfl
  | cons group groups ih =>
    rw [map_cons, flatten_cons, ih, flatten_cons, flatMap_append]

/-- What the split attention is computed from, on every tensor with the dedup layout. -/
theorem splitAttention_eq (hgroups : GroupsOK prompts n groups)
    (hinfo : InfoOK info groups n p r) (hB : Blocks p r P R 0 groups) (uninit : Nat → α) :
    splitAttention uninit (layout P R 0 groups) info =
      some ⟨(range groups.length).flatMap (readPrompt p r groups (layout P R 0 groups)),
        groups.flatten.flatMap R, groups.flatten.flatMap fun i =>
          readPrompt p r groups (layout P R 0 groups) (groupOf groups i) ++ R i,
        cumulative (groups.flatten.map r), info.cuSeqlensPacked⟩ := by
  have hdedup := length_layout hB
  obtain ⟨split, hextract, hlengths, hcu, hreordered⟩ := extractCuSeqlens_ok hgroups hinfo
  have hprompts := placePrompts_eq hgroups hdedup hlengths hcu groups []
    ((range (promptLengths p groups).sum).map uninit) rfl (by simp)
  have hparts := responseParts_eq hgroups hB hcu hreordered groups [] rfl
  have hjoin := joinParts_eq hgroups hB (Q := readPrompt p r groups (layout P R 0 groups))
    groups [] rfl
  have htotal : (cumulative (promptLengths p groups)).getLast? =
      some (promptLengths p groups).sum := by
    rw [getLast?_eq_getElem?, length_cumulative, Nat.add_sub_cancel,
      cumulative_getElem? le_rfl, take_length]
  have hsplitPrompts : splitSizes (promptLengths p groups)
      ((range groups.length).flatMap (readPrompt p r groups (layout P R 0 groups))) =
      some ((range groups.length).map (readPrompt p r groups (layout P R 0 groups))) := by
    have hlens : promptLengths p groups = ((range groups.length).map
        (readPrompt p r groups (layout P R 0 groups))).map List.length := by
      apply ext_getElem?
      intro k
      rw [promptLengths, map_map, getElem?_map, getElem?_map]
      rcases lt_or_ge k groups.length with hk | hk
      · rw [getElem?_range hk, getElem?_eq_getElem hk, map_some, map_some,
          Function.comp_apply, length_readPrompt hgroups hdedup (getElem?_eq_getElem hk)]
      · rw [getElem?_eq_none hk, getElem?_eq_none (by simpa using hk)]
        rfl
    rw [hlens, flatMap_def]
    exact splitSizes_flatten _
  have hread : getSequencesPackedFromDedupTensor uninit (layout P R 0 groups) info split
      (cumulative (groups.flatten.map r)) =
      some ((range groups.length).flatMap (readPrompt p r groups (layout P R 0 groups))) := by
    simp only [getSequencesPackedFromDedupTensor, hinfo.promptGroups]
    rw [hcu, ← promptLengths, htotal]
    exact hprompts
  have hresponses : getResponsesPackedFromDedupTensor (layout P R 0 groups) info split
      (cumulative (groups.flatten.map r)) = some (groups.flatten.flatMap R) := by
    rw [getResponsesPackedFromDedupTensor, hinfo.promptGroups, ← flatten_map_flatMap]
    exact congrArg (Option.map flatten) hparts
  have hsequences : getSequencesReconstructedFromDedupTensors (layout P R 0 groups)
      ((range groups.length).flatMap (readPrompt p r groups (layout P R 0 groups))) info split
      (cumulative (groups.flatten.map r)) (groupSizes groups) =
      some (groups.flatten.flatMap fun i =>
        readPrompt p r groups (layout P R 0 groups) (groupOf groups i) ++ R i) := by
    simp only [getSequencesReconstructedFromDedupTensors, hlengths, tail_cons,
      zipWith_sub_cumulative, hinfo.promptGroups]
    rw [← promptLengths, hsplitPrompts]
    simp only [length_nil, flatten_nil, map_nil, sum_nil] at hparts hjoin
    simp only [bind_eq_bind, bind_some, hparts, hjoin]
    rw [flatMap_def]
  simp only [splitAttention, hextract, hinfo.promptGroups, hread, hresponses, hsequences,
    bind_eq_bind, bind_some]

end Loops

/-! ## Correct layouts -/

/-- The tokens between two entries of a table of boundaries. -/
def segment {α : Type} (tokens : List α) (cu : List Nat) (j : Nat) : Option (List α) := do
  let start ← cu[j]?
  let stop ← cu[j + 1]?
  some (slice tokens start stop)

/-- What the split attention needs: the prompts group by group, every sample's prompt and response
in group order, and query and key segments of the same sample. -/
structure LaidOut {α : Type} (groups : List (List Nat)) (P R : Nat → List α)
    (att : SplitAttention α) : Prop where
  prompts : att.prompts = (range groups.length).flatMap P
  sequences : att.sequences = groups.flatten.flatMap fun i => P (groupOf groups i) ++ R i
  query : ∀ j i, groups.flatten[j]? = some i → segment att.responses att.cuSeqLensQ j = some (R i)
  key : ∀ j i, groups.flatten[j]? = some i →
    segment att.sequences att.cuSeqLensK j = some (P (groupOf groups i) ++ R i)

/-- No response token lies, in group order, between the batch position of the first sample of a
group and the position where the group starts, unless the group has no prompt tokens. -/
def OffsetsAgree (p r : Nat → Nat) (groups : List (List Nat)) : Prop :=
  ∀ k group, groups[k]? = some group → 0 < p (group.headD 0) →
    ∀ j i, group.headD 0 ≤ j → j < (groups.take k).flatten.length →
      groups.flatten[j]? = some i → r i = 0

/-- The lengths of the samples are the same in batch order and in group order. -/
def LengthsAgree (p r : Nat → Nat) (groups : List (List Nat)) : Prop :=
  ∀ j i, groups.flatten[j]? = some i → p j + r j = p i + r i

section LaidOut

variable {α ι : Type} {prompts : Nat → List ι} {groups : List (List Nat)} {n : Nat}
  {p r : Nat → Nat} {info : PackedInfo} {P R : Nat → List α}

theorem segment_flatMap {l : List Nat} {f : Nat → List α} {lengths : List Nat}
    (hlengths : lengths = l.map fun i => (f i).length) {j i : Nat} (hj : l[j]? = some i) :
    segment (l.flatMap f) (cumulative lengths) j = some (f i) := by
  have hblock : (l.map f)[j]? = some (f i) := by
    rw [getElem?_map, hj, map_some]
  have hjlt : j < l.length := (List.getElem?_eq_some_iff.mp hj).1
  have hslice := slice_flatten hblock
  have hmap : (l.map f).map List.length = lengths := by
    rw [hlengths, map_map]
    rfl
  have hlen : lengths.length = l.length := by
    rw [hlengths, length_map]
  rw [hmap, ← flatMap_def] at hslice
  simp only [segment, cumulative_getElem? (show j ≤ lengths.length by omega),
    cumulative_getElem? (show j + 1 ≤ lengths.length by omega), bind_eq_bind, bind_some, hslice]

variable {k : Nat}

theorem layout_split {group : List Nat} (hk : groups[k]? = some group) :
    layout P R 0 groups = layout P R 0 (groups.take k) ++ P k ++
      (group.flatMap R ++ layout P R (k + 1) (groups.drop (k + 1))) := by
  obtain ⟨hlt, hgetk⟩ := List.getElem?_eq_some_iff.mp hk
  conv_lhs => rw [← take_append_drop k groups, drop_eq_getElem_cons hlt, hgetk]
  rw [layout_append, length_take, min_eq_left hlt.le, zero_add, layout]
  simp only [append_assoc]

section

variable (hgroups : GroupsOK prompts n groups)
include hgroups

theorem readPrompt_eq (hB : Blocks p r P R 0 groups)
    (hoffsets : OffsetsAgree p r groups) {group : List Nat} (hk : groups[k]? = some group) :
    readPrompt p r groups (layout P R 0 groups) k = P k := by
  have hP := hB.prompt k group hk
  rw [zero_add] at hP
  rcases Nat.eq_zero_or_pos (p (group.headD 0)) with hzero | hpos
  · have hread := length_readPrompt hgroups (length_layout hB) hk
    rw [hzero] at hread hP
    rw [eq_nil_of_length_eq_zero hread, eq_nil_of_length_eq_zero hP]
  · have hget : groups.getD k [] = group := by
      rw [getD_eq_getElem?_getD, hk, getD_some]
    have hhead := hgroups.head_le hk
    have hsum : ((groups.flatten.map r).take (group.headD 0)).sum =
        ((groups.flatten.map r).take (groups.take k).flatten.length).sum := by
      obtain ⟨d, hd⟩ := Nat.exists_eq_add_of_le hhead
      have hstep : ∀ d', d' ≤ d → ((groups.flatten.map r).take (group.headD 0 + d')).sum =
          ((groups.flatten.map r).take (group.headD 0)).sum := by
        intro d'
        induction d' with
        | zero => intros; rfl
        | succ d' ih =>
          intro hd'
          have hlen : group.headD 0 + d' < groups.flatten.length := by
            have : (groups.take k).flatten.length ≤ groups.flatten.length := by
              rw [flatten_split hk, length_append, length_append]
              omega
            omega
          have hzero := hoffsets k group hk hpos (group.headD 0 + d') _ (by omega) (by omega)
            (getElem?_eq_getElem hlen)
          have hnext : (groups.flatten.map r)[group.headD 0 + d']? = some 0 := by
            rw [getElem?_map, getElem?_eq_getElem hlen, map_some, hzero]
          rw [← add_assoc, sum_take_succ hnext, add_zero, ih (by omega)]
      rw [hd, hstep d le_rfl]
    have hoffset : readOffset p r groups k = (layout P R 0 (groups.take k)).length := by
      have hlay : (layout P R 0 (groups.take k)).length = layoutLength p r (groups.take k) := by
        rw [← take_append_drop k groups] at hB
        exact length_layout hB.take
      rw [hlay, readOffset, layoutLength_take, hget, hsum]
    rw [readPrompt, hget, hoffset, layout_split hk]
    exact slice_append rfl (by rw [hP])

theorem length_row (hB : Blocks p r P R 0 groups)
    (hshared : ∀ group ∈ groups, ∀ i ∈ group, p i = p (group.headD 0)) {i : Nat}
    (hi : i ∈ groups.flatten) : (P (groupOf groups i) ++ R i).length = p i + r i := by
  obtain ⟨group, hgroup, higroup⟩ := mem_flatten.mp hi
  obtain ⟨k, hk⟩ := mem_iff_getElem?.mp hgroup
  have hP := hB.prompt k group hk
  rw [zero_add] at hP
  rw [length_append, groupOf_eq hgroups.nodup hk higroup, hP, hB.response i hi,
    hshared group hgroup i higroup]

/-- Agreement of the two orders is enough. -/
theorem laidOut_of_agree (hinfo : InfoOK info groups n p r) (hB : Blocks p r P R 0 groups)
    (hshared : ∀ group ∈ groups, ∀ i ∈ group, p i = p (group.headD 0))
    (hoffsets : OffsetsAgree p r groups) (hlengths : LengthsAgree p r groups) (uninit : Nat → α) :
    ∃ att, splitAttention uninit (layout P R 0 groups) info = some att ∧
      LaidOut groups P R att := by
  have hread : ∀ k, k < groups.length → readPrompt p r groups (layout P R 0 groups) k = P k :=
    fun k hk => readPrompt_eq hgroups hB hoffsets (getElem?_eq_getElem hk)
  have hsequences : (groups.flatten.flatMap fun i =>
      readPrompt p r groups (layout P R 0 groups) (groupOf groups i) ++ R i) =
      groups.flatten.flatMap fun i => P (groupOf groups i) ++ R i := by
    apply flatMap_congr
    intro i hi
    obtain ⟨group, hgroup, higroup⟩ := mem_flatten.mp hi
    obtain ⟨k, hk⟩ := mem_iff_getElem?.mp hgroup
    rw [groupOf_eq hgroups.nodup hk higroup, hread k (List.getElem?_eq_some_iff.mp hk).1]
  refine ⟨_, splitAttention_eq hgroups hinfo hB uninit, ?_, hsequences, ?_, ?_⟩
  · exact flatMap_congr fun k hk => hread k (mem_range.mp hk)
  · intro j i hj
    refine segment_flatMap (map_congr_left fun i hi => ?_) hj
    exact (hB.response i hi).symm
  · intro j i hj
    simp only [hsequences, hinfo.cuSeqlens]
    refine segment_flatMap ?_ hj
    apply ext_getElem?
    intro m
    rw [getElem?_map, getElem?_map]
    cases hm : groups.flatten[m]? with
    | none =>
      have : n ≤ m := by
        rw [← hgroups.length_flatten]
        exact List.getElem?_eq_none_iff.mp hm
      rw [getElem?_eq_none (by simpa using this)]
      rfl
    | some i' =>
      have hmlt : m < n := by
        rw [← hgroups.length_flatten]
        exact (List.getElem?_eq_some_iff.mp hm).1
      rw [getElem?_range hmlt, map_some, map_some, hlengths m i' hm,
        length_row hgroups hB hshared (mem_of_getElem? hm)]

/-- Key segments of the right samples have the right lengths. -/
theorem lengthsAgree_of_laidOut (hinfo : InfoOK info groups n p r) (hB : Blocks p r P R 0 groups)
    (hshared : ∀ group ∈ groups, ∀ i ∈ group, p i = p (group.headD 0)) {uninit : Nat → α}
    {att : SplitAttention α} (hatt : splitAttention uninit (layout P R 0 groups) info = some att)
    (hlaid : LaidOut groups P R att) : LengthsAgree p r groups := by
  intro j i hj
  have hin : i ∈ groups.flatten := mem_of_getElem? hj
  have hjlt : j < n := by
    rw [← hgroups.length_flatten]
    exact (List.getElem?_eq_some_iff.mp hj).1
  have hcu : att.cuSeqLensK = info.cuSeqlensPacked := by
    rw [splitAttention_eq hgroups hinfo hB uninit] at hatt
    rw [← some.inj hatt]
  have htotal : att.sequences.length = ((range n).map fun i => p i + r i).sum := by
    rw [hlaid.sequences, length_flatMap,
      map_congr_left fun i hi => length_row hgroups hB hshared hi]
    exact (hgroups.flatten_perm.map _).sum_eq
  have hlen : ((range n).map fun i => p i + r i)[j]? = some (p j + r j) := by
    rw [getElem?_map, getElem?_range hjlt, map_some]
  have hkey := hlaid.key j i hj
  rw [hcu, hinfo.cuSeqlens] at hkey
  have hstart : (cumulative ((range n).map fun i => p i + r i))[j]? =
      some (((range n).map fun i => p i + r i).take j).sum :=
    cumulative_getElem? (by simpa using hjlt.le)
  have hstop : (cumulative ((range n).map fun i => p i + r i))[j + 1]? =
      some ((((range n).map fun i => p i + r i).take j).sum + (p j + r j)) := by
    rw [cumulative_getElem? (by simpa using hjlt), sum_take_succ hlen]
  simp only [segment, hstart, hstop, bind_eq_bind, bind_some, some.injEq] at hkey
  have hbound : (((range n).map fun i => p i + r i).take j).sum + (p j + r j) ≤
      att.sequences.length := by
    rw [htotal, ← sum_take_succ hlen]
    conv_rhs => rw [← take_length (l := (range n).map fun i => p i + r i)]
    exact sum_take_mono _ (by simpa using hjlt)
  have := congrArg List.length hkey
  rw [length_slice (Nat.le_add_right _ _) hbound, length_row hgroups hB hshared hin] at this
  omega

end

theorem flatMap_range_inj {f g : Nat → List α} {m : Nat}
    (hlen : ∀ k < m, (f k).length = (g k).length)
    (heq : (range m).flatMap f = (range m).flatMap g) (hk : k < m) : f k = g k := by
  have hget : (range m)[k]? = some k := getElem?_range hk
  have hf := segment_flatMap (f := f) rfl hget
  have hg := segment_flatMap (f := g) rfl hget
  have hlengths : (range m).map (fun i => (f i).length) = (range m).map fun i => (g i).length :=
    map_congr_left fun i hi => hlen i (mem_range.mp hi)
  rw [heq, hlengths, hg] at hf
  exact (some.inj hf).symm

/-- A tensor that differs in one token tells a wrong offset from the right one. -/
theorem offsetsAgree_of_laidOut [Nontrivial α] (hgroups : GroupsOK prompts n groups)
    (hinfo : InfoOK info groups n p r)
    (hlaid : ∀ (P R : Nat → List α) (uninit : Nat → α), Blocks p r P R 0 groups →
      ∃ att, splitAttention uninit (layout P R 0 groups) info = some att ∧ LaidOut groups P R att) :
    OffsetsAgree p r groups := by
  intro k group hk hpos j i hhead hjlt hj
  by_contra hr
  have hklt : k < groups.length := (List.getElem?_eq_some_iff.mp hk).1
  have hget : groups.getD k [] = group := by
    rw [getD_eq_getElem?_getD, hk, getD_some]
  -- the prompt is read before the place where it starts
  have hoffset : readOffset p r groups k < layoutLength p r (groups.take k) := by
    have hlen : (groups.flatten.map r)[j]? = some (r i) := by
      rw [getElem?_map, hj, map_some]
    have := sum_take_add_le hhead hjlt hlen
    rw [readOffset, layoutLength_take, hget]
    omega
  have hend := layoutLength_take_add_le (p := p) (r := r) hk
  obtain ⟨x, y, hxy⟩ := exists_pair_ne α
  let mark : Nat → α := fun t => if t = layoutLength p r (groups.take k) then x else y
  obtain ⟨P, R, hB, hlayout⟩ := exists_blocks hgroups.nodup p r 0
    (X := (range (layoutLength p r groups)).map mark) (by simp)
  obtain ⟨att, hatt, hok⟩ := hlaid P R (fun _ => x) hB
  have hdedup := length_layout hB
  have hP : ∀ m < groups.length, (readPrompt p r groups (layout P R 0 groups) m).length =
      (P m).length := by
    intro m hm
    have hgetm : groups[m]? = some groups[m] := getElem?_eq_getElem hm
    have := hB.prompt m _ hgetm
    rw [zero_add] at this
    rw [length_readPrompt hgroups hdedup hgetm, this]
  have hread : readPrompt p r groups (layout P R 0 groups) k = P k := by
    refine flatMap_range_inj hP ?_ hklt
    rw [splitAttention_eq hgroups hinfo hB] at hatt
    rw [← hok.prompts, ← some.inj hatt]
  -- compare the first tokens
  have hprompt : slice (layout P R 0 groups) (layoutLength p r (groups.take k))
      (layoutLength p r (groups.take k) + p (group.headD 0)) = P k := by
    have hPk := hB.prompt k group hk
    rw [zero_add] at hPk
    have hlay : (layout P R 0 (groups.take k)).length = layoutLength p r (groups.take k) := by
      rw [← take_append_drop k groups] at hB
      exact length_layout hB.take
    rw [layout_split hk]
    exact slice_append hlay (by rw [hPk])
  have hfirst : ∀ a, a < layoutLength p r groups → 0 < p (group.headD 0) →
      (slice (layout P R 0 groups) a (a + p (group.headD 0)))[0]? = some (mark a) := by
    intro a ha hpos
    rw [slice, Nat.add_sub_cancel_left, getElem?_take_of_lt hpos, getElem?_drop,
      ← hlayout, getElem?_map, add_zero, getElem?_range ha, map_some]
  have hwrong := hfirst (readOffset p r groups k) (by omega) hpos
  have hright := hfirst (layoutLength p r (groups.take k)) (by omega) hpos
  rw [readPrompt, hget] at hread
  rw [hread] at hwrong
  rw [hprompt, hwrong, some.injEq] at hright
  simp only [mark, if_neg hoffset.ne, if_pos] at hright
  exact hxy hright.symm

end LaidOut

/-! ## Batches of padded rows -/

/-- The split attention of a batch is laid out correctly, whatever the dedup tensors hold, exactly
when the offsets and the lengths agree in batch order and in group order. -/
theorem splitAttention_laidOut_iff {α ι : Type} [Nontrivial α] [DecidableEq ι] {b : Batch ι}
    {groups : List (List Nat)} {unique : List (List ι)}
    (hfind : findPromptGroups b = some (groups, unique)) (hmasks : SharedMasks b groups) :
    ∃ ids info, createDeduplicatedBatch b = some (ids, info) ∧
      ((∀ (P R : Nat → List α) (uninit : Nat → α),
          Blocks (validPrompt b) (validResponse b) P R 0 groups →
          ∃ att, splitAttention uninit (layout P R 0 groups) info = some att ∧
            LaidOut groups P R att) ↔ OffsetsAgree (validPrompt b) (validResponse b) groups ∧
          LengthsAgree (validPrompt b) (validResponse b) groups) := by
  obtain ⟨hgroups, hsize⟩ := findPromptGroups_ok hfind
  obtain ⟨ids, mask, info, hdedup⟩ : ∃ ids mask info, dedupInputIds b groups = (ids, mask, info) :=
    ⟨_, _, _, rfl⟩
  obtain ⟨packed, hpacked, hinfo⟩ := unpadDeduplicatedBatch_ok hgroups hsize hmasks hdedup
  have hshared : ∀ group ∈ groups, ∀ i ∈ group,
      validPrompt b i = validPrompt b (group.headD 0) := by
    intro group hgroup i hi
    rw [validPrompt, validPrompt, hmasks group hgroup i hi]
  refine ⟨unpad ids mask, packed, ?_, fun hlaid => ⟨?_, ?_⟩, fun hagree => ?_⟩
  · unfold createDeduplicatedBatch
    simp only [hfind, bind_eq_bind, bind_some, hdedup, hpacked]
  · exact offsetsAgree_of_laidOut hgroups hinfo hlaid
  · obtain ⟨x, -, -⟩ := exists_pair_ne α
    obtain ⟨P, R, hB, -⟩ := exists_blocks hgroups.nodup (validPrompt b) (validResponse b) 0
      (X := replicate (layoutLength (validPrompt b) (validResponse b) groups) x)
      length_replicate
    obtain ⟨att, hatt, hok⟩ := hlaid P R (fun _ => x) hB
    exact lengthsAgree_of_laidOut hgroups hinfo hB hshared hatt hok
  · intro P R uninit hB
    exact laidOut_of_agree hgroups hinfo hB hshared hagree.1 hagree.2 uninit

/-- Four rows without padding in two interleaved groups. -/
def interleavedBatch : Batch Nat where
  promptLen := 1
  responseLength := 1
  inputIds := [[1, 10], [2, 20], [1, 11], [2, 21]]
  attentionMask := replicate 4 [true, true]
  ids_length := by decide
  mask_length := by decide
  mask_rows := rfl

theorem splitAttention_laidOut_iff_interleaved :
    findPromptGroups interleavedBatch = some ([[0, 2], [1, 3]], [[1], [2]]) ∧
      SharedMasks interleavedBatch [[0, 2], [1, 3]] ∧
      ∃ ids info, createDeduplicatedBatch interleavedBatch = some (ids, info) ∧
        ((∀ (P R : Nat → List Int) (uninit : Nat → Int),
            Blocks (validPrompt interleavedBatch) (validResponse interleavedBatch) P R 0
              [[0, 2], [1, 3]] →
            ∃ att, splitAttention uninit (layout P R 0 [[0, 2], [1, 3]]) info = some att ∧
              LaidOut [[0, 2], [1, 3]] P R att) ↔
          OffsetsAgree (validPrompt interleavedBatch) (validResponse interleavedBatch)
              [[0, 2], [1, 3]] ∧
            LengthsAgree (validPrompt interleavedBatch) (validResponse interleavedBatch)
              [[0, 2], [1, 3]]) := by
  have hfind : findPromptGroups interleavedBatch = some ([[0, 2], [1, 3]], [[1], [2]]) := by
    decide
  have hmasks : SharedMasks interleavedBatch [[0, 2], [1, 3]] := by
    unfold SharedMasks
    decide
  exact ⟨hfind, hmasks, splitAttention_laidOut_iff hfind hmasks⟩

/-- A response token of the first group is read as the prompt of the second group. -/
theorem splitAttention_interleaved_prompts :
    findPromptGroups interleavedBatch = some ([[0, 2], [1, 3]], [[1], [2]]) ∧
      SharedMasks interleavedBatch [[0, 2], [1, 3]] ∧
      ∃ ids info, createDeduplicatedBatch interleavedBatch = some (ids, info) ∧
        ids = layout interleavedBatch.prompt interleavedBatch.response 0
          [[0, 2], [1, 3]] ∧ ¬ ∃ att, splitAttention (fun _ => 0) ids info = some att ∧
          LaidOut [[0, 2], [1, 3]] interleavedBatch.prompt
            interleavedBatch.response att := by
  have hfind : findPromptGroups interleavedBatch = some ([[0, 2], [1, 3]], [[1], [2]]) := by
    decide
  have hmasks : SharedMasks interleavedBatch [[0, 2], [1, 3]] := by
    unfold SharedMasks
    decide
  refine ⟨hfind, hmasks, _, _, rfl, by decide, ?_⟩
  rintro ⟨att, hatt, hlaid⟩
  have hprompts : att.prompts = [1, 11] := by
    rw [← some.inj hatt]
    decide
  have hgroups := hlaid.prompts
  rw [hprompts] at hgroups
  revert hgroups
  decide

end ArcticPlatform.ZorroTrain
