import ArcticPlatform.Library.Dict
import ArcticPlatform.PipelinePacking.Counts

/-!
# Splitting a padded batch into microbatches

`split_padded_tensor_dict_into_mb_list` spreads the rows of a padded batch over microbatches.
Which values go with the rows is told from their keys and their numbers of elements; the others
are shared by all microbatches.

Main results:

- Theorem `flatMap_blockRows`: groups of runs of rows have every row once.
- Theorem `split_restores`: values that are taken for rows are split by the groups and restored by
  the backward indices, and when these are all values with the rows of the mask.
-/

namespace ArcticPlatform.PipelinePacking.Divided

open Packing Tensors Dicts Results
open List hiding lookup

/-- A value of a batch dictionary. -/
inductive Value (α ω : Type) where
  | tensor (t : Tensor α)
  | list (items : List ω)
  | tensors (ts : List (Tensor α))
  | other (x : ω)

/-- What splitting raises. -/
inductive SplitError where
  | noAttentionMask
  | zeroDivision
  | view
  | index
  | notATensor
  | backwardIndices
  | allocate (e : AllocateError)
  deriving DecidableEq

/-- `MicroBatchList`, without the arguments that it repeats. -/
structure MicroBatchList (α ω : Type) where
  mbs : List (List (String × Value α ω))
  groupLens : List Int
  forwardIndices : List Nat
  backwardIndices : List Nat

/-- `BATCH_DIM_CONTEXT_KEYS`. -/
def batchDimContextKeys : List String :=
  ["advantages", "old_log_probs", "old_log_probs_shifted", "loss_mask", "response_mask",
    "ref_log_prob", "ref_log_probs", "ref_log_probs_shifted", "prox_logp", "prox_logp_shifted",
    "labels", "sft_mask", "echo_observation_mask", "echo_observation_token_counts", "nll_mask",
    "teacher_log_probs_shifted", "sampler_kl_weights", "versions", "prompt_group_ids",
    "prompt_token_counts", "sequence_loss_weights", "rollout_is_weights", "teacher_token_ids",
    "teacher_log_probs", "teacher_tail_log_prob", "kd_mask", "logprob_weights_shifted"]

section Model

variable {α ω : Type}

/-- `_is_multi_modal_key`. -/
def isMultiModalKey (key : String) : Bool := "multi_modal_input".toList.isPrefixOf key.toList

/-- `is_token_row`: the number of elements is that of the attention mask. -/
def isTokenRow (bs maxSeqlen : Nat) : Value α ω → Bool
  | .tensor t => t.data.length == bs * maxSeqlen
  | _ => false

/-- `is_per_sequence`. -/
def isPerSequence (bs : Nat) (key : String) : Value α ω → Bool
  | .tensor t => batchDimContextKeys.contains key && t.shape.head? == some bs
  | _ => false

/-- A value is split by rows. -/
def isSplit (bs maxSeqlen : Nat) (key : String) (value : Value α ω) : Bool :=
  key == "position_ids" || isTokenRow bs maxSeqlen value || isPerSequence bs key value

/-- The rows `range(i * granularity, (i + 1) * granularity)`. -/
def blockRows (granularity i : Nat) : List Nat :=
  (range granularity).map (i * granularity + ·)

/-- The slices of the reordered rows, one for each group. -/
def sliceGroups (reordered : Tensor α) : Nat → List Nat → List (Tensor α)
  | _, [] => []
  | offset, n :: ns => reordered.sliceItems offset (offset + n) :: sliceGroups reordered (offset + n) ns

/-- `_split`. -/
def splitValue (bs : Nat) (forwardIndices groupNSeqs : List Nat) :
    Value α ω → Except SplitError (List (Value α ω))
  | .tensor t =>
    if t.shape.headD 0 < bs then .error .index
    else
      match t.indexSelect (forwardIndices.map Int.ofNat) with
      | .error _ => .error .index
      | .ok reordered => .ok ((sliceGroups reordered 0 groupNSeqs).map .tensor)
  | _ => .error .notATensor

/-- `data[key][i]` for the rows of a group. -/
def multiModalRows : Value α ω → List Nat → Except SplitError (Value α ω)
  | .list items, rows => do
    let chosen ← rows.mapM fun i => match items[i]? with
      | some x => .ok x
      | none => .error .index
    .ok (.list chosen)
  | .tensor t, rows => do
    let chosen ← rows.mapM fun i => match t.indexSelect [Int.ofNat i] with
      | .ok row => .ok row.squeeze
      | .error _ => .error .index
    .ok (.tensors chosen)
  | _, _ => .error .index

/-- `_dict_of_list2list_of_dict`. -/
def dictOfListToListOfDict {β : Type} (dictOfLists : List (String × List β)) :
    Except SplitError (List (List (String × β))) :=
  match dictOfLists with
  | [] => .ok []
  | (_, first) :: _ => (range first.length).mapM fun i => dictOfLists.mapM fun entry =>
      match entry.2[i]? with
      | some x => .ok (entry.1, x)
      | none => .error .index

/-- The entries of `to_split` that are split by rows. -/
def entriesToSplit (data : Dict String (Value α ω)) (bs maxSeqlen : Nat) :
    List (String × Value α ω) :=
  data.entries.filter fun entry => !isMultiModalKey entry.1 && isSplit bs maxSeqlen entry.1 entry.2

/-- The entries of `not_to_split`. -/
def entriesNotToSplit (data : Dict String (Value α ω)) (bs maxSeqlen : Nat) :
    List (String × Value α ω) :=
  data.entries.filter fun entry => !isMultiModalKey entry.1 && !isSplit bs maxSeqlen entry.1 entry.2

/-- The entries with `multimodal_keys`. -/
def multiModalEntries (data : Dict String (Value α ω)) : List (String × Value α ω) :=
  data.entries.filter fun entry => isMultiModalKey entry.1

/-- `to_split[k] = _split(v)`. -/
def splitEntry (bs : Nat) (groups : List (List Nat)) (entry : String × Value α ω) :
    Except SplitError (String × List (Value α ω)) := do
  let pieces ← splitValue bs groups.flatten (groups.map List.length) entry.2
  .ok (entry.1, pieces)

/-- `to_split[key] = [[data[key][i] for i in gi] for gi in group_indices]`. -/
def multiModalEntry (groups : List (List Nat)) (entry : String × Value α ω) :
    Except SplitError (String × List (Value α ω)) := do
  let pieces ← groups.mapM (multiModalRows entry.2)
  .ok (entry.1, pieces)

variable [Scalar α]

/-- `attention_mask.sum(1)`. -/
def seqLens (attentionMask : Tensor α) : List Int :=
  attentionMask.items.map fun row => (row.map Scalar.toInt).sum

/-- `attention_mask.view(bs // granularity, granularity, -1).sum(dim=(1, 2))`. -/
def inputLens (attentionMask : Tensor α) (bs granularity : Nat) : Except SplitError (List Int) :=
  if granularity = 0 then .error .zeroDivision
  else
    let n := bs / granularity
    if n * granularity = 0 ∨ ¬ n * granularity ∣ attentionMask.data.length then .error .view
    else .ok ((chunks (attentionMask.data.length / n) n attentionMask.data).map fun block =>
      (block.map Scalar.toInt).sum)

/-- `split_padded_tensor_dict_into_mb_list`; the counts of other ranks, if there are any, are
`allNMbs`, and no mask has a negative sum. -/
def splitPaddedTensorDictIntoMbList (argsort : List Int → List Nat) (data : Dict String (Value α ω))
    (mbSpec : MicroBatchSpec) (allNMbs : Option (List Nat)) :
    Except SplitError (MicroBatchList α ω) :=
  match data.get? "attention_mask" with
  | some (.tensor attentionMask) =>
    match attentionMask.shape with
    | [bs, maxSeqlen] => do
      let lens := seqLens attentionMask
      let blockLens ← inputLens attentionMask bs mbSpec.granularity
      let blocks ← (groupIndices argsort mbSpec (blockLens.map Int.toNat) allNMbs).mapError .allocate
      let groups := blocks.map fun gi => gi.flatMap (blockRows mbSpec.granularity)
      if groups.flatten.length ≠ bs then .error .backwardIndices
      else do
        let splitRows ← (entriesToSplit data bs maxSeqlen).mapM (splitEntry bs groups)
        let splitLists ← (multiModalEntries data).mapM (multiModalEntry groups)
        let mbs ← dictOfListToListOfDict (splitRows ++ splitLists)
        .ok
          { mbs := mbs.map (· ++ entriesNotToSplit data bs maxSeqlen)
            groupLens := groups.map fun gi => (gi.map fun i => lens.getD i 0).sum
            forwardIndices := groups.flatten
            backwardIndices := inverseOrder groups.flatten bs }
    | _ => .error .noAttentionMask
  | _ => .error .noAttentionMask

end Model

/-! ## Groups of rows -/

section Groups

/-- Runs of rows have every row once. -/
theorem flatMap_blockRows (granularity n : Nat) :
    (range n).flatMap (blockRows granularity) = range (n * granularity) := by
  induction n with
  | zero => simp
  | succ n ih =>
    rw [range_succ, flatMap_append, ih, Nat.succ_mul, range_add]
    simp [blockRows]

variable {argsort : List Int → List Nat} {mbSpec : MicroBatchSpec} {lens : List Nat}
  {allNMbs : Option (List Nat)} {gi : List (List Nat)}

/-- All rows stay in one microbatch: one is asked for, it has room for all of them, and no rank, of
which this one is among the `allNMbs`, has more. -/
def Together (mbSpec : MicroBatchSpec) (lens : List Nat) (allNMbs : Option (List Nat)) : Prop :=
  mbSpec.nMbsDivisor = 1 ∧ lens.sum ≤ mbSpec.capacity ∧ match allNMbs with
    | none => mbSpec.minGroups = 1
    | some counts => ∀ n ∈ counts, n ≤ 1

theorem minGroups_pos (mbSpec : MicroBatchSpec) : 0 < mbSpec.minGroups := by
  unfold MicroBatchSpec.minGroups
  split
  · exact one_pos
  · split_ifs <;> omega

/-- The groups come from one allocation, with the minimum of the rank or with the largest count. -/
theorem groupIndices_allocated (h : groupIndices argsort mbSpec lens allNMbs = .ok gi) :
    ∃ m raw, 0 < m ∧ sortGroups raw = gi ∧
      ffdAllocate argsort lens mbSpec.capacity (some m) mbSpec.nMbsDivisor = .ok raw ∧
      (m = mbSpec.minGroups ∧ (∀ counts ∈ allNMbs, counts.foldl max 0 = gi.length) ∨
        ∃ counts ∈ allNMbs, m = max 1 (counts.foldl max 0)) := by
  have hcapacity := withCapacity_capacity mbSpec
  obtain ⟨hdivisor, hmin⟩ := withCapacity_other mbSpec
  obtain ⟨first, hfirst, h⟩ := bind_eq_ok.mp h
  obtain ⟨raw, hraw, rfl⟩ := (allocateBalancedMbs_eq_ok hcapacity).mp hfirst
  rw [hdivisor, hmin] at hraw
  have hpos := minGroups_pos mbSpec
  cases allNMbs with
  | none =>
    cases h
    exact ⟨_, raw, hpos, rfl, hraw, .inl ⟨rfl, by simp⟩⟩
  | some counts =>
    dsimp only at h
    split_ifs at h with hcount
    · have hcapacity' : MicroBatchSpec.maxTokensPerMb
          { mbSpec.withCapacity with nMbs := some (counts.foldl max 0) } = some mbSpec.capacity :=
        hcapacity
      obtain ⟨raw', hraw', hsorted⟩ := (allocateBalancedMbs_eq_ok hcapacity').mp h
      have hmost : MicroBatchSpec.minGroups
          { mbSpec.withCapacity with nMbs := some (counts.foldl max 0) } =
            max 1 (counts.foldl max 0) := by
        simp only [MicroBatchSpec.minGroups]
        split_ifs <;> omega
      dsimp only at hraw'
      rw [hmost, hdivisor] at hraw'
      exact ⟨_, raw', by omega, hsorted, hraw', .inr ⟨counts, rfl, rfl⟩⟩
    · cases h
      refine ⟨_, raw, hpos, rfl, hraw, .inl ⟨rfl, fun counts' hcounts' => ?_⟩⟩
      cases hcounts'
      exact not_not.mp hcount

section Rows

variable (hargsort : ∀ keys, (argsort keys).Perm (range keys.length))
  (h : groupIndices argsort mbSpec lens allNMbs = .ok gi)

include hargsort h

theorem groupIndices_perm : gi.flatten.Perm (range lens.length) := by
  obtain ⟨m, raw, -, rfl, hraw, -⟩ := groupIndices_allocated h
  exact (flatten_sortGroups_perm raw).trans (ffdAllocate_allocated hargsort hraw).rows

theorem groupIndices_together : gi.length = 1 ↔ Together mbSpec lens allNMbs := by
  obtain ⟨m, raw, hpos, rfl, hraw, hm⟩ := groupIndices_allocated h
  have hone := length_eq_one_iff hargsort hpos hraw
  have hge := (ffdAllocate_allocated hargsort hraw).count_ge
  rw [Option.getD_some] at hge
  rw [length_sortGroups] at hm ⊢
  have hmost : ∀ counts : List Nat, counts.foldl max 0 ≤ 1 ↔ ∀ n ∈ counts, n ≤ 1 := fun counts => by
    rw [foldl_max_le]
    simp
  rcases hm with ⟨rfl, hcounts⟩ | ⟨counts, rfl, rfl⟩
  · cases allNMbs with
    | none => rw [hone, Together, and_rotate]
    | some counts =>
      have hcount := hcounts counts rfl
      rw [Together, ← hmost, hcount]
      constructor
      · intro hlength
        exact ⟨(hone.mp hlength).2.1, (hone.mp hlength).2.2, hlength.le⟩
      · rintro ⟨-, -, hle⟩
        omega
  · rw [hone, Together, ← hmost]
    have hmax : max 1 (counts.foldl max 0) = 1 ↔ counts.foldl max 0 ≤ 1 := by omega
    rw [hmax, and_rotate]

/-- One group has the rows in their order. -/
theorem groupIndices_single (hone : gi.length = 1) : gi = [range lens.length] := by
  have hperm := groupIndices_perm hargsort h
  obtain ⟨m, raw, -, rfl, -, -⟩ := groupIndices_allocated h
  rw [length_sortGroups] at hone
  obtain ⟨group, rfl⟩ := List.length_eq_one_iff.mp hone
  have hsorted : sortGroups [group] = [sortRows group] := by
    rw [sortGroups, map_singleton, mergeSort_singleton]
  rw [hsorted] at hperm ⊢
  rw [sortRows_eq ((sortRows_perm group).symm.trans (by simpa using hperm))]

end Rows

theorem flatten_blocks_perm {n : Nat} (h : gi.flatten.Perm (range n)) (granularity : Nat) :
    (gi.map fun g => g.flatMap (blockRows granularity)).flatten.Perm
      (range (n * granularity)) := by
  have hflatten : ∀ gi : List (List Nat),
      (gi.map fun g => g.flatMap (blockRows granularity)).flatten =
        gi.flatten.flatMap (blockRows granularity) := by
    intro gi
    induction gi with
    | nil => rfl
    | cons g gi ih => rw [map_cons, flatten_cons, ih, flatten_cons, flatMap_append]
  rw [hflatten, ← flatMap_blockRows]
  exact h.flatMap_right _

end Groups

/-! ## One value -/

section Values

variable {α ω : Type} {bs : Nat} {rest : List Nat} {t : Tensor α} {groups : List (List Nat)}

/-- A tensor has the rows of a group. -/
def HoldsRows (t : Tensor α) (group : List Nat) (u : Tensor α) : Prop :=
  u.shape = group.length :: t.shape.tail ∧ u.items = group.map fun row => t.items.getD row []

theorem sliceGroups_holdsRows {reordered : Tensor α} (gone : List Nat)
    (hshape : reordered.shape.tail = t.shape.tail)
    (hitems : reordered.items = (gone ++ groups.flatten).map fun row => t.items.getD row []) :
    Forall₂ (HoldsRows t) groups
      (sliceGroups reordered gone.length (groups.map List.length)) := by
  induction groups generalizing gone with
  | nil => exact Forall₂.nil
  | cons group groups ih =>
    rw [map_cons, sliceGroups]
    have hslice : Slices.slice reordered.items gone.length (gone.length + group.length) =
        group.map fun row => t.items.getD row [] := by
      rw [hitems, Slices.slice]
      simp [flatten_cons]
    refine Forall₂.cons ⟨?_, ?_⟩ ?_
    · rw [Tensor.sliceItems, Tensor.shape_ofItems, hslice, length_map, hshape]
    · rw [Tensor.sliceItems, Tensor.items_ofItems, hslice]
    · have hrest := ih (gone ++ group) (by
        rw [hitems, flatten_cons, append_assoc])
      rwa [length_append] at hrest

theorem splitValue_tensor {n : Nat} (ht : t.shape = n :: rest) (hn : bs ≤ n)
    (hrows : groups.flatten.Perm (range bs)) :
    ∃ ts, splitValue (ω := ω) bs groups.flatten (groups.map List.length) (.tensor t) =
        .ok (ts.map .tensor) ∧ Forall₂ (HoldsRows t) groups ts := by
  have hindex : ∀ i ∈ groups.flatten.map Int.ofNat, 0 ≤ i ∧ i.toNat < n := by
    intro i hi
    obtain ⟨row, hrow, rfl⟩ := mem_map.mp hi
    have hlt := mem_range.mp (hrows.mem_iff.mp hrow)
    exact ⟨Int.natCast_nonneg row, hlt.trans_le hn⟩
  obtain ⟨reordered, hselect, hshape, hitems⟩ := Tensor.indexSelect_items ht hindex
  have hhead : ¬t.shape.headD 0 < bs := by
    rw [ht]
    exact not_lt.mpr hn
  refine ⟨sliceGroups reordered 0 (groups.map List.length), ?_, ?_⟩
  · rw [splitValue, if_neg hhead, hselect]
  · refine sliceGroups_holdsRows [] (by rw [hshape, ht]; rfl) ?_
    rw [hitems, map_map]
    rfl

theorem restore_tensor (ht : t.shape = bs :: rest) (hpos : 0 < bs)
    (hrows : groups.flatten.Perm (range bs)) {ts : List (Tensor α)}
    (hts : Forall₂ (HoldsRows t) groups ts) :
    ∃ u, Tensor.catItems ts = .ok u ∧
      u.indexSelect ((inverseOrder groups.flatten bs).map Int.ofNat) = .ok t := by
  have hinverse := inverse_inverseOrder hrows
  have hflatten : ts.flatMap Tensor.items = groups.flatten.map fun row => t.items.getD row [] := by
    clear hrows hinverse
    induction hts with
    | nil => rfl
    | cons hholds htail ih => rw [flatMap_cons, hholds.2, ih, flatten_cons, map_append]
  have hne : ts ≠ [] := by
    rintro rfl
    have := hts.length_eq
    rw [eq_nil_of_length_eq_zero this] at hrows
    have := hrows.length_eq
    simp at this
    omega
  have hshapes : ∀ u ∈ ts, ∃ n, u.shape = n :: rest := by
    intro u hu
    clear hflatten hrows hinverse hne
    induction hts with
    | nil => cases hu
    | cons hholds htail ih =>
      rcases mem_cons.mp hu with rfl | hu
      · exact ⟨_, by rw [hholds.1, ht]; rfl⟩
      · exact ih hu
  obtain ⟨u, hcat, ⟨n, hshape⟩, hitems⟩ := Tensor.catItems_eq hne hshapes
  have hn : n = bs := by
    rw [← Tensor.length_items hshape, hitems, hflatten, length_map, hrows.length_eq, length_range]
  have hindex : ∀ i ∈ (inverseOrder groups.flatten bs).map Int.ofNat, 0 ≤ i ∧ i.toNat < n := by
    intro i hi
    obtain ⟨position, hposition, rfl⟩ := mem_map.mp hi
    obtain ⟨row, hrow⟩ := mem_iff_getElem?.mp hposition
    have hlt := (List.getElem?_eq_some_iff.mp ((hinverse position row).mpr hrow)).1
    rw [hrows.length_eq, length_range, ← hn] at hlt
    exact ⟨Int.natCast_nonneg _, hlt⟩
  obtain ⟨v, hselect, hshape', hitems'⟩ := Tensor.indexSelect_items hshape hindex
  refine ⟨u, hcat, ?_⟩
  rw [hselect]
  congr 1
  apply Tensor.ext_items hshape' ht
  rw [hitems', hitems, hflatten, map_map]
  exact hinverse.map_getD [] (by rwa [Tensor.length_items ht])

variable {items : List ω}

theorem multiModalRows_list {rows : List Nat} (hrows : ∀ row ∈ rows, row < items.length) :
    multiModalRows (α := α) (.list items) rows = .ok (.list (rows.filterMap (items[·]?))) := by
  have hchosen : (rows.mapM fun i => match items[i]? with
      | some x => (Except.ok x : Except SplitError ω)
      | none => .error .index) = .ok (rows.filterMap (items[·]?)) := by
    induction rows with
    | nil => rfl
    | cons row rows ih =>
      have hget := getElem?_eq_getElem (hrows row mem_cons_self)
      rw [mapM_cons, hget, ih fun r hr => hrows r (mem_cons_of_mem _ hr), filterMap_cons, hget]
      rfl
  rw [multiModalRows, hchosen]
  rfl

theorem filterMap_getElem? (d : ω) {rows : List Nat} (hrows : ∀ row ∈ rows, row < items.length) :
    rows.filterMap (items[·]?) = rows.map fun row => items.getD row d := by
  induction rows with
  | nil => rfl
  | cons row rows ih =>
    have hget := getElem?_eq_getElem (hrows row mem_cons_self)
    rw [filterMap_cons, hget, ih fun r hr => hrows r (mem_cons_of_mem _ hr),
      map_cons, getD_eq_getElem?_getD, hget, Option.getD_some]

theorem restore_list (hrows : groups.flatten.Perm (range items.length)) :
    (inverseOrder groups.flatten items.length).filterMap
      ((groups.flatMap fun g => g.filterMap (items[·]?))[·]?) = items := by
  cases hitems : items with
  | nil =>
    have hnone : inverseOrder groups.flatten ([] : List ω).length = [] :=
      eq_nil_of_length_eq_zero length_inverseOrder
    rw [hnone, filterMap_nil]
  | cons d rest =>
    rw [← hitems]
    have hinverse := inverse_inverseOrder hrows
    have hlt : ∀ row ∈ groups.flatten, row < items.length :=
      fun row hrow => mem_range.mp (hrows.mem_iff.mp hrow)
    have hflatten : (groups.flatMap fun g => g.filterMap (items[·]?)) =
        groups.flatten.map fun row => items.getD row d := by
      rw [← filterMap_getElem? d hlt, filterMap_flatten, flatMap_def]
    rw [hflatten, filterMap_getElem? d]
    · exact hinverse.map_getD d hrows
    · intro position hposition
      obtain ⟨row, hrow⟩ := mem_iff_getElem?.mp hposition
      rw [length_map]
      exact (List.getElem?_eq_some_iff.mp ((hinverse position row).mpr hrow)).1

end Values

/-! ## The dictionaries -/

section Dictionaries

variable {β : Type} {dictOfLists : List (String × List β)} {m : Nat}

theorem dictOfListToListOfDict_isOk (hlength : ∀ entry ∈ dictOfLists, entry.2.length = m) :
    ∃ mbs, dictOfListToListOfDict dictOfLists = .ok mbs := by
  unfold dictOfListToListOfDict
  cases dictOfLists with
  | nil => exact ⟨[], rfl⟩
  | cons entry entries =>
    apply mapM_isOk
    intro i hi
    apply mapM_isOk
    intro entry' hentry'
    have hlt : i < entry'.2.length := by
      rw [hlength entry' hentry', ← hlength entry mem_cons_self]
      exact mem_range.mp hi
    exact ⟨(entry'.1, entry'.2[i]), by rw [getElem?_eq_getElem hlt]⟩

/-- The dictionaries have the keys, and the entries of the lists one by one. -/
theorem dictOfListToListOfDict_spec {mbs : List (List (String × β))} (hne : dictOfLists ≠ [])
    (hlength : ∀ entry ∈ dictOfLists, entry.2.length = m)
    (h : dictOfListToListOfDict dictOfLists = .ok mbs) :
    mbs.length = m ∧ ∀ (i : Nat) (mb : List (String × β)), mbs[i]? = some mb →
      mb.map Prod.fst = dictOfLists.map Prod.fst ∧
      ∀ entry ∈ dictOfLists, ∀ v, entry.2[i]? = some v → (entry.1, v) ∈ mb := by
  unfold dictOfListToListOfDict at h
  cases hdict : dictOfLists with
  | nil => exact absurd hdict hne
  | cons entry entries =>
    rw [hdict] at h
    dsimp only at h
    rw [hlength entry (hdict ▸ mem_cons_self), ← hdict, mapM_eq_ok] at h
    rw [← hdict]
    have hmbs : mbs.length = m := by rw [← h.length_eq, length_range]
    refine ⟨hmbs, fun i mb hmb => ?_⟩
    obtain ⟨hi, hget⟩ := List.getElem?_eq_some_iff.mp hmb
    have hone := h.get (by rw [length_range]; omega) hi
    simp only [get_eq_getElem, getElem_range, hget] at hone
    refine ⟨?_, fun entry' hentry' v hv => ?_⟩
    · have hall := mapM_eq_ok.mp hone
      clear hone hget hmb hlength hne hdict h hmbs
      induction hall with
      | nil => rfl
      | @cons e e' l l' hstep htail ih =>
        rw [map_cons, map_cons, ih]
        congr 1
        split at hstep
        · cases hstep
          rfl
        · cases hstep
    · obtain ⟨pair, hpair, hstep⟩ := (mem_of_mapM hone).1 entry' hentry'
      rw [hv] at hstep
      cases hstep
      exact hpair

/-- What the microbatches have under the keys that are split, and under those that are shared. -/
theorem lookup_microbatches {mbs : List (List (String × β))} {shared : List (String × β)}
    (hne : dictOfLists ≠ []) (hlength : ∀ entry ∈ dictOfLists, entry.2.length = m)
    (h : dictOfListToListOfDict dictOfLists = .ok mbs)
    (hnodup : (dictOfLists.map Prod.fst ++ shared.map Prod.fst).Nodup) :
    (∀ entry ∈ dictOfLists, (mbs.map (· ++ shared)).map (lookup entry.1) = entry.2.map some) ∧
    ∀ entry ∈ shared, ∀ mb ∈ mbs.map (· ++ shared), lookup entry.1 mb = some entry.2 := by
  obtain ⟨hmbs, hspec⟩ := dictOfListToListOfDict_spec hne hlength h
  have hkeys : ∀ (i : Nat) (mb : List (String × β)), mbs[i]? = some mb →
      ((mb ++ shared).map Prod.fst).Nodup := by
    intro i mb hmb
    rw [map_append, (hspec i mb hmb).1]
    exact hnodup
  constructor
  · intro entry hentry
    apply ext_getElem?
    intro i
    rw [getElem?_map, getElem?_map, getElem?_map]
    cases hmb : mbs[i]? with
    | none =>
      have hle := List.getElem?_eq_none_iff.mp hmb
      rw [getElem?_eq_none (by rw [hlength entry hentry]; omega)]
      rfl
    | some mb =>
      have hlt := (List.getElem?_eq_some_iff.mp hmb).1
      have hget := getElem?_eq_getElem (show i < entry.2.length by
        rw [hlength entry hentry]; omega)
      have hmem := (hspec i mb hmb).2 entry hentry _ hget
      have hlookup := (lookup_eq_some (hkeys i mb hmb)).mpr (mem_append_left shared hmem)
      rw [Option.map_some, Option.map_some, hlookup, hget, Option.map_some]
  · intro entry hentry mb hmb
    obtain ⟨mb, hmem, rfl⟩ := mem_map.mp hmb
    obtain ⟨i, hi⟩ := mem_iff_getElem?.mp hmem
    exact (lookup_eq_some (hkeys i mb hi)).mpr (mem_append_right mb hentry)

end Dictionaries

/-! ## A whole batch -/

section Batches

variable {α ω : Type} [Scalar α] {argsort : List Int → List Nat} {data : Dict String (Value α ω)}
  {mbSpec : MicroBatchSpec} {allNMbs : Option (List Nat)} {mask : Tensor α} {bs maxSeqlen : Nat}
  {r : MicroBatchList α ω}

/-- Each microbatch has the rows of its group of a tensor, and together they give it back. -/
def TensorRestored (groups : List (List Nat)) (r : MicroBatchList α ω) (key : String)
    (t : Tensor α) : Prop :=
  ∃ ts, r.mbs.map (lookup key) = ts.map (fun u => some (.tensor u)) ∧
    Forall₂ (HoldsRows t) groups ts ∧
    ∃ u, Tensor.catItems ts = .ok u ∧ u.indexSelect (r.backwardIndices.map Int.ofNat) = .ok t

/-- The groups share out the rows, and multimodal lists are split and restored. -/
structure GroupsSplit (data : Dict String (Value α ω)) (mask : Tensor α) (bs : Nat)
    (groups : List (List Nat)) (r : MicroBatchList α ω) : Prop where
  rows : groups.flatten.Perm (range bs)
  count : r.mbs.length = groups.length
  lens : r.groupLens = groups.map fun g => (g.map fun i => (seqLens mask).getD i 0).sum
  backward : r.backwardIndices = inverseOrder groups.flatten bs
  lists : ∀ (key : String) (items : List ω), data.get? key = some (.list items) →
    items.length = bs → isMultiModalKey key = true →
    r.mbs.map (lookup key) = groups.map (fun g => some (.list (g.filterMap (items[·]?)))) ∧
      r.backwardIndices.filterMap ((groups.flatMap fun g => g.filterMap (items[·]?))[·]?) = items

/-- What is taken for rows is split and restored, and the rest is in every microbatch. -/
structure Restores (data : Dict String (Value α ω)) (mask : Tensor α) (bs maxSeqlen : Nat)
    (groups : List (List Nat)) (r : MicroBatchList α ω) : Prop
    extends GroupsSplit data mask bs groups r where
  tensors : ∀ (key : String) (t : Tensor α) (rest : List Nat),
    data.get? key = some (.tensor t) → t.shape = bs :: rest → isMultiModalKey key = false →
    isSplit bs maxSeqlen key (.tensor t : Value α ω) = true → TensorRestored groups r key t
  shared : ∀ (key : String) (value : Value α ω), data.get? key = some value →
    isMultiModalKey key = false → isSplit bs maxSeqlen key value = false →
    ∀ mb ∈ r.mbs, lookup key mb = some value

/-- Every value with the rows of the mask is split and restored: token rows `[B, S, ...]`, tensors
`[B, ...]` under known keys, and multimodal lists. -/
structure RowsRestored (data : Dict String (Value α ω)) (mask : Tensor α) (bs maxSeqlen : Nat)
    (groups : List (List Nat)) (r : MicroBatchList α ω) : Prop
    extends GroupsSplit data mask bs groups r where
  tensors : ∀ (key : String) (t : Tensor α) (rest : List Nat),
    data.get? key = some (.tensor t) → isMultiModalKey key = false →
    t.shape = bs :: maxSeqlen :: rest ∨
      batchDimContextKeys.contains key = true ∧ t.shape = bs :: rest → TensorRestored groups r key t

/-- The token rows of a batch are all split. -/
def TokenRowsSplit (data : Dict String (Value α ω)) (bs maxSeqlen : Nat) : Prop :=
  ∀ (key : String) (t : Tensor α) (rest : List Nat), data.get? key = some (.tensor t) →
    isMultiModalKey key = false → t.shape = bs :: maxSeqlen :: rest →
    isSplit bs maxSeqlen key (.tensor t : Value α ω) = true

/-- The values that are split have a row for each row of the mask. -/
def Aligned (data : Dict String (Value α ω)) (bs maxSeqlen : Nat) : Prop :=
  ∀ entry ∈ data.entries,
    (isMultiModalKey entry.1 = true → ∃ items, entry.2 = .list items ∧ items.length = bs) ∧
    (isMultiModalKey entry.1 = false → isSplit bs maxSeqlen entry.1 entry.2 = true →
      ∃ t rest, entry.2 = .tensor t ∧ t.shape = bs :: rest)

omit [Scalar α] in
theorem entries_perm (data : Dict String (Value α ω)) (bs maxSeqlen : Nat) :
    (entriesToSplit data bs maxSeqlen ++ multiModalEntries data ++
      entriesNotToSplit data bs maxSeqlen).Perm data.entries := by
  have hmulti := filter_append_perm (fun entry => isMultiModalKey entry.1) data.entries
  have hsplit := filter_append_perm
    (fun entry : String × Value α ω => isSplit bs maxSeqlen entry.1 entry.2)
    (data.entries.filter fun entry => !isMultiModalKey entry.1)
  rw [filter_filter, filter_filter] at hsplit
  refine Perm.trans ?_ hmulti
  refine Perm.trans ?_ (hsplit.append_left _)
  rw [← append_assoc]
  refine Perm.trans ?_ (perm_append_comm.append_right _)
  simp only [entriesToSplit, entriesNotToSplit, multiModalEntries, Bool.and_comm]
  exact Perm.refl _

omit [Scalar α] in
theorem keys_nodup (data : Dict String (Value α ω)) (bs maxSeqlen : Nat) :
    (((entriesToSplit data bs maxSeqlen ++ multiModalEntries data).map Prod.fst) ++
      (entriesNotToSplit data bs maxSeqlen).map Prod.fst).Nodup := by
  rw [← map_append]
  exact ((entries_perm data bs maxSeqlen).map Prod.fst).nodup_iff.mpr data.nodup

theorem split_eq_ok (hmask : data.get? "attention_mask" = some (.tensor mask))
    (hshape : mask.shape = [bs, maxSeqlen]) :
    splitPaddedTensorDictIntoMbList argsort data mbSpec allNMbs = .ok r ↔
      ∃ blockLens blocks, inputLens mask bs mbSpec.granularity = .ok blockLens ∧
        groupIndices argsort mbSpec (blockLens.map Int.toNat) allNMbs = .ok blocks ∧
        ∃ groups, groups = blocks.map (fun gi => gi.flatMap (blockRows mbSpec.granularity)) ∧
        groups.flatten.length = bs ∧ ∃ splitRows splitLists mbs,
          (entriesToSplit data bs maxSeqlen).mapM (splitEntry bs groups) = .ok splitRows ∧
          (multiModalEntries data).mapM (multiModalEntry groups) = .ok splitLists ∧
          dictOfListToListOfDict (splitRows ++ splitLists) = .ok mbs ∧
          r = { mbs := mbs.map (· ++ entriesNotToSplit data bs maxSeqlen)
                groupLens := groups.map fun gi => (gi.map fun i => (seqLens mask).getD i 0).sum
                forwardIndices := groups.flatten
                backwardIndices := inverseOrder groups.flatten bs } := by
  have hmapError : ∀ (x : Except AllocateError (List (List Nat))) (blocks : List (List Nat)),
      x.mapError SplitError.allocate = .ok blocks ↔ x = .ok blocks := by
    intro x blocks
    cases x <;> simp [Except.mapError]
  unfold splitPaddedTensorDictIntoMbList
  rw [hmask]
  dsimp only
  rw [hshape]
  dsimp only
  constructor
  · intro h
    obtain ⟨blockLens, hlens, h⟩ := bind_eq_ok.mp h
    obtain ⟨blocks, hblocks, h⟩ := bind_eq_ok.mp h
    split_ifs at h with hlength
    obtain ⟨splitRows, hrows, h⟩ := bind_eq_ok.mp h
    obtain ⟨splitLists, hlists, h⟩ := bind_eq_ok.mp h
    obtain ⟨mbs, hmbs, h⟩ := bind_eq_ok.mp h
    cases h
    exact ⟨blockLens, blocks, hlens, (hmapError _ _).mp hblocks, _, rfl, not_not.mp hlength,
      splitRows, splitLists, mbs, hrows, hlists, hmbs, rfl⟩
  · rintro ⟨blockLens, blocks, hlens, hblocks, groups, rfl, hlength, splitRows, splitLists, mbs, hrows,
      hlists, hmbs, rfl⟩
    rw [hlens, bind_ok, (hmapError _ _).mpr hblocks, bind_ok, if_neg (not_not.mpr hlength), hrows,
      bind_ok, hlists, bind_ok, hmbs]
    rfl

omit [Scalar α] in
theorem length_sliceGroups (reordered : Tensor α) (offset : Nat) (ns : List Nat) :
    (sliceGroups reordered offset ns).length = ns.length := by
  induction ns generalizing offset with
  | nil => rfl
  | cons n ns ih => rw [sliceGroups, length_cons, ih, length_cons]

variable {groups : List (List Nat)}

omit [Scalar α] in
theorem splitEntry_shape {entry : String × Value α ω} {out : String × List (Value α ω)}
    (h : splitEntry bs groups entry = .ok out) :
    out.1 = entry.1 ∧ out.2.length = groups.length := by
  obtain ⟨pieces, hpieces, h⟩ := bind_eq_ok.mp h
  cases h
  refine ⟨rfl, ?_⟩
  unfold splitValue at hpieces
  split at hpieces
  · split_ifs at hpieces
    split at hpieces
    · cases hpieces
    · cases hpieces
      rw [length_map, length_sliceGroups, length_map]
  · cases hpieces

omit [Scalar α] in
theorem multiModalEntry_shape {entry : String × Value α ω} {out : String × List (Value α ω)}
    (h : multiModalEntry groups entry = .ok out) :
    out.1 = entry.1 ∧ out.2.length = groups.length := by
  obtain ⟨pieces, hpieces, h⟩ := bind_eq_ok.mp h
  cases h
  exact ⟨rfl, (mapM_eq_ok.mp hpieces).length_eq.symm⟩

omit [Scalar α] in
theorem keys_of_mapM {f : String × Value α ω → Except SplitError (String × List (Value α ω))}
    {entries : List (String × Value α ω)} {outs : List (String × List (Value α ω))}
    (hf : ∀ entry out, f entry = .ok out → out.1 = entry.1) (h : entries.mapM f = .ok outs) :
    outs.map Prod.fst = entries.map Prod.fst := by
  have hall := mapM_eq_ok.mp h
  clear h
  induction hall with
  | nil => rfl
  | cons hstep htail ih => rw [map_cons, map_cons, ih, hf _ _ hstep]

variable {blockLens : List Int}

theorem length_inputLens {granularity : Nat} (h : inputLens mask bs granularity = .ok blockLens)
    (hdvd : granularity ∣ bs) : blockLens.length * granularity = bs ∧ 0 < bs := by
  unfold inputLens at h
  dsimp only at h
  split_ifs at h with hzero hview
  cases h
  push Not at hview
  have hmul := Nat.div_mul_cancel hdvd
  rw [length_map, length_chunks, hmul]
  exact ⟨rfl, by rw [hmul] at hview; omega⟩

omit [Scalar α] in
theorem mask_mem (hmask : data.get? "attention_mask" = some (.tensor mask))
    (hshape : mask.shape = [bs, maxSeqlen]) :
    ("attention_mask", Value.tensor mask) ∈ entriesToSplit data bs maxSeqlen := by
  have hnumel : mask.data.length = bs * maxSeqlen := by
    rw [mask.size, hshape]
    simp
  have hkey : isMultiModalKey "attention_mask" = false := by decide
  refine mem_filter.mpr ⟨data.get?_eq_some.mp hmask, ?_⟩
  simp [hkey, isSplit, isTokenRow, hnumel]

theorem groups_perm (hargsort : ∀ keys, (argsort keys).Perm (range keys.length))
    {blocks : List (List Nat)} (hlength : blockLens.length * mbSpec.granularity = bs)
    (hblocks : groupIndices argsort mbSpec (blockLens.map Int.toNat) allNMbs = .ok blocks) :
    (blocks.map fun gi => gi.flatMap (blockRows mbSpec.granularity)).flatten.Perm (range bs) := by
  have hblocksPerm := groupIndices_perm hargsort hblocks
  rw [length_map] at hblocksPerm
  rw [← hlength]
  exact flatten_blocks_perm hblocksPerm mbSpec.granularity

omit [Scalar α] in
theorem length_pieces {entries lists : List (String × Value α ω)}
    {splitRows splitLists : List (String × List (Value α ω))}
    (hrows : entries.mapM (splitEntry bs groups) = .ok splitRows)
    (hlists : lists.mapM (multiModalEntry groups) = .ok splitLists) :
    ∀ out ∈ splitRows ++ splitLists, out.2.length = groups.length := by
  intro out hout
  rcases mem_append.mp hout with hout | hout
  · obtain ⟨entry, -, hentry⟩ := (mem_of_mapM hrows).2 out hout
    exact (splitEntry_shape hentry).2
  · obtain ⟨entry, -, hentry⟩ := (mem_of_mapM hlists).2 out hout
    exact (multiModalEntry_shape hentry).2

/-- A batch that is split is restored. -/
theorem restores_of_split (hargsort : ∀ keys, (argsort keys).Perm (range keys.length))
    (hmask : data.get? "attention_mask" = some (.tensor mask))
    (hshape : mask.shape = [bs, maxSeqlen]) (hdvd : mbSpec.granularity ∣ bs)
    (hsplit : splitPaddedTensorDictIntoMbList argsort data mbSpec allNMbs = .ok r) :
    ∃ blockLens blocks, inputLens mask bs mbSpec.granularity = .ok blockLens ∧
      groupIndices argsort mbSpec (blockLens.map Int.toNat) allNMbs = .ok blocks ∧
      Restores data mask bs maxSeqlen
        (blocks.map fun gi => gi.flatMap (blockRows mbSpec.granularity)) r := by
  obtain ⟨blockLens, blocks, hlens, hblocks, groups, hgroups, -, splitRows, splitLists, mbs, hrows,
    hlists, hmbs, rfl⟩ := (split_eq_ok hmask hshape).mp hsplit
  refine ⟨blockLens, blocks, hlens, hblocks, ?_⟩
  rw [← hgroups]
  obtain ⟨hlength, hpos⟩ := length_inputLens hlens hdvd
  have hperm : groups.flatten.Perm (range bs) := hgroups ▸ groups_perm hargsort hlength hblocks
  have hkeys : (splitRows ++ splitLists).map Prod.fst =
      (entriesToSplit data bs maxSeqlen ++ multiModalEntries data).map Prod.fst := by
    rw [map_append, map_append, keys_of_mapM (fun _ _ h => (splitEntry_shape h).1) hrows,
      keys_of_mapM (fun _ _ h => (multiModalEntry_shape h).1) hlists]
  have hpieces := length_pieces hrows hlists
  have hne : splitRows ++ splitLists ≠ [] := by
    obtain ⟨out, hout, -⟩ := (mem_of_mapM hrows).1 _ (mask_mem hmask hshape)
    exact ne_nil_of_mem (mem_append_left _ hout)
  have hnodup := keys_nodup data bs maxSeqlen
  rw [← hkeys] at hnodup
  obtain ⟨hlookup, hshared⟩ := lookup_microbatches hne hpieces hmbs hnodup
  have hcount := (dictOfListToListOfDict_spec hne hpieces hmbs).1
  refine ⟨⟨hperm, by rw [length_map, hcount], rfl, rfl, ?_⟩, ?_, ?_⟩
  rotate_left
  · intro key t rest hget ht hmulti his
    obtain ⟨ts, hts, hholds⟩ := splitValue_tensor (ω := ω) ht le_rfl hperm
    have hmem : (key, Value.tensor t) ∈ entriesToSplit data bs maxSeqlen :=
      mem_filter.mpr ⟨data.get?_eq_some.mp hget, by simp [hmulti, his]⟩
    obtain ⟨out, hout, hentry⟩ := (mem_of_mapM hrows).1 _ hmem
    rw [splitEntry, hts, bind_ok] at hentry
    cases hentry
    refine ⟨ts, ?_, hholds, restore_tensor ht hpos hperm hholds⟩
    rw [hlookup _ (mem_append_left _ hout), map_map]
    rfl
  · intro key value hget hmulti hnot mb hmb
    have hmem : (key, value) ∈ entriesNotToSplit data bs maxSeqlen :=
      mem_filter.mpr ⟨data.get?_eq_some.mp hget, by simp [hmulti, hnot]⟩
    exact hshared _ hmem mb hmb
  · intro key items hget hitems hmulti
    have hmem : (key, Value.list items) ∈ multiModalEntries data :=
      mem_filter.mpr ⟨data.get?_eq_some.mp hget, hmulti⟩
    obtain ⟨out, hout, hentry⟩ := (mem_of_mapM hlists).1 _ hmem
    have hrow : ∀ group ∈ groups, ∀ row ∈ group, row < items.length := by
      intro group hgroup row hrow
      rw [hitems]
      exact mem_range.mp (hperm.mem_iff.mp (mem_flatten.mpr ⟨group, hgroup, hrow⟩))
    have hparts : groups.mapM (multiModalRows (.list items : Value α ω)) =
        .ok (groups.map fun g => .list (g.filterMap (items[·]?))) :=
      mapM_ok fun group hgroup => multiModalRows_list (hrow group hgroup)
    rw [multiModalEntry, hparts, bind_ok] at hentry
    cases hentry
    constructor
    · rw [hlookup _ (mem_append_right _ hout), map_map]
      rfl
    · rw [← hitems] at hperm ⊢
      exact restore_list hperm

/-- A batch whose values have a row for each row of the mask is split when its rows are
allocated. -/
theorem split_isOk (hargsort : ∀ keys, (argsort keys).Perm (range keys.length))
    (hmask : data.get? "attention_mask" = some (.tensor mask))
    (hshape : mask.shape = [bs, maxSeqlen]) (hdvd : mbSpec.granularity ∣ bs)
    (haligned : Aligned data bs maxSeqlen) {blocks : List (List Nat)}
    (hlens : inputLens mask bs mbSpec.granularity = .ok blockLens)
    (hblocks : groupIndices argsort mbSpec (blockLens.map Int.toNat) allNMbs = .ok blocks) :
    ∃ r, splitPaddedTensorDictIntoMbList argsort data mbSpec allNMbs = .ok r := by
  obtain ⟨hlength, -⟩ := length_inputLens hlens hdvd
  set groups := blocks.map fun gi => gi.flatMap (blockRows mbSpec.granularity) with hgroups
  have hperm : groups.flatten.Perm (range bs) := hgroups ▸ groups_perm hargsort hlength hblocks
  have hrows : ∃ splitRows, (entriesToSplit data bs maxSeqlen).mapM (splitEntry bs groups) =
      .ok splitRows := by
    apply mapM_isOk
    rintro ⟨key, value⟩ hentry
    obtain ⟨hmem, hkind⟩ := mem_filter.mp hentry
    rw [Bool.and_eq_true, Bool.not_eq_true'] at hkind
    obtain ⟨t, rest, hvalue, ht⟩ := (haligned _ hmem).2 hkind.1 hkind.2
    dsimp only at hvalue
    obtain ⟨ts, hts, -⟩ := splitValue_tensor (ω := ω) ht le_rfl hperm
    rw [splitEntry, hvalue, hts]
    exact ⟨_, rfl⟩
  have hlists : ∃ splitLists, (multiModalEntries data).mapM (multiModalEntry groups) =
      .ok splitLists := by
    apply mapM_isOk
    rintro ⟨key, value⟩ hentry
    obtain ⟨hmem, hkind⟩ := mem_filter.mp hentry
    obtain ⟨items, hvalue, hitems⟩ := (haligned _ hmem).1 hkind
    dsimp only at hvalue
    have hparts : groups.mapM (multiModalRows (.list items : Value α ω)) =
        .ok (groups.map fun g => .list (g.filterMap (items[·]?))) := by
      refine mapM_ok fun group hgroup => multiModalRows_list fun row hrow => ?_
      rw [hitems]
      exact mem_range.mp (hperm.mem_iff.mp (mem_flatten.mpr ⟨group, hgroup, hrow⟩))
    rw [multiModalEntry, hvalue, hparts]
    exact ⟨_, rfl⟩
  obtain ⟨splitRows, hrows⟩ := hrows
  obtain ⟨splitLists, hlists⟩ := hlists
  have hpieces := length_pieces hrows hlists
  obtain ⟨mbs, hmbs⟩ := dictOfListToListOfDict_isOk hpieces
  refine ⟨_, (split_eq_ok hmask hshape).mpr ⟨blockLens, blocks, hlens, hblocks, groups, hgroups, ?_,
    splitRows, splitLists, mbs, hrows, hlists, hmbs, rfl⟩⟩
  rw [hperm.length_eq, length_range]

section Rows

variable {key : String} {t : Tensor α} {rest : List Nat}

/-- A tensor that is shared has the rows of one group only. -/
theorem Restores.single_of_shared (h : Restores data mask bs maxSeqlen groups r) (hpos : 0 < bs)
    (hget : data.get? key = some (.tensor t)) (ht : t.shape = bs :: rest)
    (hmulti : isMultiModalKey key = false)
    (hnot : isSplit bs maxSeqlen key (.tensor t : Value α ω) = false)
    (hrestored : TensorRestored groups r key t) : groups.length = 1 := by
  obtain ⟨ts, hts, hholds, -⟩ := hrestored
  have hsame : ∀ u ∈ ts, u = t := by
    intro u hu
    have hmem : some (Value.tensor u) ∈ r.mbs.map (lookup key) :=
      hts ▸ mem_map_of_mem (f := fun u => some (Value.tensor u)) hu
    obtain ⟨mb, hmb, hlookup⟩ := mem_map.mp hmem
    rw [h.shared key _ hget hmulti hnot mb hmb] at hlookup
    cases hlookup
    rfl
  have hrows : ∀ group ∈ groups, group.length = bs := by
    intro group hgroup
    obtain ⟨i, hi, rfl⟩ := getElem_of_mem hgroup
    have hlt := hholds.length_eq ▸ hi
    have hshape := (hholds.get hi hlt).1
    rw [hsame _ (get_mem ts ⟨i, hlt⟩), ht] at hshape
    exact (List.cons.inj hshape).1.symm
  have hsum := h.rows.length_eq
  rw [List.length_flatten, map_congr_left hrows, map_const', sum_replicate,
    length_range, smul_eq_mul] at hsum
  exact Nat.eq_of_mul_eq_mul_right hpos (by omega)

/-- A tensor that is shared has the rows of one group that has them in their order. -/
theorem Restores.tensorRestored_of_single (h : Restores data mask bs maxSeqlen [range bs] r)
    (hpos : 0 < bs) (hget : data.get? key = some (.tensor t)) (ht : t.shape = bs :: rest)
    (hmulti : isMultiModalKey key = false)
    (hnot : isSplit bs maxSeqlen key (.tensor t : Value α ω) = false) :
    TensorRestored [range bs] r key t := by
  obtain ⟨mb, hmbs⟩ := List.length_eq_one_iff.mp h.count
  have hholds : HoldsRows t (range bs) t := by
    refine ⟨by rw [ht, length_range, tail_cons], ?_⟩
    have hlength := Tensor.length_items ht
    refine ext_getElem (by simp [hlength]) fun i hi hi' => ?_
    simp [getD_eq_getElem?_getD, getElem?_eq_getElem hi]
  have hall : Forall₂ (HoldsRows t) [range bs] [t] := .cons hholds .nil
  refine ⟨[t], ?_, hall, ?_⟩
  · rw [hmbs, map_singleton, h.shared key _ hget hmulti hnot mb (by simp [hmbs])]
    rfl
  · rw [h.backward]
    exact restore_tensor ht hpos h.rows hall

end Rows

/-- Every value with the rows of the mask is restored exactly when all token rows are split, or all
rows stay together. -/
theorem Restores.rowsRestored_iff (h : Restores data mask bs maxSeqlen groups r) (hpos : 0 < bs)
    (hsingle : groups.length = 1 → groups = [range bs]) :
    RowsRestored data mask bs maxSeqlen groups r ↔
      TokenRowsSplit data bs maxSeqlen ∨ groups.length = 1 := by
  constructor
  · intro hrestored
    by_contra hneither
    push Not at hneither
    obtain ⟨htokens, hmany⟩ := hneither
    refine htokens fun key t rest hget hmulti ht => ?_
    by_contra hnot
    rw [Bool.not_eq_true] at hnot
    exact hmany (h.single_of_shared hpos hget ht hmulti hnot
      (hrestored.tensors key t rest hget hmulti (.inl ht)))
  · intro hcase
    refine ⟨h.toGroupsSplit, fun key t rest hget hmulti hshape => ?_⟩
    obtain ⟨rest', ht⟩ : ∃ rest', t.shape = bs :: rest' := by
      rcases hshape with ht | ⟨-, ht⟩
      · exact ⟨_, ht⟩
      · exact ⟨_, ht⟩
    by_cases hsplit : isSplit bs maxSeqlen key (.tensor t : Value α ω) = true
    · exact h.tensors key t rest' hget ht hmulti hsplit
    · rw [Bool.not_eq_true] at hsplit
      rcases hcase with htokens | hone
      · rcases hshape with ht' | ⟨hkey, -⟩
        · exact absurd (htokens key t rest hget hmulti ht') (by simp [hsplit])
        · have hmem := contains_iff_mem.mp hkey
          simp [isSplit, isPerSequence, hmem, ht] at hsplit
      · obtain rfl := hsingle hone
        exact h.tensorRestored_of_single hpos hget ht hmulti hsplit

/-- A batch is split when its rows are allocated, and what is taken for rows is then split by the
groups and restored by the backward indices.  This is every value with the rows of the mask exactly
when all token rows are split, or all rows stay in one microbatch. -/
theorem split_restores (hargsort : ∀ keys, (argsort keys).Perm (range keys.length))
    (hmask : data.get? "attention_mask" = some (.tensor mask))
    (hshape : mask.shape = [bs, maxSeqlen]) (hdvd : mbSpec.granularity ∣ bs) :
    (∀ blockLens blocks, Aligned data bs maxSeqlen →
      inputLens mask bs mbSpec.granularity = .ok blockLens →
      groupIndices argsort mbSpec (blockLens.map Int.toNat) allNMbs = .ok blocks →
      ∃ r, splitPaddedTensorDictIntoMbList argsort data mbSpec allNMbs = .ok r) ∧
    ∀ r, splitPaddedTensorDictIntoMbList argsort data mbSpec allNMbs = .ok r →
      ∃ blockLens blocks, inputLens mask bs mbSpec.granularity = .ok blockLens ∧
        groupIndices argsort mbSpec (blockLens.map Int.toNat) allNMbs = .ok blocks ∧
        Restores data mask bs maxSeqlen
          (blocks.map fun gi => gi.flatMap (blockRows mbSpec.granularity)) r ∧
        (RowsRestored data mask bs maxSeqlen
            (blocks.map fun gi => gi.flatMap (blockRows mbSpec.granularity)) r ↔
          TokenRowsSplit data bs maxSeqlen ∨
            Together mbSpec (blockLens.map Int.toNat) allNMbs) := by
  refine ⟨fun _ _ haligned hlens hblocks =>
    split_isOk hargsort hmask hshape hdvd haligned hlens hblocks, fun r hsplit => ?_⟩
  obtain ⟨blockLens, blocks, hlens, hblocks, hrestores⟩ :=
    restores_of_split hargsort hmask hshape hdvd hsplit
  obtain ⟨hlength, hpos⟩ := length_inputLens hlens hdvd
  refine ⟨blockLens, blocks, hlens, hblocks, hrestores, ?_⟩
  rw [← groupIndices_together hargsort hblocks, hrestores.rowsRestored_iff hpos, length_map]
  intro hone
  rw [length_map] at hone
  rw [groupIndices_single hargsort hblocks hone, map_singleton, flatMap_blockRows,
    length_map, hlength]

end Batches


/-! ## A tensor with a last axis -/

/-- Two rows of one token. -/
def shortMask : Tensor Int := ⟨[2, 1], [1, 1], rfl⟩

/-- Two values for each token. -/
def wideScores : Tensor Int := ⟨[2, 1, 2], [1, 2, 3, 4], rfl⟩

/-- A batch with scores under a key that is not known. -/
def wideBatch : Dict String (Value Int Unit) where
  entries := [("attention_mask", .tensor shortMask), ("scores", .tensor wideScores)]
  nodup := by decide

/-- A batch with one score for each token. -/
def flatBatch : Dict String (Value Int Unit) where
  entries := [("attention_mask", .tensor shortMask), ("scores", .tensor ⟨[2, 1], [5, 6], rfl⟩)]
  nodup := by decide

theorem groupIndices_short :
    groupIndices (fun keys => range keys.length) { maxTokensPerMb := some 1 } [1, 1] none =
      .ok [[0], [1]] := by
  have hinner : ffdAllocateInner [1, 1] 1 1 [0, 1] = some [[0], [1]] := by decide
  have hallocate : ffdAllocate (fun keys => range keys.length) [1, 1] 1 (some 1) 1 =
      .ok [[0], [1]] := by
    unfold ffdAllocate
    simpa using ffdLoop_one one_pos hinner
  have hsorted : sortGroups [[0], [1]] = [[0], [1]] := by
    rw [sortGroups]
    simp only [map_cons, map_nil, sortRows, mergeSort_singleton]
    apply mergeSort_of_pairwise
    decide
  simp [groupIndices, allocateBalancedMbs, MicroBatchSpec.withCapacity, MicroBatchSpec.minGroups,
    hallocate, hsorted, bind_ok]

/-- Both microbatches have the scores of both rows. -/
theorem split_wide_scores :
    ∃ r, splitPaddedTensorDictIntoMbList (fun keys => range keys.length) wideBatch
        { maxTokensPerMb := some 1 } none = .ok r ∧ r.forwardIndices = [0, 1] ∧ r.mbs.length = 2 ∧
      ¬∃ ts, r.mbs.map (lookup "scores") = ts.map (fun u => some (.tensor u)) ∧
        Forall₂ (HoldsRows wideScores) [[0], [1]] ts := by
  have hmask : wideBatch.get? "attention_mask" = some (.tensor shortMask) := rfl
  refine ⟨_, (split_eq_ok hmask rfl).mpr ⟨[1, 1], [[0], [1]], rfl,
    groupIndices_short, _, rfl, rfl, _, _, _, rfl, rfl, rfl, rfl⟩, rfl, rfl, ?_⟩
  rintro ⟨ts, hts, hholds⟩
  cases hholds with
  | @cons _ u _ ts' hfirst htail =>
    have hhead : some (some (Value.tensor wideScores)) = some (some (Value.tensor u)) :=
      congrArg head? hts
    cases hhead
    exact absurd hfirst.1 (by decide)

/-- Scores of one number for each token are restored, and those with a last axis are not. -/
theorem split_restores_two_batches :
    (∃ r, splitPaddedTensorDictIntoMbList (fun keys => range keys.length) flatBatch
        { maxTokensPerMb := some 1 } none = .ok r ∧
      RowsRestored flatBatch shortMask 2 1 [[0], [1]] r) ∧
    ∃ r, splitPaddedTensorDictIntoMbList (fun keys => range keys.length) wideBatch
        { maxTokensPerMb := some 1 } none = .ok r ∧
      ¬RowsRestored wideBatch shortMask 2 1 [[0], [1]] r := by
  have hgranularity : ({ maxTokensPerMb := some 1 } : MicroBatchSpec).granularity ∣ 2 := one_dvd 2
  have hsplit : ∀ data : Dict String (Value Int Unit),
      data.get? "attention_mask" = some (.tensor shortMask) → Aligned data 2 1 →
      ∃ r, splitPaddedTensorDictIntoMbList (fun keys => range keys.length) data
          { maxTokensPerMb := some 1 } none = .ok r ∧
        (RowsRestored data shortMask 2 1 [[0], [1]] r ↔ TokenRowsSplit data 2 1) := by
    intro data hmask haligned
    obtain ⟨r, hr⟩ := (split_restores (fun _ => Perm.refl _) hmask rfl hgranularity).1 [1, 1]
      [[0], [1]] haligned rfl groupIndices_short
    obtain ⟨blockLens, blocks, hlens, hblocks, -, hiff⟩ :=
      (split_restores (fun _ => Perm.refl _) hmask rfl hgranularity).2 r hr
    obtain rfl : [1, 1] = blockLens := Except.ok.inj hlens
    obtain rfl : [[0], [1]] = blocks := Except.ok.inj (groupIndices_short.symm.trans hblocks)
    have hapart : ¬Together { maxTokensPerMb := some 1 } [1, 1] none := fun h =>
      absurd h.2.1 (by decide)
    exact ⟨r, hr, hiff.trans (or_iff_left hapart)⟩
  have hflatAligned : Aligned flatBatch 2 1 := by
    intro entry hentry
    fin_cases hentry <;> exact ⟨fun h => absurd h (by decide), fun _ _ => ⟨_, _, rfl, rfl⟩⟩
  have hwideAligned : Aligned wideBatch 2 1 := by
    intro entry hentry
    fin_cases hentry <;> exact ⟨fun h => absurd h (by decide), fun _ _ => ⟨_, _, rfl, rfl⟩⟩
  obtain ⟨flat, hflat, hflatIff⟩ := hsplit flatBatch rfl hflatAligned
  obtain ⟨wide, hwide, hwideIff⟩ := hsplit wideBatch rfl hwideAligned
  refine ⟨⟨flat, hflat, hflatIff.mpr fun key t rest hget _ ht => ?_⟩, wide, hwide, fun h => ?_⟩
  · have hnumel : t.data.length = 2 * 1 := by
      have hmem := flatBatch.get?_eq_some.mp hget
      fin_cases hmem <;> rfl
    simp [isSplit, isTokenRow, hnumel]
  · exact absurd (hwideIff.mp h "scores" wideScores [2] rfl (by decide) rfl) (by decide)

end ArcticPlatform.PipelinePacking.Divided
