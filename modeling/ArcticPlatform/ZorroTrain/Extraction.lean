import ArcticPlatform.ZorroTrain.RoundTrip

/-!
# ZoRRoTrain: the extracted responses

`extract_unpadded_responses_from_deduped_packed_ids` cuts the responses out of a packed
tensor.  With the offset minus one it takes the last token of the prompt and leaves out the
last token of the response, so that its tokens are those before the labels.

Main results:

- Theorem `extractSegments_getElem?`: what is taken for one sample.
- Theorem `responses_aligned_iff`: the logits are aligned with the labels exactly where no
  sample lacks only its prompt or only its response.
-/

namespace ArcticPlatform.ZorroTrain

open Slices List Option

/-! ## The code -/

section Code

variable {α : Type} (packed : List α) (segments : List PackedSegment) (offset : Int)

/-- The first response segment of the sample in the group. -/
def sampleResponse (g i : Nat) : Option PackedSegment :=
  (groupResponses segments g).find? fun seg => seg.originalIdx = i

/-- What is taken for one sample: the end of its prompt, and its response without the end. -/
def extractSample (promptStart promptValid packedPosition responseValid : Nat) : List α :=
  let promptSuffix :=
    if offset < 0 ∧ 0 < promptValid then
      some (sliceInt packed (promptStart + promptValid + offset) (promptStart + promptValid))
    else none
  let responseEnd : Int :=
    if offset < 0 then packedPosition + responseValid + offset else packedPosition + responseValid
  let responseTokens := sliceInt packed packedPosition responseEnd
  match promptSuffix with
  | none => responseTokens
  | some suffix => if 0 < suffix.length then suffix ++ responseTokens else responseTokens

/-- The loop over the samples of a group, and the position behind them. -/
def extractGroup (g promptStart promptValid : Nat) : Nat → List Nat → List (List α) × Nat
  | pos, [] => ([], pos)
  | pos, i :: rest =>
    match sampleResponse segments g i with
    | none => extractGroup g promptStart promptValid pos rest
    | some seg =>
      let (taken, last) := extractGroup g promptStart promptValid (pos + seg.numValidTokens) rest
      (extractSample packed offset promptStart promptValid pos seg.numValidTokens :: taken, last)

/-- The loop over the groups: `response_segments`. -/
def extractSegments : Nat → Nat → List (List Nat) → List (List α)
  | _, _, [] => []
  | g, pos, group :: groups =>
    let promptValid := ((groupPrompt segments g).map (·.numValidTokens)).getD 0
    let (taken, last) :=
      extractGroup packed segments offset g pos promptValid (pos + promptValid) group
    taken ++ extractSegments (g + 1) last groups

end Code

/-- `extract_unpadded_responses_from_deduped_packed_ids`; joining no tensors is an error. -/
def extractUnpaddedResponses {α : Type} (packed : List α) (info : PackedInfo) (offset : Int) :
    Option (List α) :=
  let segments := extractSegments packed info.segmentInfo offset 0 0 info.promptGroups
  if segments = [] then none else some segments.flatten

/-! ## One sample -/

section Samples

variable {α : Type} {segments : List PackedSegment} {p r : Nat → Nat}

variable (packed : List α)

theorem extractGroup_snd (offset : Int) {g : Nat} {group : List Nat}
    (hr : ∀ i ∈ group, ∃ seg, sampleResponse segments g i = some seg ∧ seg.numValidTokens = r i)
    (ps pv pos : Nat) :
    (extractGroup packed segments offset g ps pv pos group).1.length = group.length ∧
      (extractGroup packed segments offset g ps pv pos group).2 = pos + (group.map r).sum := by
  induction group generalizing pos with
  | nil => exact ⟨rfl, rfl⟩
  | cons i rest ih =>
    obtain ⟨seg, hseg, hvalid⟩ := hr i mem_cons_self
    obtain ⟨hlen, hlast⟩ := ih (fun j hj => hr j (mem_cons_of_mem i hj)) (pos + r i)
    simp only [extractGroup, hseg, hvalid, hlen, hlast, length_cons, map_cons,
      sum_cons, add_assoc, and_self]

theorem extractGroup_getElem? (offset : Int) {g ps pv i : Nat} {before after : List Nat}
    (hr : ∀ j ∈ before ++ i :: after,
      ∃ seg, sampleResponse segments g j = some seg ∧ seg.numValidTokens = r j) (pos : Nat) :
    (extractGroup packed segments offset g ps pv pos (before ++ i :: after)).1[before.length]? =
      some (extractSample packed offset ps pv (pos + (before.map r).sum) (r i)) := by
  induction before generalizing pos with
  | nil =>
    obtain ⟨seg, hseg, hvalid⟩ := hr i (by simp)
    simp [extractGroup, hseg, hvalid]
  | cons j before ih =>
    obtain ⟨seg, hseg, hvalid⟩ := hr j (by simp)
    have hrest := ih (fun j' hj' => hr j' (mem_cons_of_mem j hj')) (pos + r j)
    simp only [cons_append, extractGroup, hseg, hvalid, length_cons,
      getElem?_cons_succ, hrest, map_cons, sum_cons, add_assoc]

/-- What is taken for a sample: the counts of the earlier groups and samples say where it starts. -/
theorem extractSegments_getElem? (offset : Int) {k i : Nat}
    {groups groups' : List (List Nat)} {before after : List Nat}
    (hsegments : ∀ j group, (groups ++ (before ++ i :: after) :: groups')[j]? = some group →
      (∃ seg, groupPrompt segments (k + j) = some seg ∧ seg.numValidTokens = p (group.headD 0)) ∧
      ∀ i ∈ group, ∃ seg, sampleResponse segments (k + j) i = some seg ∧
        seg.numValidTokens = r i) (pos : Nat) :
    (extractSegments packed segments offset k pos
      (groups ++ (before ++ i :: after) :: groups'))[groups.flatten.length + before.length]? =
      some (extractSample packed offset (pos + layoutLength p r groups)
        (p ((before ++ i :: after).headD 0))
        (pos + layoutLength p r groups + p ((before ++ i :: after).headD 0) +
          (before.map r).sum) (r i)) := by
  induction groups generalizing k pos with
  | nil =>
    obtain ⟨⟨seg, hseg, hvalid⟩, hr⟩ := hsegments 0 _ rfl
    rw [add_zero] at hseg hr
    have hlt : before.length < (before ++ i :: after).length := by simp
    have hlength := (extractGroup_snd packed offset hr pos (p ((before ++ i :: after).headD 0))
      (pos + p ((before ++ i :: after).headD 0))).1
    simp only [nil_append, extractSegments, hseg, map_some, getD_some, hvalid,
      flatten_nil, length_nil, zero_add, layoutLength, map_nil, sum_nil, add_zero]
    rw [getElem?_append_left (by rw [hlength]; exact hlt), extractGroup_getElem? packed offset hr]
  | cons group groups ih =>
    obtain ⟨⟨seg, hseg, hvalid⟩, hr⟩ := hsegments 0 _ rfl
    rw [add_zero] at hseg hr
    obtain ⟨hlength, hlast⟩ :=
      extractGroup_snd packed offset hr pos (p (group.headD 0)) (pos + p (group.headD 0))
    have hrest := ih (k := k + 1) (by
      intro j g hj
      have hnext := hsegments (j + 1) g (by simpa using hj)
      rwa [← add_assoc, add_right_comm] at hnext) (pos + p (group.headD 0) + (group.map r).sum)
    simp only [cons_append, extractSegments, hseg, map_some, getD_some, hvalid,
      flatten_cons, length_append, hlast]
    rw [getElem?_append_right (by rw [hlength]; omega), hlength,
      show group.length + groups.flatten.length + before.length - group.length =
        groups.flatten.length + before.length by omega, hrest, layoutLength_cons]
    simp only [add_assoc]

end Samples

/-! ## Positions -/

/-- The logits come one position before the labels, along the row of a sample. -/
structure SampleAligned (row logits labels : List Nat) (numValid : Nat) : Prop where
  logits_length : logits.length = numValid
  labels_length : labels.length = numValid
  precedes : ∀ j < numValid, ∃ t x y, logits[j]? = some x ∧ labels[j]? = some y ∧
    row[t]? = some x ∧ row[t + 1]? = some y

theorem slice_range {n a b : Nat} (hb : b ≤ n) : slice (range n) a b = range' a (b - a) := by
  apply ext_getElem?
  intro j
  by_cases hj : j < b - a
  · rw [slice, getElem?_take_of_lt hj, getElem?_drop, getElem?_range (by omega),
      getElem?_range' hj, one_mul]
  · rw [slice, getElem?_eq_none (by simp; omega), getElem?_eq_none (by simpa using hj)]

theorem extractSample_zero {n : Nat} (ps pv : Nat) {start rv : Nat} (hn : start + rv ≤ n) :
    extractSample (range n) 0 ps pv start rv = range' start rv := by
  have hslice : sliceInt (range n) start ((start : Int) + rv) = range' start rv := by
    have hcast := sliceInt_natCast (l := range n) (a := start) (b := start + rv) (by simpa using hn)
    rw [slice_range hn, Nat.add_sub_cancel_left] at hcast
    exact_mod_cast hcast
  simpa [extractSample] using hslice

/-- The logits of a sample: the last token of its prompt, and its response without the last. -/
theorem extractSample_neg {n : Nat} (ps pv : Nat) {s rv : Nat} (hn : ps + pv + s + rv ≤ n)
    (hstart : 0 < ps + pv + s + rv) :
    extractSample (range n) (-1) ps pv (ps + pv + s) rv =
      range' (ps + pv - 1) (min pv 1) ++ range' (ps + pv + s) (rv - 1) := by
  have htokens : sliceInt (range n) ((ps + pv + s : Nat) : Int)
      (((ps + pv + s : Nat) : Int) + rv + -1) = range' (ps + pv + s) (rv - 1) := by
    have hcast := sliceInt_natCast (l := range n) (a := ps + pv + s)
      (b := ps + pv + s + rv - 1) (by simp; omega)
    rw [slice_range (by omega)] at hcast
    rw [show (((ps + pv + s : Nat) : Int) + rv + -1) = ((ps + pv + s + rv - 1 : Nat) : Int) by omega,
      hcast]
    congr 1
    omega
  rcases Nat.eq_zero_or_pos pv with rfl | hpv
  · simpa [extractSample] using htokens
  · have hsuffix : sliceInt (range n) ((ps : Int) + pv + -1) ((ps : Int) + pv) =
        range' (ps + pv - 1) 1 := by
      have hcast := sliceInt_natCast (l := range n) (a := ps + pv - 1) (b := ps + pv)
        (by simp; omega)
      rw [slice_range (by omega)] at hcast
      rw [show ((ps : Int) + pv + -1) = ((ps + pv - 1 : Nat) : Int) by omega,
        show ((ps : Int) + pv) = ((ps + pv : Nat) : Int) by omega, hcast]
      congr 1
      omega
    have hmin : min pv 1 = 1 := by omega
    push_cast at htokens
    simp only [extractSample, Nat.cast_add, hsuffix, hmin, hpv]
    simpa using htokens

theorem extractSample_start (n : Nat) : extractSample (range n) (-1) 0 0 0 0 = range (n - 1) := by
  have hstop : (-1 + (n : Int)).toNat = n - 1 := by omega
  simp [extractSample, sliceInt, clip, hstop, take_range]

/-- A sample is aligned exactly where it has a prompt token and a response token, or neither. -/
theorem sampleAligned_iff {n L P s R : Nat} (hn : L + P + s + R ≤ n) :
    SampleAligned (range' L P ++ range' (L + P + s) R)
        (extractSample (range n) (-1) L P (L + P + s) R)
        (extractSample (range n) 0 L P (L + P + s) R) R ↔
      (0 < P ∧ 0 < R) ∨ (P = 0 ∧ R = 0 ∧ (0 < L + s ∨ n ≤ 1)) := by
  rw [extractSample_zero L P hn]
  by_cases hstart : 0 < L + P + s + R
  · rw [extractSample_neg L P hn hstart]
    constructor
    · rintro ⟨hlength, -, -⟩
      simp only [length_append, length_range'] at hlength
      omega
    · intro hboth
      constructor
      · simp only [length_append, length_range']
        omega
      · simp
      · intro j hj
        have hP : 0 < P := by omega
        have hmin : min P 1 = 1 := by omega
        rw [hmin]
        refine ⟨P - 1 + j, if j = 0 then L + P - 1 else L + P + s + (j - 1), L + P + s + j,
          ?_, ?_, ?_, ?_⟩
        · cases j with
          | zero => simp
          | succ j =>
            rw [getElem?_append_right (by simp), getElem?_range' (by simp; omega)]
            simp
        · simp [hj]
        · cases j with
          | zero =>
            rw [getElem?_append_left (by simp; omega), getElem?_range' (by omega)]
            simp
            omega
          | succ j =>
            rw [getElem?_append_right (by simp; omega), getElem?_range' (by simp; omega)]
            simp
            omega
        · rw [getElem?_append_right (by simp; omega), getElem?_range' (by simp; omega)]
          simp
          omega
  · obtain ⟨rfl, rfl, rfl, rfl⟩ : L = 0 ∧ P = 0 ∧ s = 0 ∧ R = 0 := by omega
    rw [extractSample_start]
    constructor
    · rintro ⟨hlength, -, -⟩
      simp only [length_range] at hlength
      omega
    · intro hboth
      refine ⟨?_, rfl, ?_⟩
      · simp only [length_range]
        omega
      · intro j hj
        exact absurd hj (Nat.not_lt_zero j)

/-! ## Any tensor -/

section Tensors

variable {α β : Type} (f : α → β) (packed : List α) (segments : List PackedSegment) (offset : Int)

theorem sliceInt_map (a b : Int) : sliceInt (packed.map f) a b = (sliceInt packed a b).map f := by
  simp [sliceInt, map_take, map_drop]

theorem extractSample_map (ps pv pos rv : Nat) :
    extractSample (packed.map f) offset ps pv pos rv =
      (extractSample packed offset ps pv pos rv).map f := by
  simp only [extractSample, sliceInt_map]
  by_cases hsuffix : offset < 0 ∧ 0 < pv
  · simp only [if_pos hsuffix, length_map]
    split_ifs <;> simp
  · simp only [if_neg hsuffix]

theorem extractGroup_map (g ps pv pos : Nat) (group : List Nat) :
    extractGroup (packed.map f) segments offset g ps pv pos group =
      ((extractGroup packed segments offset g ps pv pos group).1.map (map f),
        (extractGroup packed segments offset g ps pv pos group).2) := by
  induction group generalizing pos with
  | nil => rfl
  | cons i rest ih =>
    cases hseg : sampleResponse segments g i with
    | none => simp only [extractGroup, hseg, ih]
    | some seg => simp only [extractGroup, hseg, ih, extractSample_map, map_cons]

theorem extractSegments_map (g pos : Nat) (groups : List (List Nat)) :
    extractSegments (packed.map f) segments offset g pos groups =
      (extractSegments packed segments offset g pos groups).map (map f) := by
  induction groups generalizing g pos with
  | nil => rfl
  | cons group groups ih =>
    simp only [extractSegments, extractGroup_map, ih, map_append]

theorem extractUnpaddedResponses_map (info : PackedInfo) :
    extractUnpaddedResponses (packed.map f) info offset =
      (extractUnpaddedResponses packed info offset).map (map f) := by
  simp only [extractUnpaddedResponses, extractSegments_map, map_eq_nil_iff]
  split_ifs with hnil
  · rfl
  · rw [map_some, map_flatten]

end Tensors

/-! ## Batches -/

/-- The row of a sample as `_reconstruct_sequences_packed` joins it. -/
def reconstructedRow {α : Type} (dedup : List α) (info : PackedInfo) (i : Nat) :
    Option (List α) := do
  let positions ← dedupPositions info
  let g ← sampleToGroup info.promptGroups i
  let pos ← positions.lookup g
  let response ← pos.responses.lookup i
  some (slice dedup pos.prompt.1 pos.prompt.2 ++ slice dedup response.1 response.2)

/-- The logits and the labels of every sample go together; a position of the dedup tensor stands for
the token there. -/
def ResponsesAligned (info : PackedInfo) (total : Nat) (numValid : Nat → Nat) : Prop :=
  ∀ k i : Nat, info.promptGroups.flatten[k]? = some i → ∃ row logits labels,
    reconstructedRow (range total) info i = some row ∧
    (extractSegments (range total) info.segmentInfo (-1) 0 0 info.promptGroups)[k]? = some logits ∧
    (extractSegments (range total) info.segmentInfo 0 0 0 info.promptGroups)[k]? = some labels ∧
    SampleAligned row logits labels (numValid i)

/-- Every sample has prompt tokens and response tokens, or neither, behind other tokens. -/
def Extractable (p r : Nat → Nat) (groups : List (List Nat)) : Prop :=
  ∀ earlier before i after later, groups = earlier ++ (before ++ i :: after) :: later →
    (0 < p ((before ++ i :: after).headD 0) ∧ 0 < r i) ∨
      (p ((before ++ i :: after).headD 0) = 0 ∧ r i = 0 ∧
        (0 < layoutLength p r earlier + (before.map r).sum ∨ layoutLength p r groups ≤ 1))

theorem exists_split_flatten {groups : List (List Nat)} {k i : Nat}
    (hk : groups.flatten[k]? = some i) :
    ∃ earlier before after later, groups = earlier ++ (before ++ i :: after) :: later ∧
      k = earlier.flatten.length + before.length := by
  induction groups generalizing k with
  | nil => simp at hk
  | cons group groups ih =>
    by_cases hlt : k < group.length
    · rw [flatten_cons, getElem?_append_left hlt] at hk
      refine ⟨[], group.take k, group.drop (k + 1), groups, ?_, ?_⟩
      · obtain ⟨h, hi⟩ := List.getElem?_eq_some_iff.mp hk
        rw [← hi, nil_append, getElem_cons_drop, take_append_drop]
      · rw [length_take]
        simp
        omega
    · rw [flatten_cons, getElem?_append_right (by omega)] at hk
      obtain ⟨earlier, before, after, later, rfl, hpos⟩ := ih hk
      refine ⟨group :: earlier, before, after, later, rfl, ?_⟩
      rw [flatten_cons, length_append]
      omega

section Batches

variable {ι : Type} [DecidableEq ι] {b : Batch ι}

variable {ids : List ι} {info : PackedInfo}

theorem createDeduplicatedBatch_some (h : createDeduplicatedBatch b = some (ids, info)) :
    GroupsOK b.prompt b.size info.promptGroups ∧ 0 < b.size ∧
      info.segmentInfo = packedSegments b.promptLen b.responseLength (validPrompt b)
        (validResponse b) 0 0 info.promptGroups ∧
      ids.length = layoutLength (validPrompt b) (validResponse b) info.promptGroups := by
  simp only [createDeduplicatedBatch, bind_eq_bind, bind_eq_some_iff] at h
  obtain ⟨⟨groups, unique⟩, hfind, hunpad⟩ := h
  obtain ⟨hgroups, hsize⟩ := findPromptGroups_ok hfind
  simp only [unpadDeduplicatedBatch, bind_eq_bind, bind_eq_some_iff, some.injEq,
    Prod.mk.injEq] at hunpad
  obtain ⟨maxSeqlen, -, hids, rfl⟩ := hunpad
  refine ⟨hgroups, hsize, map_packSegment_dedup hgroups rfl, ?_⟩
  rw [← hids]
  exact (congrArg List.length (unpad_dedupInputIds hgroups rfl)).trans
    (length_layout (blocks_dedup hgroups))

omit [DecidableEq ι] in
theorem reconstructedRow_range {p r : Nat → Nat} {n i : Nat} {earlier later : List (List Nat)}
    {before after : List Nat}
    (hpositions : dedupPositions info = some (layoutPositions p r 0 0 info.promptGroups))
    (hgroups : info.promptGroups = earlier ++ (before ++ i :: after) :: later)
    (hnodup : info.promptGroups.flatten.Nodup)
    (hn : layoutLength p r earlier + p ((before ++ i :: after).headD 0) + (before.map r).sum + r i ≤ n) :
    reconstructedRow (range n) info i = some
      (range' (layoutLength p r earlier) (p ((before ++ i :: after).headD 0)) ++
        range' (layoutLength p r earlier + p ((before ++ i :: after).headD 0) +
          (before.map r).sum) (r i)) := by
  have hgroup : info.promptGroups[earlier.length]? = some (before ++ i :: after) := by
    rw [hgroups]
    simp
  have hnot : i ∉ before := by
    have hgroup' := (nodup_flatten.mp hnodup).1 _ (mem_of_getElem? hgroup)
    rw [nodup_append] at hgroup'
    exact fun hi => hgroup'.2.2 i hi i mem_cons_self rfl
  have hlookup := lookup_layoutPositions_append (p := p) (r := r) earlier later
    (before ++ i :: after) 0 0
  rw [← hgroups] at hlookup
  simp only [zero_add] at hlookup
  rw [reconstructedRow, hpositions, sampleToGroup_eq hnodup hgroup (by simp)]
  simp only [bind_eq_bind, bind_some, hlookup, lookup_layoutResponses_append hnot]
  rw [slice_range (by omega), slice_range (by omega), Nat.add_sub_cancel_left,
    Nat.add_sub_cancel_left]

omit [DecidableEq ι] in
theorem find_segments (hgroups : GroupsOK b.prompt b.size info.promptGroups)
    (hsegments : info.segmentInfo = packedSegments b.promptLen b.responseLength (validPrompt b)
      (validResponse b) 0 0 info.promptGroups) {j : Nat} {group : List Nat}
    (hj : info.promptGroups[j]? = some group) :
    (∃ seg, groupPrompt info.segmentInfo (0 + j) = some seg ∧
        seg.numValidTokens = validPrompt b (group.headD 0)) ∧
      ∀ i ∈ group, ∃ seg, sampleResponse info.segmentInfo (0 + j) i = some seg ∧
        seg.numValidTokens = validResponse b i := by
  rw [hsegments]
  refine ⟨groupPrompt_packed 0 0 hgroups.nonempty hj, ?_⟩
  intro i hi
  obtain ⟨pos, hresponses⟩ := groupResponses_packed b.promptLen b.responseLength (validPrompt b)
    (validResponse b) 0 0 hj
  rw [sampleResponse, hresponses]
  exact find?_packedResponses hi (Perm.refl _)

/-- The logits and the labels go together exactly where no sample lacks only its prompt or only its
response, and nothing is taken from the front of the tensor for a sample without either. -/
theorem responsesAligned_iff (h : createDeduplicatedBatch b = some (ids, info)) :
    ResponsesAligned info ids.length (validResponse b) ↔
      Extractable (validPrompt b) (validResponse b) info.promptGroups := by
  obtain ⟨hgroups, -, hsegments, hlength⟩ := createDeduplicatedBatch_some h
  have hpositions := dedupPositions_packed hsegments hgroups.nonempty hgroups.sorted
  -- one sample of the batch, in terms of the counts before it
  have hsample : ∀ earlier before i after later,
      info.promptGroups = earlier ++ (before ++ i :: after) :: later →
      ((∃ row logits labels, reconstructedRow (range ids.length) info i = some row ∧
        (extractSegments (range ids.length) info.segmentInfo (-1) 0 0
          info.promptGroups)[earlier.flatten.length + before.length]? = some logits ∧
        (extractSegments (range ids.length) info.segmentInfo 0 0 0
          info.promptGroups)[earlier.flatten.length + before.length]? = some labels ∧
        SampleAligned row logits labels (validResponse b i)) ↔
      (0 < validPrompt b ((before ++ i :: after).headD 0) ∧ 0 < validResponse b i) ∨
        (validPrompt b ((before ++ i :: after).headD 0) = 0 ∧ validResponse b i = 0 ∧
          (0 < layoutLength (validPrompt b) (validResponse b) earlier +
            (before.map (validResponse b)).sum ∨
            layoutLength (validPrompt b) (validResponse b) info.promptGroups ≤ 1))) := by
    intro earlier before i after later hsplit
    have hbound : layoutLength (validPrompt b) (validResponse b) earlier +
        validPrompt b ((before ++ i :: after).headD 0) + (before.map (validResponse b)).sum +
        validResponse b i ≤ ids.length := by
      rw [hlength, hsplit, layoutLength_append, layoutLength_cons, map_append, sum_append,
        map_cons, sum_cons]
      omega
    have hrow := reconstructedRow_range hpositions hsplit hgroups.nodup hbound
    have hfind := fun j group (hj : info.promptGroups[j]? = some group) =>
      find_segments hgroups hsegments hj
    rw [hsplit] at hfind
    have htaken := fun offset => extractSegments_getElem? (range ids.length) offset hfind 0
    simp only [zero_add, ← hsplit] at htaken
    have haligned := sampleAligned_iff hbound
    rw [hlength] at haligned
    simp only [hrow, htaken, some.injEq, exists_eq_left', exists_and_left]
    rw [hlength]
    exact haligned
  constructor
  · intro haligned earlier before i after later hsplit
    apply (hsample earlier before i after later hsplit).mp
    apply haligned
    rw [hsplit]
    simp
  · intro hextractable k i hk
    obtain ⟨earlier, before, after, later, hsplit, rfl⟩ := exists_split_flatten hk
    apply (hsample earlier before i after later hsplit).mpr
    exact hextractable earlier before i after later hsplit

theorem extractUnpaddedResponses_eq (h : createDeduplicatedBatch b = some (ids, info)) {α : Type}
    (default : α) {packed : List α} (hpacked : packed.length = ids.length) (offset : Int) :
    extractUnpaddedResponses packed info offset = some
      ((extractSegments (range ids.length) info.segmentInfo offset 0 0
        info.promptGroups).flatten.map fun t => packed.getD t default) := by
  obtain ⟨hgroups, hsize, hsegments, -⟩ := createDeduplicatedBatch_some h
  have hgather : packed = (range ids.length).map fun t => packed.getD t default := by
    apply ext_getElem?
    intro t
    by_cases ht : t < ids.length <;> simp [ht, hpacked, getD_eq_getElem?_getD]
  have hne : extractSegments (range ids.length) info.segmentInfo offset 0 0
      info.promptGroups ≠ [] := by
    obtain ⟨k, hk⟩ := getElem?_of_mem ((hgroups.mem 0).mpr hsize)
    obtain ⟨earlier, before, after, later, hsplit, -⟩ := exists_split_flatten hk
    have hfind := fun j group (hj : info.promptGroups[j]? = some group) =>
      find_segments hgroups hsegments hj
    rw [hsplit] at hfind ⊢
    have htaken := extractSegments_getElem? (range ids.length) offset hfind 0
    exact ne_nil_of_mem (mem_of_getElem? htaken)
  conv_lhs => rw [hgather, extractUnpaddedResponses_map]
  rw [extractUnpaddedResponses, if_neg hne, map_some]

/-- The logits and the labels that are taken for a sample go together exactly where every sample has
prompt tokens and response tokens, or neither, behind other tokens. -/
theorem responses_aligned_iff {ids : List ι} {info : PackedInfo}
    (h : createDeduplicatedBatch b = some (ids, info)) :
    (∀ (α : Type) (default : α) (packed : List α) (offset : Int), packed.length = ids.length →
      extractUnpaddedResponses packed info offset = some
        ((extractSegments (range ids.length) info.segmentInfo offset 0 0
          info.promptGroups).flatten.map fun t => packed.getD t default)) ∧
      (ResponsesAligned info ids.length (validResponse b) ↔
        Extractable (validPrompt b) (validResponse b) info.promptGroups) := by
  constructor
  · intro α default packed offset hpacked
    exact extractUnpaddedResponses_eq h default hpacked offset
  · exact responsesAligned_iff h

end Batches

/-- Two samples that share a prompt. -/
def sharedPromptBatch : Batch Nat where
  promptLen := 2
  responseLength := 2
  inputIds := [[7, 8, 9, 0], [7, 8, 5, 6]]
  attentionMask := [[true, true, true, false], [true, true, true, true]]
  ids_length := by decide
  mask_length := by decide
  mask_rows := rfl

/-- Both samples take the end of the shared prompt as their first logit. -/
theorem responses_aligned_iff_shared :
    ∃ ids info, createDeduplicatedBatch sharedPromptBatch = some (ids, info) ∧
      extractUnpaddedResponses ids info (-1) = some [8, 8, 5] ∧
      extractUnpaddedResponses ids info 0 = some [9, 5, 6] ∧
      ResponsesAligned info ids.length (validResponse sharedPromptBatch) := by
  refine ⟨_, _, rfl, rfl, rfl, ?_⟩
  refine (responses_aligned_iff (b := sharedPromptBatch) rfl).2.mpr ?_
  intro earlier before i after later hsplit
  left
  have hmem : ∀ j ∈ before ++ i :: after, j < 2 := by
    intro j hj
    have hgroup : before ++ i :: after ∈ [[0, 1]] := by
      have hself : before ++ i :: after ∈ earlier ++ (before ++ i :: after) :: later := by simp
      rwa [← hsplit] at hself
    rw [mem_singleton.mp hgroup] at hj
    simp only [mem_cons, not_mem_nil, or_false] at hj
    omega
  have hvalid : ∀ j < 2, 0 < validPrompt sharedPromptBatch j ∧ 0 < validResponse sharedPromptBatch j := by
    decide
  exact ⟨(hvalid _ (hmem _ (headD_mem (by simp)))).1, (hvalid i (hmem i (by simp))).2⟩

/-- Two samples that share a prompt; the first has no valid response token. -/
def emptyResponseBatch : Batch Nat where
  promptLen := 2
  responseLength := 2
  inputIds := [[7, 8, 0, 0], [7, 8, 5, 6]]
  attentionMask := [[true, true, false, false], [true, true, true, true]]
  ids_length := by decide
  mask_length := by decide
  mask_rows := rfl

/-- For the sample without a response token one logit is taken, and no label. -/
theorem responses_misaligned :
    ∃ ids info, createDeduplicatedBatch emptyResponseBatch = some (ids, info) ∧
      extractUnpaddedResponses ids info (-1) = some [8, 8, 5] ∧
      extractUnpaddedResponses ids info 0 = some [5, 6] ∧
      ¬ ResponsesAligned info ids.length (validResponse emptyResponseBatch) := by
  refine ⟨_, _, rfl, rfl, rfl, ?_⟩
  intro haligned
  obtain ⟨row, logits, labels, -, hlogits, -, hsample⟩ := haligned 0 0 rfl
  have hlength := hsample.logits_length
  rw [← some.inj hlogits] at hlength
  exact absurd hlength (by decide)

end ArcticPlatform.ZorroTrain
