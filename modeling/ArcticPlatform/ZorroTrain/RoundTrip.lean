import ArcticPlatform.ZorroTrain.Packing

/-!
# ZoRRoTrain: reconstruction and deduplication are inverse

Reconstruction cuts the blocks of a dedup layout and joins, in batch order, the
prompt block and the response block of every sample.  Deduplication fills a zero
tensor block by block; the invariant of its loops is that the groups and the
samples already visited have their blocks in place and the rest is still zero.

Main results:

- Theorem `reconstruct_layout`: reconstruction of a tensor with the layout.
- Theorem `deduplicate_rows`: deduplication of the rows gives the layout back.
- Theorem `reconstruct_deduplicate_roundtrip`: both for the batch that is
  built from padded rows.
-/

namespace ArcticPlatform.ZorroTrain

open Slices List
open Option hiding map_map

/-! ## The group of a sample -/

/-- Number of the group of a sample. -/
def groupOf (groups : List (List Nat)) (i : Nat) : Nat :=
  (sampleToGroup groups i).getD 0

variable {groups : List (List Nat)}

theorem group_unique (hnodup : groups.flatten.Nodup) {i m m' : Nat} {g g' : List Nat}
    (hm : groups[m]? = some g) (hi : i ∈ g) (hm' : groups[m']? = some g') (hi' : i ∈ g') :
    m = m' := by
  have hdisjoint := (nodup_flatten.mp hnodup).2
  rw [pairwise_iff_getElem] at hdisjoint
  obtain ⟨hlt, rfl⟩ := List.getElem?_eq_some_iff.mp hm
  obtain ⟨hlt', rfl⟩ := List.getElem?_eq_some_iff.mp hm'
  rcases lt_trichotomy m m' with h | h | h
  · exact absurd hi' (hdisjoint m m' hlt hlt' h hi)
  · exact h
  · exact absurd hi (hdisjoint m' m hlt' hlt h hi')

theorem sampleToGroup_eq (hnodup : groups.flatten.Nodup) {i m : Nat} {group : List Nat}
    (hm : groups[m]? = some group) (hi : i ∈ group) : sampleToGroup groups i = some m := by
  have hmem : (group, m) ∈ groups.zipIdx.reverse := by
    rw [mem_reverse, mem_zipIdx_iff_getElem?]
    exact hm
  have hsome : (groups.zipIdx.reverse.find? fun e => i ∈ e.1).isSome := by
    rw [find?_isSome]
    exact ⟨_, hmem, by simpa using hi⟩
  obtain ⟨e, he⟩ := isSome_iff_exists.mp hsome
  have hi' : i ∈ e.1 := by simpa using find?_some he
  have hm' : groups[e.2]? = some e.1 := by
    rw [← mem_zipIdx_iff_getElem?]
    exact mem_reverse.mp (mem_of_find?_eq_some he)
  rw [sampleToGroup, he, map_some, group_unique hnodup hm' hi' hm hi]

theorem groupOf_eq (hnodup : groups.flatten.Nodup) {i m : Nat} {group : List Nat}
    (hm : groups[m]? = some group) (hi : i ∈ group) : groupOf groups i = m := by
  rw [groupOf, sampleToGroup_eq hnodup hm hi, getD_some]

/-! ## Explicit positions -/

section Positions

variable {p r : Nat → Nat}

theorem lookup_layoutResponses_append {done rest : List Nat} {i pos : Nat} (hi : i ∉ done) :
    (layoutResponses r pos (done ++ i :: rest)).lookup i =
      some (pos + (done.map r).sum, pos + (done.map r).sum + r i) := by
  induction done generalizing pos with
  | nil => exact lookup_cons_self _ _ _
  | cons j done ih =>
    rw [mem_cons, not_or] at hi
    rw [cons_append, layoutResponses, lookup_cons_ne hi.1, ih hi.2, map_cons, sum_cons, add_assoc]

theorem lookup_layoutPositions_append (done rest : List (List Nat)) (group : List Nat)
    (k pos : Nat) :
    (layoutPositions p r k pos (done ++ group :: rest)).lookup (k + done.length) =
      some ⟨(pos + layoutLength p r done, pos + layoutLength p r done + p (group.headD 0)),
        layoutResponses r (pos + layoutLength p r done + p (group.headD 0)) group⟩ := by
  induction done generalizing k pos with
  | nil => exact lookup_cons_self _ _ _
  | cons g done ih =>
    have hne : k + (g :: done).length ≠ k := by simp
    have hnext : k + (g :: done).length = k + 1 + done.length := by
      rw [length_cons]
      omega
    have hlen := layoutLength_cons (p := p) (r := r) g done
    have hpos : pos + p (g.headD 0) + (g.map r).sum + layoutLength p r done =
        pos + layoutLength p r (g :: done) := by omega
    rw [cons_append, layoutPositions, lookup_cons_ne hne, hnext, ih, hpos]

theorem layout_append {α : Type} {P R : Nat → List α} {k : Nat} (a b : List (List Nat)) :
    layout P R k (a ++ b) = layout P R k a ++ layout P R (k + a.length) b := by
  induction a generalizing k with
  | nil => rfl
  | cons g a ih =>
    have hnext : k + (g :: a).length = k + 1 + a.length := by
      rw [length_cons]
      omega
    rw [cons_append, layout, layout, ih, hnext, ← append_assoc]

theorem layoutLength_append (a b : List (List Nat)) :
    layoutLength p r (a ++ b) = layoutLength p r a + layoutLength p r b := by
  simp [layoutLength]

theorem Blocks.take {α : Type} {P R : Nat → List α} {k : Nat} {a b : List (List Nat)}
    (h : Blocks p r P R k (a ++ b)) : Blocks p r P R k a := by
  refine ⟨fun m g hm => h.prompt m g ?_, fun i hi => h.response i ?_⟩
  · rw [getElem?_append_left (List.getElem?_eq_some_iff.mp hm).1, hm]
  · rw [flatten_append]
    exact mem_append_left _ hi

end Positions

/-! ## Reconstruction -/

section RoundTrip

variable {α ι : Type} {prompts : Nat → List ι} {groups : List (List Nat)} {n : Nat}
  {p r : Nat → Nat} {info : PackedInfo} {P R : Nat → List α}

/-- The rows of a batch in batch order, every prompt block repeated for its samples. -/
def rows (groups : List (List Nat)) (n : Nat) (P R : Nat → List α) : List (List α) :=
  (List.range n).map fun i => P (groupOf groups i) ++ R i

/-- Reconstruction of a tensor with the dedup layout. -/
theorem reconstruct_layout (hgroups : GroupsOK prompts n groups) (hinfo : InfoOK info groups n p r)
    (hB : Blocks p r P R 0 groups) :
    reconstructSequencesPacked (layout P R 0 groups) info = some (rows groups n P R).flatten := by
  have hrow : ∀ i ∈ List.range n, (do
      let g ← sampleToGroup info.promptGroups i
      let pos ← (layoutPositions p r 0 0 groups).lookup g
      let response ← pos.responses.lookup i
      some (slice (layout P R 0 groups) pos.prompt.1 pos.prompt.2 ++
        slice (layout P R 0 groups) response.1 response.2)) =
      some (P (groupOf groups i) ++ R i) := by
    intro i hi
    obtain ⟨group, hgroup, higroup⟩ := mem_flatten.mp ((hgroups.mem i).mpr (mem_range.mp hi))
    obtain ⟨m, hm⟩ := mem_iff_getElem?.mp hgroup
    obtain ⟨positions, hlook, hprompt, hresponse⟩ :=
      lookup_layoutPositions hgroups.nodup hB (A := []) (C := []) rfl hm
    obtain ⟨range, hrange, hslice⟩ := hresponse i higroup
    simp only [nil_append, append_nil, length_nil, zero_add]
      at hlook hprompt hslice
    simp only [hinfo.promptGroups, sampleToGroup_eq hgroups.nodup hm higroup,
      groupOf_eq hgroups.nodup hm higroup, hlook, hrange, hprompt, hslice, bind_eq_bind, bind_some]
  unfold reconstructSequencesPacked
  rw [hinfo.positions, hinfo.batchSize]
  simp only [bind_eq_bind, bind_some] at hrow ⊢
  rw [Results.mapM_eq_some_map hrow]
  rfl

/-! ## Deduplication -/

section

variable (hgroups : GroupsOK prompts n groups)
include hgroups

section

variable (hinfo : InfoOK info groups n p r)
include hinfo

section

variable (hB : Blocks p r P R 0 groups)
include hB

theorem sampleTokens_rows
    (hshared : ∀ group ∈ groups, ∀ i ∈ group, p i = p (group.headD 0)) {i m : Nat}
    {group : List Nat} (hm : groups[m]? = some group) (hi : i ∈ group) :
    sampleTokens (rows groups n P R).flatten info i = some (P m ++ R i) := by
  have hlengths : (rows groups n P R).map List.length = (List.range n).map fun i => p i + r i := by
    rw [rows, map_map]
    apply map_congr_left
    intro j hj
    have hjmem : j ∈ groups.flatten := (hgroups.mem j).mpr (mem_range.mp hj)
    obtain ⟨g, hg, hjg⟩ := mem_flatten.mp hjmem
    obtain ⟨m', hm'⟩ := mem_iff_getElem?.mp hg
    have hprompt := hB.prompt m' g hm'
    rw [zero_add] at hprompt
    rw [Function.comp_apply, length_append, groupOf_eq hgroups.nodup hm' hjg, hprompt,
      hB.response j hjmem, hshared g hg j hjg]
  have hin : i < n := (hgroups.mem i).mp (mem_flatten.mpr ⟨group, mem_of_getElem? hm, hi⟩)
  have hrow : (rows groups n P R)[i]? = some (P m ++ R i) := by
    rw [rows, getElem?_map, getElem?_range hin, map_some, groupOf_eq hgroups.nodup hm hi]
  have hslice := slice_flatten hrow
  rw [hlengths] at hslice
  unfold sampleTokens
  rw [hinfo.cuSeqlens, cumulative_getElem? (by simpa using hin.le),
    cumulative_getElem? (by simpa using hin)]
  simp only [bind_eq_bind, bind_some, hslice]

/-- The loop over the samples of a group: the responses of `done` are placed, the next ones fill
`Z`. -/
theorem placeResponses (hshared : ∀ group ∈ groups, ∀ i ∈ group, p i = p (group.headD 0)) {m : Nat}
    {group : List Nat} (hm : groups[m]? = some group) (pos : GroupPositions) {A C : List α}
    (hpos : pos.responses = layoutResponses r A.length group) :
    ∀ (rest done : List Nat) (Z : List α), group = done ++ rest → Z.length = (rest.map r).sum →
      rest.foldlM (placeResponse (rows groups n P R).flatten info pos)
        (A ++ done.flatMap R ++ Z ++ C) = some (A ++ group.flatMap R ++ C) := by
  intro rest
  have hmem : ∀ i ∈ group, i ∈ groups.flatten := fun i hi =>
    mem_flatten.mpr ⟨group, mem_of_getElem? hm, hi⟩
  induction rest with
  | nil =>
    intro done Z hsplit hZ
    obtain rfl : Z = [] := by simpa using hZ
    rw [append_nil] at hsplit
    subst hsplit
    simp
  | cons i rest ih =>
    intro done Z hsplit hZ
    rw [map_cons, sum_cons] at hZ
    have hi : i ∈ group := by rw [hsplit]; simp
    have hin : i < n := (hgroups.mem i).mp (hmem i hi)
    have hnotdone : i ∉ done := by
      have hnodup := (nodup_flatten.mp hgroups.nodup).1 group (mem_of_getElem? hm)
      rw [hsplit, nodup_append] at hnodup
      exact fun hdone => hnodup.2.2 i hdone i mem_cons_self rfl
    have hdone : (done.flatMap R).length = (done.map r).sum := by
      refine length_flatMap_eq fun j hj => hB.response j (hmem j ?_)
      rw [hsplit]
      exact mem_append_left _ hj
    have hR : (R i).length = r i := hB.response i (hmem i hi)
    have hP : (P m).length = p i := by
      have := hB.prompt m group hm
      rw [zero_add] at this
      rw [this, hshared group (mem_of_getElem? hm) i hi]
    have hstep : placeResponse (rows groups n P R).flatten info pos
        (A ++ done.flatMap R ++ Z ++ C) i =
        some (A ++ (done ++ [i]).flatMap R ++ Z.drop (r i) ++ C) := by
      have hlook : pos.responses.lookup i = some (A.length + (done.map r).sum,
          A.length + (done.map r).sum + r i) := by
        rw [hpos, hsplit]
        exact lookup_layoutResponses_append hnotdone
      have hbuffer : A ++ done.flatMap R ++ Z ++ C =
          (A ++ done.flatMap R) ++ Z.take (r i) ++ (Z.drop (r i) ++ C) := by
        conv_lhs => rw [← take_append_drop (r i) Z]
        simp only [append_assoc]
      have htake : (Z.take (r i)).length = r i := by
        rw [length_take]
        omega
      unfold placeResponse
      rw [sampleTokens_rows hgroups hinfo hB hshared hm hi, hlook]
      simp only [bind_eq_bind, bind_some, hinfo.valid i hin, ← hP, drop_left]
      rw [hbuffer, assign_append (by rw [length_append, hdone]) (by rw [htake])
        (by rw [htake, hR])]
      simp only [flatMap_append, flatMap_cons, flatMap_nil, append_nil, append_assoc]
    rw [foldlM_cons, hstep]
    refine ih (done ++ [i]) (Z.drop (r i)) (by rw [hsplit]; simp) ?_
    rw [length_drop]
    omega

/-- The loop over the groups: the blocks of `done` are placed, the next groups fill `Z`. -/
theorem placeGroups (hshared : ∀ group ∈ groups, ∀ i ∈ group, p i = p (group.headD 0)) :
    ∀ (rest done : List (List Nat)) (Z : List α), groups = done ++ rest →
      Z.length = layoutLength p r rest → (rest.zipIdx done.length).foldlM
        (placeGroup (rows groups n P R).flatten info (layoutPositions p r 0 0 groups))
        (layout P R 0 done ++ Z) = some (layout P R 0 groups) := by
  intro rest
  induction rest with
  | nil =>
    intro done Z hsplit hZ
    obtain rfl : Z = [] := by simpa [layoutLength] using hZ
    rw [append_nil] at hsplit
    subst hsplit
    simp
  | cons group rest ih =>
    intro done Z hsplit hZ
    have hm : groups[done.length]? = some group := by
      rw [hsplit]
      simp
    have hgroup : group ∈ groups := mem_of_getElem? hm
    have hheadmem : group.headD 0 ∈ group := headD_mem (hgroups.nonempty group hgroup)
    have hhead : group.head? = some (group.headD 0) := by
      cases group with
      | nil => simp at hheadmem
      | cons i rest => rfl
    have hin : group.headD 0 < n := (hgroups.mem _).mp (mem_flatten.mpr ⟨group, hgroup, hheadmem⟩)
    have hP : (P done.length).length = p (group.headD 0) := by
      have := hB.prompt done.length group hm
      rwa [zero_add] at this
    have hdone : (layout P R 0 done).length = layoutLength p r done := by
      apply length_layout
      rw [hsplit] at hB
      exact hB.take
    have hlen := layoutLength_cons (p := p) (r := r) group rest
    -- cut the zeros into the prompt, the responses of the group and the later groups
    set Z₁ := Z.take (p (group.headD 0)) with hZ₁
    set Z₂ := (Z.drop (p (group.headD 0))).take (group.map r).sum with hZ₂
    set Z₃ := (Z.drop (p (group.headD 0))).drop (group.map r).sum with hZ₃
    have hZsplit : Z = Z₁ ++ (Z₂ ++ Z₃) := by
      rw [hZ₁, hZ₂, hZ₃, take_append_drop, take_append_drop]
    have hZ₁len : Z₁.length = p (group.headD 0) := by
      rw [hZ₁, length_take]
      omega
    have hZ₂len : Z₂.length = (group.map r).sum := by
      rw [hZ₂, length_take, length_drop]
      omega
    have hZ₃len : Z₃.length = layoutLength p r rest := by
      rw [hZ₃, length_drop, length_drop]
      omega
    have hstep : placeGroup (rows groups n P R).flatten info (layoutPositions p r 0 0 groups)
        (layout P R 0 done ++ Z) (group, done.length) =
        some (layout P R 0 (done ++ [group]) ++ Z₃) := by
      have hlook : (layoutPositions p r 0 0 groups).lookup done.length =
          some ⟨(layoutLength p r done, layoutLength p r done + p (group.headD 0)),
            layoutResponses r (layoutLength p r done + p (group.headD 0)) group⟩ := by
        have := lookup_layoutPositions_append (p := p) (r := r) done rest group 0 0
        simp only [zero_add] at this
        rw [hsplit, this]
      have hprompt : assign (layout P R 0 done ++ Z) (layoutLength p r done)
          (layoutLength p r done + p (group.headD 0)) (P done.length) =
          some (layout P R 0 done ++ P done.length ++ (Z₂ ++ Z₃)) := by
        rw [hZsplit, ← append_assoc]
        exact assign_append hdone (by rw [hZ₁len]) (by rw [hZ₁len, hP])
      have hresponses := placeResponses hgroups hinfo hB hshared hm
        ⟨(layoutLength p r done, layoutLength p r done + p (group.headD 0)),
          layoutResponses r (layoutLength p r done + p (group.headD 0)) group⟩
        (C := Z₃) (A := layout P R 0 done ++ P done.length)
        (by rw [length_append, hdone, hP]) group [] Z₂ rfl hZ₂len
      rw [flatMap_nil, append_nil, append_assoc _ Z₂] at hresponses
      unfold placeGroup
      simp only [hlook, hhead, sampleTokens_rows hgroups hinfo hB hshared hm hheadmem,
        hinfo.valid _ hin, bind_eq_bind, bind_some]
      rw [← hP, take_left, hP, hprompt]
      simp only [bind_some]
      rw [hresponses, layout_append]
      simp only [layout, zero_add, append_nil, append_assoc]
    rw [zipIdx_cons, foldlM_cons, hstep]
    have hnext := ih (done ++ [group]) Z₃ (by rw [hsplit]; simp) hZ₃len
    rwa [length_append, length_singleton] at hnext

/-- Deduplication of the rows gives the layout back. -/
theorem deduplicate_rows [Zero α]
    (hshared : ∀ group ∈ groups, ∀ i ∈ group, p i = p (group.headD 0)) :
    deduplicateSequencesPacked (rows groups n P R).flatten info = some (layout P R 0 groups) := by
  have hloop := placeGroups hgroups hinfo hB hshared groups []
    (List.replicate (layoutLength p r groups) 0) rfl (length_replicate ..)
  unfold deduplicateSequencesPacked
  simp only [hinfo.positions, hinfo.promptGroups, hinfo.total, bind_eq_bind, bind_some]
  exact hloop

end

end

end

end RoundTrip

/-! ## Batches of padded rows -/

section Batches

variable {ι α : Type}

/-- The valid tokens of a row. -/
def validTokens (b : Batch ι) (i : Nat) : List ι :=
  unpad (b.inputIds.getD i []) (b.attentionMask.getD i [])

theorem validTokens_eq {b : Batch ι} {i : Nat} (hi : i < b.size) :
    validTokens b i = unpad (b.prompt i) (b.promptMask i) ++
      unpad (b.response i) (b.responseMask i) := by
  rw [← unpad_append (by rw [length_prompt hi, length_promptMask hi]), validTokens,
    Batch.prompt, Batch.response, Batch.promptMask, Batch.responseMask, take_append_drop,
    take_append_drop]

/-- Reconstruction gives every row's valid tokens in batch order, and deduplication of any
reconstructed tensor gives the tensor it came from. -/
theorem reconstruct_deduplicate_roundtrip [DecidableEq ι] [Zero α] {b : Batch ι}
    {groups : List (List Nat)} {unique : List (List ι)} (hfind : findPromptGroups b = some (groups, unique))
    (hmasks : SharedMasks b groups) :
    ∃ ids info, createDeduplicatedBatch b = some (ids, info) ∧ reconstructSequencesPacked ids info =
        some ((List.range b.size).flatMap (validTokens b)) ∧
      ∀ dedup : List α, dedup.length = ids.length →
        ∃ full, reconstructSequencesPacked dedup info = some full ∧
          deduplicateSequencesPacked full info = some dedup := by
  obtain ⟨hgroups, hsize⟩ := findPromptGroups_ok hfind
  obtain ⟨ids, mask, info, hdedup⟩ : ∃ ids mask info, dedupInputIds b groups = (ids, mask, info) :=
    ⟨_, _, _, rfl⟩
  obtain ⟨packed, hpacked, hinfo⟩ := unpadDeduplicatedBatch_ok hgroups hsize hmasks hdedup
  have hids := unpad_dedupInputIds hgroups hdedup
  set P : Nat → List ι := fun k => unpad (b.prompt ((groups.getD k []).headD 0))
    (b.promptMask ((groups.getD k []).headD 0)) with hP
  set R : Nat → List ι := fun i => unpad (b.response i) (b.responseMask i) with hR
  have hB : Blocks (validPrompt b) (validResponse b) P R 0 groups := blocks_dedup hgroups
  have hshared : ∀ group ∈ groups, ∀ i ∈ group,
      validPrompt b i = validPrompt b (group.headD 0) := by
    intro group hgroup i hi
    rw [validPrompt, validPrompt, hmasks group hgroup i hi]
  refine ⟨unpad ids mask, packed, ?_, ?_, ?_⟩
  · unfold createDeduplicatedBatch
    simp only [hfind, bind_eq_bind, bind_some, hdedup, hpacked]
  · rw [hids, reconstruct_layout hgroups hinfo hB, List.flatMap, rows]
    refine congrArg some (congrArg List.flatten (map_congr_left fun i hi => ?_))
    have hi' := mem_range.mp hi
    obtain ⟨group, hgroup, higroup⟩ := mem_flatten.mp ((hgroups.mem i).mpr hi')
    obtain ⟨m, hm⟩ := mem_iff_getElem?.mp hgroup
    rw [validTokens_eq hi', groupOf_eq hgroups.nodup hm higroup, hP, hR]
    simp only [getD_eq_getElem?_getD, hm, getD_some]
    rw [hgroups.same group hgroup i higroup, hmasks group hgroup i higroup]
  · intro dedup hlen
    rw [hids, length_layout hB] at hlen
    obtain ⟨P', R', hB', rfl⟩ := exists_blocks hgroups.nodup _ _ 0 hlen
    exact ⟨_, reconstruct_layout hgroups hinfo hB', deduplicate_rows hgroups hinfo hB' hshared⟩

end Batches

/-- Three rows with interleaved groups, padding on both sides and an empty response. -/
def sampleBatch : Batch Nat where
  promptLen := 2
  responseLength := 2
  inputIds := [[0, 7, 1, 2], [8, 9, 0, 0], [0, 7, 3, 0]]
  attentionMask := [[false, true, true, true], [true, true, false, false],
    [false, true, true, false]]
  ids_length := by decide
  mask_length := by decide
  mask_rows := rfl

theorem reconstruct_deduplicate_sample :
    findPromptGroups sampleBatch = some ([[0, 2], [1]], [[0, 7], [8, 9]]) ∧
      SharedMasks sampleBatch [[0, 2], [1]] ∧
      ∃ ids info, createDeduplicatedBatch sampleBatch = some (ids, info) ∧
        reconstructSequencesPacked ids info =
          some ((List.range sampleBatch.size).flatMap (validTokens sampleBatch)) ∧
        ∀ dedup : List Int, dedup.length = ids.length →
          ∃ full, reconstructSequencesPacked dedup info = some full ∧
            deduplicateSequencesPacked full info = some dedup := by
  have hfind : findPromptGroups sampleBatch = some ([[0, 2], [1]], [[0, 7], [8, 9]]) := by
    decide
  have hmasks : SharedMasks sampleBatch [[0, 2], [1]] := by
    unfold SharedMasks
    decide
  exact ⟨hfind, hmasks, reconstruct_deduplicate_roundtrip hfind hmasks⟩

end ArcticPlatform.ZorroTrain
