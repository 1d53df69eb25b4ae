import ArcticPlatform.ZorroTrain.Layout

/-!
# ZoRRoTrain: the info of an unpadded batch

After deduplication and unpadding, `reconstruction_info` describes the dedup
layout whose blocks have as many tokens as the masks have set entries.

Main results:

- Theorem `unpadDeduplicatedBatch_ok`: the positions, the number of tokens
  and the boundaries of the samples that the info gives are those of the layout.
- Theorem `unpad_concatenated`: the unpadded tensor of a batch has the layout,
  with the valid tokens of every region as its blocks.
-/

namespace ArcticPlatform.ZorroTrain

open Slices List

/-- The info describes the dedup layout of the groups of `n` samples. -/
structure InfoOK (info : PackedInfo) (groups : List (List Nat)) (n : Nat) (p r : Nat → Nat) :
    Prop where
  promptGroups : info.promptGroups = groups
  batchSize : info.originalBatchSize = n
  positions : dedupPositions info = some (layoutPositions p r 0 0 groups)
  total : totalDedupTokens info.segmentInfo = layoutLength p r groups
  cuSeqlens : info.cuSeqlensPacked = cumulative ((range n).map fun i => p i + r i)
  valid : ∀ i, i < n → numValidPrompt info i = p i

/-! ## Unpadding -/

section Unpad

variable {α : Type}

theorem unpad_append {t t' : List α} {m m' : List Bool} (h : t.length = m.length) :
    unpad (t ++ t') (m ++ m') = unpad t m ++ unpad t' m' := by
  simp [unpad, zip_append h]

theorem length_unpad {t : List α} {m : List Bool} (h : t.length = m.length) :
    (unpad t m).length = numValid m := by
  induction t generalizing m with
  | nil =>
    obtain rfl : m = [] := by simpa using h.symm
    rfl
  | cons x t ih =>
    cases m with
    | nil => simp at h
    | cons v m =>
      have := ih (m := m) (by simpa using h)
      cases v <;> simp_all [unpad, numValid]

/-- The unpadded concatenation of rows has the dedup layout of their valid tokens. -/
theorem unpad_concatenated {t t' : Nat → List α} {m m' : Nat → List Bool}
    {P : Nat → List α} {k : Nat} {groups : List (List Nat)}
    (ht : ∀ group ∈ groups, (t (group.headD 0)).length = (m (group.headD 0)).length)
    (ht' : ∀ group ∈ groups, ∀ i ∈ group, (t' i).length = (m' i).length)
    (hP : ∀ j group, groups[j]? = some group →
      P (k + j) = unpad (t (group.headD 0)) (m (group.headD 0))) :
    unpad (concatenated t t' groups) (concatenated m m' groups) =
      layout P (fun i => unpad (t' i) (m' i)) k groups := by
  have hresp : ∀ group : List Nat, (∀ i ∈ group, (t' i).length = (m' i).length) →
      unpad (group.flatMap t') (group.flatMap m') = group.flatMap fun i => unpad (t' i) (m' i) := by
    intro group hgroup
    induction group with
    | nil => rfl
    | cons i rest ih =>
      rw [flatMap_cons, flatMap_cons, unpad_append (hgroup i mem_cons_self),
        ih fun j hj => hgroup j (mem_cons_of_mem i hj), flatMap_cons]
  have hlen : ∀ group : List Nat, (∀ i ∈ group, (t' i).length = (m' i).length) →
      (group.flatMap t').length = (group.flatMap m').length := by
    intro group hgroup
    rw [length_flatMap, length_flatMap]
    exact congrArg sum (map_congr_left hgroup)
  induction groups generalizing k with
  | nil => rfl
  | cons group groups ih =>
    have hhead := hP 0 group rfl
    have htail : ∀ j g, groups[j]? = some g →
        P (k + 1 + j) = unpad (t (g.headD 0)) (m (g.headD 0)) := by
      intro j g hj
      have := hP (j + 1) g (by simpa using hj)
      rwa [← add_assoc, add_right_comm] at this
    have ih' := ih (fun g hg => ht g (mem_cons_of_mem _ hg))
      (fun g hg => ht' g (mem_cons_of_mem _ hg)) htail
    have hgroup := ht' group mem_cons_self
    have hprompt := ht group mem_cons_self
    simp only [concatenated, flatMap_cons] at ih' ⊢
    rw [unpad_append (by rw [length_append, length_append, hprompt, hlen group hgroup]),
      unpad_append hprompt, hresp group hgroup, ih', layout]
    rw [add_zero] at hhead
    rw [hhead]

end Unpad

/-! ## Segments -/

/-- The response segments of a group with their numbers of valid tokens. -/
def packedResponses (responseLength : Nat) (r : Nat → Nat) (k : Nat) :
    Nat → List Nat → List PackedSegment
  | _, [] => []
  | pos, i :: rest =>
    ⟨⟨pos, pos + responseLength, i, .response, k⟩, r i⟩ ::
      packedResponses responseLength r k (pos + responseLength) rest

/-- The segments of consecutive groups with their numbers of valid tokens. -/
def packedSegments (promptLen responseLength : Nat) (p r : Nat → Nat) :
    Nat → Nat → List (List Nat) → List PackedSegment
  | _, _, [] => []
  | k, pos, group :: groups =>
    group.map (fun i => ⟨⟨pos, pos + promptLen, i, .prompt, k⟩, p (group.headD 0)⟩) ++
      packedResponses responseLength r k (pos + promptLen) group ++
      packedSegments promptLen responseLength p r (k + 1)
        (pos + promptLen + group.length * responseLength) groups

section Segments

variable {promptLen responseLength : Nat} {m m' : Nat → List Bool}

variable {k pos : Nat} {group : List Nat}

theorem map_packSegment_responses {A C : List Bool}
    (hm' : ∀ i ∈ group, (m' i).length = responseLength) (hA : A.length = pos) :
    (responseSegments responseLength k pos group).map
        (packSegment (A ++ group.flatMap m' ++ C)) =
      packedResponses responseLength (fun i => numValid (m' i)) k pos group := by
  induction group generalizing A pos with
  | nil => rfl
  | cons i rest ih =>
    have hsplit : A ++ (i :: rest).flatMap m' ++ C = (A ++ m' i) ++ rest.flatMap m' ++ C := by
      simp [append_assoc]
    have hslice : slice (A ++ (i :: rest).flatMap m' ++ C) pos (pos + responseLength) = m' i := by
      rw [hsplit, append_assoc (A ++ m' i)]
      exact slice_append hA (by rw [hm' i mem_cons_self])
    rw [responseSegments, map_cons, packedResponses]
    refine congrArg₂ _ ?_ ?_
    · simp only [packSegment, hslice]
    · rw [hsplit]
      exact ih (fun j hj => hm' j (mem_cons_of_mem i hj))
        (by rw [length_append, hA, hm' i mem_cons_self])

variable {groups : List (List Nat)}

theorem map_packSegment (m m' : Nat → List Bool) {A C : List Bool}
    (hm : ∀ group ∈ groups, (m (group.headD 0)).length = promptLen)
    (hm' : ∀ group ∈ groups, ∀ i ∈ group, (m' i).length = responseLength) (hA : A.length = pos) :
    (segmentInfo promptLen responseLength k pos groups).map
        (packSegment (A ++ concatenated m m' groups ++ C)) =
      packedSegments promptLen responseLength (fun i => numValid (m i))
        (fun i => numValid (m' i)) k pos groups := by
  induction groups generalizing k pos A with
  | nil => rfl
  | cons group groups ih =>
    have hsplit : A ++ concatenated m m' (group :: groups) ++ C =
        A ++ m (group.headD 0) ++ (group.flatMap m' ++ concatenated m m' groups ++ C) := by
      simp [concatenated, append_assoc]
    have hsplit' : A ++ concatenated m m' (group :: groups) ++ C =
        (A ++ m (group.headD 0)) ++ group.flatMap m' ++ (concatenated m m' groups ++ C) := by
      simp [concatenated, append_assoc]
    have hsplit'' : A ++ concatenated m m' (group :: groups) ++ C =
        (A ++ m (group.headD 0) ++ group.flatMap m') ++ concatenated m m' groups ++ C := by
      simp [concatenated, append_assoc]
    have hprompt := hm group mem_cons_self
    have hgroup := hm' group mem_cons_self
    have hlen : (group.flatMap m').length = group.length * responseLength := by
      rw [length_flatMap, map_congr_left hgroup]
      simp
    rw [segmentInfo, map_append, map_append, packedSegments]
    refine congrArg₂ _ (congrArg₂ _ ?_ ?_) ?_
    · rw [map_map]
      apply map_congr_left
      intro i _
      have hslice : slice (A ++ concatenated m m' (group :: groups) ++ C) pos
          (pos + promptLen) = m (group.headD 0) := by
        rw [hsplit]
        exact slice_append hA (by rw [hprompt])
      simp only [Function.comp, packSegment, hslice]
    · rw [hsplit']
      exact map_packSegment_responses hgroup (by rw [length_append, hA, hprompt])
    · rw [hsplit'']
      exact ih (fun g hg => hm g (mem_cons_of_mem _ hg))
        (fun g hg => hm' g (mem_cons_of_mem _ hg))
        (by rw [length_append, length_append, hA, hprompt, hlen])

variable {p r : Nat → Nat}

theorem mem_packedResponses {seg : PackedSegment}
    (h : seg ∈ packedResponses responseLength r k pos group) :
    seg.groupIdx = k ∧ seg.type = .response ∧ seg.numValidTokens = r seg.originalIdx := by
  induction group generalizing pos with
  | nil => simp [packedResponses] at h
  | cons i rest ih =>
    rcases mem_cons.mp h with rfl | h
    · exact ⟨rfl, rfl, rfl⟩
    · exact ih h

theorem map_originalIdx_packedResponses (k pos : Nat) (group : List Nat) :
    (packedResponses responseLength r k pos group).map (·.originalIdx) = group := by
  induction group generalizing pos with
  | nil => rfl
  | cons i rest ih => simp [packedResponses, ih]

theorem le_groupIdx {seg : PackedSegment}
    (h : seg ∈ packedSegments promptLen responseLength p r k pos groups) : k ≤ seg.groupIdx := by
  induction groups generalizing k pos with
  | nil => simp [packedSegments] at h
  | cons group groups ih =>
    rw [packedSegments, mem_append, mem_append] at h
    rcases h with (h | h) | h
    · obtain ⟨i, -, rfl⟩ := mem_map.mp h
      exact le_rfl
    · exact (mem_packedResponses h).1.ge
    · have := ih h
      omega

/-- The response segments of one group. -/
theorem groupResponses_packed (promptLen responseLength : Nat) (p r : Nat → Nat) (k pos : Nat)
    {j : Nat} (hj : groups[j]? = some group) :
    ∃ pos', groupResponses (packedSegments promptLen responseLength p r k pos groups) (k + j) =
      packedResponses responseLength r (k + j) pos' group := by
  have hprompts : ∀ (g : Nat) (l : List Nat) (f : Nat → PackedSegment),
      (∀ i, (f i).type = .prompt) → groupResponses (l.map f) g = [] := by
    intro g l f hf
    simp [groupResponses, filter_eq_nil_iff, hf]
  induction groups generalizing k pos j with
  | nil => simp at hj
  | cons group₀ groups ih =>
    have hsplit : ∀ g, groupResponses
        (packedSegments promptLen responseLength p r k pos (group₀ :: groups)) g =
        groupResponses (packedResponses responseLength r k (pos + promptLen) group₀) g ++
          groupResponses (packedSegments promptLen responseLength p r (k + 1)
            (pos + promptLen + group₀.length * responseLength) groups) g := by
      intro g
      have := hprompts g group₀
        (fun i => ⟨⟨pos, pos + promptLen, i, .prompt, k⟩, p (group₀.headD 0)⟩) (fun _ => rfl)
      simp only [groupResponses] at this
      simp only [groupResponses, packedSegments, filter_append, this, nil_append]
    cases j with
    | zero =>
      obtain rfl : group₀ = group := by simpa using hj
      refine ⟨pos + promptLen, ?_⟩
      have hall : groupResponses (packedResponses responseLength r k (pos + promptLen) group₀) k =
          packedResponses responseLength r k (pos + promptLen) group₀ := by
        apply filter_eq_self.mpr
        intro seg hseg
        obtain ⟨h1, h2, -⟩ := mem_packedResponses hseg
        simp [h1, h2]
      have hnone : groupResponses (packedSegments promptLen responseLength p r (k + 1)
          (pos + promptLen + group₀.length * responseLength) groups) k = [] := by
        apply filter_eq_nil_iff.mpr
        intro seg hseg
        have hne : seg.groupIdx ≠ k := by
          have := le_groupIdx hseg
          omega
        simp [hne]
      rw [add_zero, hsplit, hall, hnone, append_nil]
    | succ j =>
      obtain ⟨pos', hpos'⟩ := ih (k + 1) (pos + promptLen + group₀.length * responseLength)
        (by simpa using hj)
      refine ⟨pos', ?_⟩
      have hnone : groupResponses (packedResponses responseLength r k (pos + promptLen) group₀)
          (k + 1 + j) = [] := by
        apply filter_eq_nil_iff.mpr
        intro seg hseg
        have hne : seg.groupIdx ≠ k + 1 + j := by
          have := (mem_packedResponses hseg).1
          omega
        simp [hne]
      have hnext : k + (j + 1) = k + 1 + j := by omega
      rw [hnext, hsplit, hnone, hpos', nil_append]

theorem groupPrompt_packed (k pos : Nat) {j : Nat} (hne : ∀ g ∈ groups, g ≠ [])
    (hj : groups[j]? = some group) :
    ∃ seg, groupPrompt (packedSegments promptLen responseLength p r k pos groups) (k + j) =
      some seg ∧ seg.numValidTokens = p (group.headD 0) := by
  induction groups generalizing k pos j with
  | nil => simp at hj
  | cons group₀ groups ih =>
    cases j with
    | zero =>
      obtain rfl : group₀ = group := by simpa using hj
      cases group₀ with
      | nil => exact absurd rfl (hne [] mem_cons_self)
      | cons i rest =>
        exact ⟨⟨⟨pos, pos + promptLen, i, .prompt, k⟩, p i⟩,
          by simp [groupPrompt, packedSegments], rfl⟩
    | succ j =>
      obtain ⟨seg, hseg, hvalid⟩ := ih (k + 1)
        (pos + promptLen + group₀.length * responseLength)
        (fun g hg => hne g (mem_cons_of_mem _ hg)) (by simpa using hj)
      refine ⟨seg, ?_, hvalid⟩
      have hnext : k + (j + 1) = k + 1 + j := by omega
      have h1 : (group₀.map fun i => (⟨⟨pos, pos + promptLen, i, .prompt, k⟩,
          p (group₀.headD 0)⟩ : PackedSegment)).find?
          (fun seg => seg.groupIdx = k + 1 + j ∧ seg.type = .prompt) = none := by
        rw [find?_eq_none]
        intro seg hseg
        obtain ⟨i, -, rfl⟩ := mem_map.mp hseg
        simp only [decide_eq_true_eq, not_and]
        omega
      have h2 : (packedResponses responseLength r k (pos + promptLen) group₀).find?
          (fun seg => seg.groupIdx = k + 1 + j ∧ seg.type = .prompt) = none := by
        rw [find?_eq_none]
        intro seg hseg
        simp [(mem_packedResponses hseg).2.1]
      rw [hnext]
      simp only [groupPrompt] at hseg
      simp only [groupPrompt, packedSegments, find?_append, h1, h2, hseg, Option.none_or]

theorem mem_groupIdx (hne : ∀ g ∈ groups, g ≠ []) (g : Nat) :
    g ∈ (packedSegments promptLen responseLength p r k pos groups).map (·.groupIdx) ↔
      g ∈ range' k groups.length := by
  induction groups generalizing k pos with
  | nil => simp [packedSegments]
  | cons group groups ih =>
    have hgroup := hne group mem_cons_self
    have hprompts : ∀ (f : Nat → PackedSegment), (∀ i, (f i).groupIdx = k) →
        (g ∈ (group.map f).map (·.groupIdx) ↔ g = k) := by
      intro f hf
      rw [map_map, mem_map]
      constructor
      · rintro ⟨i, -, rfl⟩
        exact hf i
      · rintro rfl
        exact ⟨group.headD 0, headD_mem hgroup, hf _⟩
    have hresponses : g ∈ (packedResponses responseLength r k (pos + promptLen) group).map
        (·.groupIdx) → g = k := by
      intro h
      obtain ⟨seg, hseg, rfl⟩ := mem_map.mp h
      exact (mem_packedResponses hseg).1
    rw [packedSegments, map_append, map_append, mem_append, mem_append,
      ih fun g hg => hne g (mem_cons_of_mem _ hg), hprompts _ fun _ => rfl,
      length_cons, range'_succ, mem_cons]
    constructor
    · rintro ((h | h) | h)
      · exact .inl h
      · exact .inl (hresponses h)
      · exact .inr h
    · rintro (h | h)
      · exact .inl (.inl h)
      · exact .inr h

/-- The valid tokens of a sample: those of its group's prompt and its own response. -/
theorem sum_valid_packed (hnodup : groups.flatten.Nodup) (hgroup : group ∈ groups) {i : Nat}
    (hi : i ∈ group) :
    (((packedSegments promptLen responseLength p r k pos groups).filter
      fun seg => seg.originalIdx = i).map (·.numValidTokens)).sum = p (group.headD 0) + r i := by
  -- one group contributes its two segments of the sample, or nothing
  have hprompts : ∀ (l : List Nat) (f : Nat → PackedSegment) (c : Nat), l.Nodup →
      (∀ j, (f j).originalIdx = j) → (∀ j, (f j).numValidTokens = c) →
      (((l.map f).filter fun seg => seg.originalIdx = i).map (·.numValidTokens)).sum =
        if i ∈ l then c else 0 := by
    intro l f c hl hidx hvalid
    induction l with
    | nil => rfl
    | cons j rest ih =>
      rw [nodup_cons] at hl
      by_cases hji : j = i
      · subst hji
        have := ih hl.2
        rw [if_neg hl.1] at this
        simp [hidx, hvalid, this]
      · simp [hidx, hji, Ne.symm hji, ih hl.2]
  have hresponses : ∀ (l : List Nat) (k pos : Nat), l.Nodup →
      (((packedResponses responseLength r k pos l).filter
        fun seg => seg.originalIdx = i).map (·.numValidTokens)).sum = if i ∈ l then r i else 0 := by
    intro l k pos hl
    induction l generalizing pos with
    | nil => rfl
    | cons j rest ih =>
      rw [nodup_cons] at hl
      by_cases hji : j = i
      · subst hji
        have := ih (pos + responseLength) hl.2
        rw [if_neg hl.1] at this
        simp [packedResponses, this]
      · simp [packedResponses, hji, Ne.symm hji, ih _ hl.2]
  have hzero : ∀ (groups : List (List Nat)) (k pos : Nat), groups.flatten.Nodup →
      i ∉ groups.flatten → (((packedSegments promptLen responseLength p r k pos groups).filter
        fun seg => seg.originalIdx = i).map (·.numValidTokens)).sum = 0 := by
    intro groups
    induction groups with
    | nil => intros; rfl
    | cons g groups ih =>
      intro k pos hnd hnot
      rw [flatten_cons, nodup_append] at hnd
      rw [flatten_cons, mem_append, not_or] at hnot
      rw [packedSegments, filter_append, filter_append, map_append,
        map_append, sum_append, sum_append,
        hprompts g _ (p (g.headD 0)) hnd.1 (fun _ => rfl) (fun _ => rfl),
        hresponses g _ _ hnd.1, if_neg hnot.1, if_neg hnot.1, ih _ _ hnd.2.1 hnot.2]
  induction groups generalizing k pos with
  | nil => simp at hgroup
  | cons g groups ih =>
    rw [flatten_cons, nodup_append] at hnodup
    rw [packedSegments, filter_append, filter_append, map_append,
      map_append, sum_append, sum_append,
      hprompts g _ (p (g.headD 0)) hnodup.1 (fun _ => rfl) (fun _ => rfl),
      hresponses g _ _ hnodup.1]
    by_cases hig : i ∈ g
    · have hnot : i ∉ groups.flatten := fun hmem => hnodup.2.2 i hig i hmem rfl
      obtain rfl : group = g := by
        rcases mem_cons.mp hgroup with h | h
        · exact h
        · exact absurd (mem_flatten.mpr ⟨group, h, hi⟩) hnot
      rw [if_pos hig, if_pos hig, hzero groups _ _ hnodup.2.1 hnot]
      rfl
    · have hgroup' : group ∈ groups := by
        rcases mem_cons.mp hgroup with rfl | h
        · exact absurd hi hig
        · exact h
      rw [if_neg hig, if_neg hig, ih hnodup.2.1 hgroup']
      omega

/-- Number of valid tokens: every prompt once and all responses. -/
theorem totalDedupTokens_packed (hne : ∀ g ∈ groups, g ≠ []) :
    totalDedupTokens (packedSegments promptLen responseLength p r k pos groups) =
      layoutLength p r groups := by
  have hresponses : ∀ (l : List Nat) (k pos acc : Nat) (seen : List Nat),
      (packedResponses responseLength r k pos l).foldl countSegment (acc, seen) =
        (acc + (l.map r).sum, seen) := by
    intro l
    induction l with
    | nil => intros; rfl
    | cons i rest ih =>
      intro k pos acc seen
      simp only [packedResponses, foldl_cons, countSegment, ih, map_cons, sum_cons]
      rw [add_assoc]
  have hseen : ∀ (l : List Nat) (f : Nat → PackedSegment) (k acc : Nat) (seen : List Nat),
      (∀ j, (f j).groupIdx = k) → (∀ j, (f j).type = .prompt) → k ∈ seen →
      (l.map f).foldl countSegment (acc, seen) = (acc, seen) := by
    intro l f k acc seen hidx htype hmem
    induction l with
    | nil => rfl
    | cons i rest ih =>
      simp only [map_cons, foldl_cons, countSegment, htype, hidx, if_pos hmem]
      exact ih
  have key : ∀ (groups : List (List Nat)) (k pos acc : Nat) (seen : List Nat),
      (∀ g ∈ groups, g ≠ []) → (∀ j ∈ seen, j < k) →
      ((packedSegments promptLen responseLength p r k pos groups).foldl countSegment
        (acc, seen)).1 = acc + layoutLength p r groups := by
    intro groups
    induction groups with
    | nil => intros; rfl
    | cons group groups ih =>
      intro k pos acc seen hne hlt
      have hprompts : (group.map fun i => (⟨⟨pos, pos + promptLen, i, .prompt, k⟩,
          p (group.headD 0)⟩ : PackedSegment)).foldl countSegment (acc, seen) =
          (acc + p (group.headD 0), k :: seen) := by
        have hk : k ∉ seen := fun hmem => lt_irrefl k (hlt k hmem)
        cases group with
        | nil => exact absurd rfl (hne [] mem_cons_self)
        | cons i rest =>
          rw [map_cons, foldl_cons]
          have hfirst : countSegment (acc, seen) ⟨⟨pos, pos + promptLen, i, .prompt, k⟩,
              p ((i :: rest).headD 0)⟩ = (acc + p ((i :: rest).headD 0), k :: seen) := by
            simp [countSegment, hk]
          rw [hfirst]
          exact hseen rest _ k _ _ (fun _ => rfl) (fun _ => rfl) mem_cons_self
      rw [packedSegments, foldl_append, foldl_append, hprompts, hresponses,
        ih _ _ _ _ (fun g hg => hne g (mem_cons_of_mem _ hg))]
      · simp only [layoutLength, map_cons, sum_cons]
        omega
      · intro j hj
        rcases mem_cons.mp hj with rfl | hj
        · exact Nat.lt_succ_self _
        · exact Nat.lt_succ_of_lt (hlt j hj)
  have := key groups k pos 0 [] hne (by simp)
  rw [totalDedupTokens, this, zero_add]

end Segments

/-! ## Positions -/

section Positions

variable {segments : List PackedSegment} {p r : Nat → Nat}

theorem responsePositions_eq {g : Nat} {group : List Nat} (pos : Nat)
    (h : ∀ i ∈ group, ∃ seg, groupResponse segments g i = some seg ∧ seg.numValidTokens = r i) :
    responsePositions segments g pos group =
      some (layoutResponses r pos group, pos + (group.map r).sum) := by
  induction group generalizing pos with
  | nil => rfl
  | cons i rest ih =>
    obtain ⟨seg, hseg, hvalid⟩ := h i mem_cons_self
    have hrest := ih (pos + r i) fun j hj => h j (mem_cons_of_mem i hj)
    simp only [responsePositions, hseg, hvalid, hrest, Option.bind_eq_bind, Option.bind_some,
      layoutResponses, map_cons, sum_cons, add_assoc]

theorem groupDedupPositions_eq {k : Nat} {groups : List (List Nat)} (pos : Nat)
    (h : ∀ j group, groups[j]? = some group → (∃ seg, groupPrompt segments (k + j) = some seg ∧
        seg.numValidTokens = p (group.headD 0)) ∧
      sortedKeys ((groupResponses segments (k + j)).map (·.originalIdx)) = group ∧
      ∀ i ∈ group, ∃ seg, groupResponse segments (k + j) i = some seg ∧ seg.numValidTokens = r i) :
    groupDedupPositions segments pos (range' k groups.length) =
      some (layoutPositions p r k pos groups) := by
  induction groups generalizing k pos with
  | nil => rfl
  | cons group groups ih =>
    obtain ⟨⟨seg, hseg, hvalid⟩, hkeys, hresp⟩ := h 0 group rfl
    rw [add_zero] at hseg hkeys hresp
    have hrest := ih (k := k + 1) (pos + p (group.headD 0) + (group.map r).sum) (by
      intro j g hj
      have := h (j + 1) g (by simpa using hj)
      rwa [← add_assoc, add_right_comm] at this)
    simp only [length_cons, range'_succ, groupDedupPositions, hseg, hvalid, hkeys,
      responsePositions_eq _ hresp, hrest, Option.bind_eq_bind, Option.bind_some, layoutPositions]

theorem find?_packedResponses {responseLength k pos : Nat} {group : List Nat} {i : Nat}
    (hi : i ∈ group) {l : List PackedSegment}
    (hl : l.Perm (packedResponses responseLength r k pos group)) :
    ∃ seg, l.find? (fun seg => seg.originalIdx = i) = some seg ∧ seg.numValidTokens = r i := by
  have hsome : (l.find? fun seg => seg.originalIdx = i).isSome := by
    rw [find?_isSome]
    have hmem : i ∈ (packedResponses responseLength r k pos group).map (·.originalIdx) := by
      rw [map_originalIdx_packedResponses]
      exact hi
    obtain ⟨seg, hseg, hidx⟩ := mem_map.mp hmem
    exact ⟨seg, hl.mem_iff.mpr hseg, by simpa using hidx⟩
  obtain ⟨seg, hfind⟩ := Option.isSome_iff_exists.mp hsome
  have hmem := hl.mem_iff.mp (mem_of_find?_eq_some hfind)
  have hidx : seg.originalIdx = i := by simpa using find?_some hfind
  exact ⟨seg, hfind, by rw [(mem_packedResponses hmem).2.2, hidx]⟩

theorem dedupPositions_packed {promptLen responseLength : Nat} {groups : List (List Nat)}
    {info : PackedInfo}
    (hsegments : info.segmentInfo = packedSegments promptLen responseLength p r 0 0 groups)
    (hne : ∀ group ∈ groups, group ≠ []) (hsorted : ∀ group ∈ groups, group.Pairwise (· < ·)) :
    dedupPositions info = some (layoutPositions p r 0 0 groups) := by
  have hkeys : sortedKeys (info.segmentInfo.map (·.groupIdx)) = range' 0 groups.length := by
    rw [hsegments]
    exact sortedKeys_eq (pairwise_lt_range') (mem_groupIdx hne)
  rw [dedupPositions, hkeys, hsegments]
  refine groupDedupPositions_eq 0 fun j group hj => ?_
  obtain ⟨pos, hresp⟩ := groupResponses_packed promptLen responseLength p r 0 0 hj
  refine ⟨groupPrompt_packed 0 0 hne hj, ?_, ?_⟩
  · rw [hresp, map_originalIdx_packedResponses]
    exact sortedKeys_eq (hsorted group (mem_of_getElem? hj)) fun _ => Iff.rfl
  · intro i hi
    rw [groupResponse, hresp]
    exact find?_packedResponses hi (reverse_perm _)

end Positions

/-! ## The info of a batch -/

/-- Number of valid prompt tokens of a sample. -/
def validPrompt {ι : Type} (b : Batch ι) (i : Nat) : Nat :=
  numValid (b.promptMask i)

/-- Number of valid response tokens of a sample. -/
def validResponse {ι : Type} (b : Batch ι) (i : Nat) : Nat :=
  numValid (b.responseMask i)

section Batches

variable {ι : Type} {b : Batch ι} {groups : List (List Nat)}

/-- Samples of one group have the same prompt mask. -/
def SharedMasks (b : Batch ι) (groups : List (List Nat)) : Prop :=
  ∀ group ∈ groups, ∀ i ∈ group, b.promptMask i = b.promptMask (group.headD 0)

variable {i : Nat}

theorem length_promptMask (hi : i < b.size) : (b.promptMask i).length = b.promptLen := by
  have hrow : i < b.attentionMask.length := b.mask_rows ▸ hi
  have hget : b.attentionMask.getD i [] = b.attentionMask[i] := by simp [hrow]
  have := b.mask_length _ (getElem_mem hrow)
  rw [Batch.promptMask, hget, length_take]
  omega

theorem length_responseMask (hi : i < b.size) : (b.responseMask i).length = b.responseLength := by
  have hrow : i < b.attentionMask.length := b.mask_rows ▸ hi
  have hget : b.attentionMask.getD i [] = b.attentionMask[i] := by simp [hrow]
  have := b.mask_length _ (getElem_mem hrow)
  rw [Batch.responseMask, hget, length_drop]
  omega

theorem length_prompt (hi : i < b.size) : (b.prompt i).length = b.promptLen := by
  have hrow : i < b.inputIds.length := hi
  have hget : b.inputIds.getD i [] = b.inputIds[i] := by simp [hrow]
  have := b.ids_length _ (getElem_mem hrow)
  rw [Batch.prompt, hget, length_take]
  omega

theorem length_response (hi : i < b.size) : (b.response i).length = b.responseLength := by
  have hrow : i < b.inputIds.length := hi
  have hget : b.inputIds.getD i [] = b.inputIds[i] := by simp [hrow]
  have := b.ids_length _ (getElem_mem hrow)
  rw [Batch.response, hget, length_drop]
  omega

theorem lt_size (hgroups : GroupsOK b.prompt b.size groups) :
    ∀ group ∈ groups, ∀ i ∈ group, i < b.size := by
  intro group hgroup i hi
  exact (hgroups.mem i).mp (mem_flatten.mpr ⟨group, hgroup, hi⟩)

theorem headD_lt_size (hgroups : GroupsOK b.prompt b.size groups) :
    ∀ group ∈ groups, group.headD 0 < b.size := by
  intro group hgroup
  exact lt_size hgroups group hgroup _ (headD_mem (hgroups.nonempty group hgroup))

variable {ids : List ι} {mask : List Bool} {info : DedupInfo}

section

variable (hgroups : GroupsOK b.prompt b.size groups)
include hgroups

theorem map_packSegment_dedup (hdedup : dedupInputIds b groups = (ids, mask, info)) :
    info.segmentInfo.map (packSegment mask) =
      packedSegments b.promptLen b.responseLength (validPrompt b) (validResponse b) 0 0 groups := by
  obtain ⟨-, hrest⟩ := Prod.mk.inj hdedup
  obtain ⟨rfl, rfl⟩ := Prod.mk.inj hrest
  have hmap := map_packSegment b.promptMask b.responseMask (k := 0) (A := []) (C := [])
    (fun group hgroup => length_promptMask (headD_lt_size hgroups group hgroup))
    (fun group hgroup i hi => length_responseMask (lt_size hgroups group hgroup i hi)) rfl
  simp only [nil_append, append_nil] at hmap
  exact hmap

/-- Unpadding describes the dedup layout of the batch, and keeps exactly its valid tokens. -/
theorem unpadDeduplicatedBatch_ok (hsize : 0 < b.size)
    (hmasks : SharedMasks b groups) (hdedup : dedupInputIds b groups = (ids, mask, info)) :
    ∃ packed, (∀ {α : Type} (dedup : List α),
        unpadDeduplicatedBatch dedup mask info = some (unpad dedup mask, packed)) ∧
      InfoOK packed groups b.size (validPrompt b) (validResponse b) := by
  obtain ⟨-, hrest⟩ := Prod.mk.inj hdedup
  obtain ⟨rfl, rfl⟩ := Prod.mk.inj hrest
  have hsegments := map_packSegment_dedup hgroups rfl
  set segments := packedSegments b.promptLen b.responseLength (validPrompt b) (validResponse b)
    0 0 groups with hseg
  have hlengths : ((range b.size).map fun i =>
      ((segments.filter fun seg => seg.originalIdx = i).map (·.numValidTokens)).sum) =
      (range b.size).map fun i => validPrompt b i + validResponse b i := by
    apply map_congr_left
    intro i hi
    obtain ⟨group, hgroup, higroup⟩ := mem_flatten.mp ((hgroups.mem i).mpr (mem_range.mp hi))
    rw [hseg, sum_valid_packed hgroups.nodup hgroup higroup, validPrompt, validPrompt,
      hmasks group hgroup i higroup]
  obtain ⟨maxSeqlen, hmax⟩ : ∃ x, ((range b.size).map fun i =>
      validPrompt b i + validResponse b i).max? = some x := by
    rw [← Option.isSome_iff_exists, isSome_max?_iff]
    simp
    omega
  refine ⟨⟨segments, groups, b.promptLen, b.size, b.attentionMask,
    cumulative ((range b.size).map fun i => validPrompt b i + validResponse b i),
    maxSeqlen⟩, ?_, ?_⟩
  · intro α dedup
    simp only [unpadDeduplicatedBatch, hsegments, hlengths, hmax, Option.bind_eq_bind,
      Option.bind_some]
  · refine ⟨rfl, rfl, ?_, ?_, rfl, fun i hi => rfl⟩
    · exact dedupPositions_packed hseg hgroups.nonempty hgroups.sorted
    · exact totalDedupTokens_packed hgroups.nonempty

theorem unpad_dedupInputIds (hdedup : dedupInputIds b groups = (ids, mask, info)) :
    unpad ids mask = layout
      (fun k => unpad (b.prompt ((groups.getD k []).headD 0))
        (b.promptMask ((groups.getD k []).headD 0)))
      (fun i => unpad (b.response i) (b.responseMask i)) 0 groups := by
  obtain ⟨rfl, hrest⟩ := Prod.mk.inj hdedup
  obtain ⟨rfl, -⟩ := Prod.mk.inj hrest
  have hlt := lt_size hgroups
  have hhead := headD_lt_size hgroups
  refine unpad_concatenated ?_ ?_ ?_
  · intro group hgroup
    rw [length_prompt (hhead group hgroup), length_promptMask (hhead group hgroup)]
  · intro group hgroup i hi
    rw [length_response (hlt group hgroup i hi), length_responseMask (hlt group hgroup i hi)]
  · intro j group hj
    rw [zero_add, getD_eq_getElem?_getD, hj, Option.getD_some]

theorem blocks_dedup :
    Blocks (validPrompt b) (validResponse b)
      (fun k => unpad (b.prompt ((groups.getD k []).headD 0))
        (b.promptMask ((groups.getD k []).headD 0)))
      (fun i => unpad (b.response i) (b.responseMask i)) 0 groups := by
  constructor
  · intro m group hm
    have hhead := headD_lt_size hgroups group (mem_of_getElem? hm)
    simp only [zero_add, getD_eq_getElem?_getD, hm, Option.getD_some]
    exact length_unpad (by rw [length_prompt hhead, length_promptMask hhead])
  · intro i hi
    have hi' := (hgroups.mem i).mp hi
    exact length_unpad (by rw [length_response hi', length_responseMask hi'])

end

end Batches

end ArcticPlatform.ZorroTrain
