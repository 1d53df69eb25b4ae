import ArcticPlatform.ZorroTrain.RoundTrip

/-!
# ZoRRoTrain: the offset tables of the split attention

`_extract_cu_seqlens` renumbers the samples in group order and builds the
tables of response and prompt boundaries.

Main results:

- Theorem `lookup_reorderedSeqIdx`: a sample is renumbered to its position in
  group order.
- Theorem `extractCuSeqlens_ok`: the response table is in group order and the
  prompt table lists the groups.
-/

namespace ArcticPlatform.ZorroTrain

open Slices List Option

/-! ## Group order -/

theorem lookup_foldl_insert (l : List Nat) : ∀ d : AList (fun _ : Nat => Nat), l.Nodup →
    (∀ i ∈ l, i ∉ d) → (∀ j i, l[j]? = some i →
      (l.foldl (fun d i => d.insert i d.entries.length) d).lookup i = some (d.entries.length + j)) ∧
    ∀ i, i ∉ l → (l.foldl (fun d i => d.insert i d.entries.length) d).lookup i = d.lookup i := by
  induction l with
  | nil =>
    intro d _ _
    exact ⟨by simp, fun i _ => rfl⟩
  | cons x l ih =>
    intro d hnodup hfresh
    rw [nodup_cons] at hnodup
    have hx : x ∉ d := hfresh x mem_cons_self
    have hentries : (d.insert x d.entries.length).entries.length = d.entries.length + 1 := by
      rw [AList.entries_insert_of_notMem hx, length_cons]
    obtain ⟨hin, hout⟩ := ih (d.insert x d.entries.length) hnodup.2 (by
      intro i hi hmem
      rw [AList.mem_insert] at hmem
      rcases hmem with rfl | hmem
      · exact hnodup.1 hi
      · exact hfresh i (mem_cons_of_mem x hi) hmem)
    refine ⟨fun j i hj => ?_, fun i hi => ?_⟩
    · cases j with
      | zero =>
        obtain rfl : x = i := by simpa using hj
        rw [foldl_cons, hout x hnodup.1, AList.lookup_insert, add_zero]
      | succ j =>
        rw [foldl_cons, hin j i (by simpa using hj), hentries]
        congr 1
        omega
    · rw [mem_cons, not_or] at hi
      rw [foldl_cons, hout i hi.2, AList.lookup_insert_ne hi.1]

/-- A sample is renumbered to its position in group order. -/
theorem lookup_reorderedSeqIdx {groups : List (List Nat)} (hnodup : groups.flatten.Nodup)
    {i j : Nat} (hj : groups.flatten[j]? = some i) :
    (reorderedSeqIdx groups).lookup i = some j := by
  have := (lookup_foldl_insert groups.flatten ∅ hnodup (fun i _ => AList.notMem_empty i)).1 j i hj
  rw [reorderedSeqIdx, this]
  exact congrArg some (zero_add j)

theorem getElem?_flatten {groups : List (List Nat)} {k j i : Nat} {group : List Nat}
    (hk : groups[k]? = some group) (hj : group[j]? = some i) :
    groups.flatten[(groups.take k).flatten.length + j]? = some i := by
  have hjlt := (List.getElem?_eq_some_iff.mp hj).1
  rw [flatten_split hk, append_assoc, getElem?_append_right (Nat.le_add_right _ _),
    Nat.add_sub_cancel_left, getElem?_append_left hjlt, hj]

/-! ## The tables -/

section Tables

variable {ι : Type} {prompts : Nat → List ι} {groups : List (List Nat)} {n : Nat}
  {p r : Nat → Nat} {info : PackedInfo}

theorem cuSeqlensPacked_getElem? (hinfo : InfoOK info groups n p r) {i : Nat} (hi : i < n) :
    ∃ start, info.cuSeqlensPacked[i]? = some start ∧
      info.cuSeqlensPacked[i + 1]? = some (start + (p i + r i)) := by
  have hlen : ((List.range n).map fun i => p i + r i)[i]? = some (p i + r i) := by
    rw [getElem?_map, getElem?_range hi, map_some]
  refine ⟨(((List.range n).map fun i => p i + r i).take i).sum, ?_, ?_⟩
  · rw [hinfo.cuSeqlens]
    exact cumulative_getElem? (by simpa using hi.le)
  · rw [hinfo.cuSeqlens, cumulative_getElem? (by simpa using hi), sum_take_succ hlen]

/-- The loop that fills `cu_seqlens_response`: the first `k` samples are counted. -/
theorem placeResponseLengths (hgroups : GroupsOK prompts n groups)
    (hinfo : InfoOK info groups n p r) {k : Nat} (hk : k ≤ n) :
    (List.range k).foldlM (placeResponseLength info (reorderedSeqIdx groups))
      (List.replicate (n + 1) 0) =
      some (0 :: groups.flatten.map fun i => if i < k then r i else 0) := by
  induction k with
  | zero =>
    simp only [Nat.not_lt_zero, if_false, map_const', hgroups.length_flatten,
      range_zero, foldlM_nil, replicate_succ, pure]
  | succ k ih =>
    rw [range_succ, foldlM_append, ih (by omega)]
    obtain ⟨slot, hslot⟩ := mem_iff_getElem?.mp ((hgroups.mem k).mpr hk)
    have hslotlt : slot < groups.flatten.length := (List.getElem?_eq_some_iff.mp hslot).1
    obtain ⟨start, hstart, hstop⟩ := cuSeqlensPacked_getElem? hinfo hk
    have hcount : start + (p k + r k) - p k - start = r k := by omega
    simp only [bind_eq_bind, bind_some, foldlM_cons, foldlM_nil,
      placeResponseLength, hstart, hstop, lookup_reorderedSeqIdx hgroups.nodup hslot,
      hinfo.valid k hk, hcount, length_cons, length_map]
    rw [if_pos (by omega)]
    simp only [bind_some, set_cons_succ, pure, some.injEq, List.cons.injEq, true_and]
    apply ext_getElem?
    intro j
    rw [getElem?_set, getElem?_map, getElem?_map]
    by_cases hj : slot = j
    · subst hj
      rw [if_pos rfl, hslot]
      simp only [length_map, if_pos hslotlt, map_some, if_pos (Nat.lt_succ_self k)]
    · rw [if_neg hj]
      cases hget : groups.flatten[j]? with
      | none => rfl
      | some i =>
        have hne : i ≠ k := by
          rintro rfl
          exact hj ((getElem?_inj hslotlt hgroups.nodup).mp (hslot.trans hget.symm))
        have hiff : i < k + 1 ↔ i < k := by omega
        simp only [map_some, hiff]

/-- The tables that `_extract_cu_seqlens` returns. -/
theorem extractCuSeqlens_ok (hgroups : GroupsOK prompts n groups)
    (hinfo : InfoOK info groups n p r) :
    ∃ split, extractCuSeqlens info = some (cumulative (groups.flatten.map r), split) ∧
      split.promptLengths = 0 :: groups.map (fun group => p (group.headD 0)) ∧
      split.cuSeqlensUniquePrompts = cumulative (groups.map fun group => p (group.headD 0)) ∧
      split.reorderedSeqIdx = reorderedSeqIdx groups := by
  have hcounts : (0 :: groups.flatten.map fun i => if i < n then r i else 0) =
      0 :: groups.flatten.map r := by
    congr 1
    apply map_congr_left
    intro i hi
    rw [if_pos ((hgroups.mem i).mp hi)]
  have hscan : ((0 :: groups.flatten.map r).scanl (· + ·) 0).tail =
      cumulative (groups.flatten.map r) := by
    rw [scanl_cons, tail_cons]
    rfl
  have hlengths : groups.mapM (promptLength info (reorderedSeqIdx groups)
      (cumulative (groups.flatten.map r))) = some (groups.map fun group => p (group.headD 0)) := by
    apply Results.mapM_eq_some_map
    intro group hgroup
    have hheadmem := headD_mem (hgroups.nonempty group hgroup)
    have hmem : group.headD 0 ∈ groups.flatten := mem_flatten.mpr ⟨group, hgroup, hheadmem⟩
    have hhead : group.head? = some (group.headD 0) := by
      cases group with
      | nil => simp at hheadmem
      | cons i rest => rfl
    obtain ⟨slot, hslot⟩ := mem_iff_getElem?.mp hmem
    have hslotlt : slot < groups.flatten.length := (List.getElem?_eq_some_iff.mp hslot).1
    have hlen : (groups.flatten.map r)[slot]? = some (r (group.headD 0)) := by
      rw [getElem?_map, hslot, map_some]
    obtain ⟨start, hstart, hstop⟩ := cuSeqlensPacked_getElem? hinfo ((hgroups.mem _).mp hmem)
    have hoffset : (cumulative (groups.flatten.map r))[slot]? =
        some ((groups.flatten.map r).take slot).sum :=
      cumulative_getElem? (by rw [length_map]; omega)
    have hnext : (cumulative (groups.flatten.map r))[slot + 1]? =
        some (((groups.flatten.map r).take slot).sum + r (group.headD 0)) := by
      rw [cumulative_getElem? (by rw [length_map]; omega), sum_take_succ hlen]
    unfold promptLength
    simp only [hhead, lookup_reorderedSeqIdx hgroups.nodup hslot, hstart, hstop, hoffset, hnext,
      bind_eq_bind, bind_some]
    congr 1
    omega
  obtain ⟨maxLen, hmax⟩ : ∃ x, (0 :: groups.map fun group => p (group.headD 0)).max? = some x := by
    rw [← isSome_iff_exists, isSome_max?_iff]
    simp
  refine ⟨⟨cumulative (groups.map fun group => p (group.headD 0)), maxLen,
    0 :: groups.map (fun group => p (group.headD 0)), reorderedSeqIdx groups⟩, ?_, rfl, rfl, rfl⟩
  unfold extractCuSeqlens
  rw [hinfo.promptGroups, hinfo.batchSize]
  simp only [placeResponseLengths hgroups hinfo le_rfl, hcounts, hscan, hlengths, hmax,
    bind_eq_bind, bind_some]

end Tables

end ArcticPlatform.ZorroTrain
