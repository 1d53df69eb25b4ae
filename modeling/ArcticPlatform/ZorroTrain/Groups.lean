import ArcticPlatform.ZorroTrain.Model

/-!
# ZoRRoTrain: prompt groups

`find_prompt_groups` partitions the samples of a batch.  The groups list
their samples in batch order and appear in the order of their first samples,
which is what the offset tables of the packed layout rest on.

Main results:

- Theorem `findPromptGroups_ok`: the groups that are found are such a
  partition, and the samples of a group share their prompt.
- Theorem `GroupsOK.head_le`: the first sample of a group does not come
  after its position in group order.
-/

namespace ArcticPlatform.ZorroTrain

open List

/-- A partition of the first `n` samples into groups with equal prompts, in batch order. -/
structure GroupsOK {ι : Type} (prompts : Nat → List ι) (n : Nat) (groups : List (List Nat)) :
    Prop where
  mem : ∀ i, i ∈ groups.flatten ↔ i < n
  nodup : groups.flatten.Nodup
  nonempty : ∀ group ∈ groups, group ≠ []
  sorted : ∀ group ∈ groups, group.Pairwise (· < ·)
  same : ∀ group ∈ groups, ∀ i ∈ group, prompts i = prompts (group.headD 0)
  heads : (groups.map (·.headD 0)).Pairwise (· < ·)

theorem headD_mem {group : List Nat} (h : group ≠ []) : group.headD 0 ∈ group := by
  cases group with
  | nil => exact absurd rfl h
  | cons i rest => simp

theorem headD_append {group : List Nat} (h : group ≠ []) (n : Nat) :
    (group ++ [n]).headD 0 = group.headD 0 := by
  cases group with
  | nil => exact absurd rfl h
  | cons i rest => rfl

section AddSample

variable {ι : Type} [DecidableEq ι] {prompts : Nat → List ι} {n : Nat}
  {groups : List (List Nat)}

theorem flatten_addSample_perm (prompts : Nat → List ι) (n : Nat) (groups : List (List Nat)) :
    (addSample prompts n groups).flatten.Perm (n :: groups.flatten) := by
  induction groups with
  | nil => exact List.Perm.refl _
  | cons group groups ih =>
    unfold addSample
    split_ifs with heq
    · simp only [flatten_cons, append_assoc, cons_append, nil_append]
      exact perm_middle
    · simp only [flatten_cons]
      exact (ih.append_left group).trans perm_middle

/-- Every group is an old one, an old one with the sample added, or the sample alone. -/
theorem mem_addSample {group : List Nat} (h : group ∈ addSample prompts n groups) :
    group ∈ groups ∨ group = [n] ∨
      ∃ old ∈ groups, group = old ++ [n] ∧ prompts n = prompts (old.headD 0) := by
  induction groups with
  | nil =>
    have : group = [n] := by simpa [addSample] using h
    exact .inr (.inl this)
  | cons old groups ih =>
    unfold addSample at h
    split_ifs at h with heq
    · rcases mem_cons.mp h with rfl | h
      · exact .inr (.inr ⟨old, mem_cons_self, rfl, heq⟩)
      · exact .inl (mem_cons_of_mem _ h)
    · rcases mem_cons.mp h with rfl | h
      · exact .inl mem_cons_self
      · rcases ih h with h | h | ⟨old', hold', h⟩
        · exact .inl (mem_cons_of_mem _ h)
        · exact .inr (.inl h)
        · exact .inr (.inr ⟨old', mem_cons_of_mem _ hold', h⟩)

theorem heads_addSample (prompts : Nat → List ι) (n : Nat) (hne : ∀ group ∈ groups, group ≠ []) :
    (addSample prompts n groups).map (·.headD 0) = groups.map (·.headD 0) ∨
      (addSample prompts n groups).map (·.headD 0) = groups.map (·.headD 0) ++ [n] := by
  induction groups with
  | nil => exact .inr rfl
  | cons group groups ih =>
    unfold addSample
    split_ifs with heq
    · left
      simp only [map_cons, headD_append (hne group mem_cons_self)]
    · have hne' : ∀ group ∈ groups, group ≠ [] := fun g hg => hne g (mem_cons_of_mem _ hg)
      rcases ih hne' with h | h
      · exact .inl (by simp only [map_cons, h])
      · exact .inr (by simp only [map_cons, h, cons_append])

theorem GroupsOK.addSample (h : GroupsOK prompts n groups) :
    GroupsOK prompts (n + 1) (addSample prompts n groups) := by
  have hperm := flatten_addSample_perm prompts n groups
  have hlt : ∀ group ∈ groups, ∀ i ∈ group, i < n := by
    intro group hgroup i hi
    exact (h.mem i).mp (mem_flatten.mpr ⟨group, hgroup, hi⟩)
  refine ⟨?_, ?_, ?_, ?_, ?_, ?_⟩
  · intro i
    rw [hperm.mem_iff, mem_cons, h.mem]
    omega
  · rw [hperm.nodup_iff, nodup_cons, h.mem]
    exact ⟨lt_irrefl n, h.nodup⟩
  · intro group hgroup
    rcases mem_addSample hgroup with hold | rfl | ⟨old, -, rfl, -⟩
    · exact h.nonempty group hold
    · simp
    · simp
  · intro group hgroup
    rcases mem_addSample hgroup with hold | rfl | ⟨old, hold, rfl, -⟩
    · exact h.sorted group hold
    · simp
    · rw [pairwise_append]
      refine ⟨h.sorted old hold, by simp, fun i hi j hj => ?_⟩
      rw [mem_singleton.mp hj]
      exact hlt old hold i hi
  · intro group hgroup i hi
    rcases mem_addSample hgroup with hold | rfl | ⟨old, hold, rfl, heq⟩
    · exact h.same group hold i hi
    · rw [mem_singleton.mp hi]
      rfl
    · rw [headD_append (h.nonempty old hold)]
      rcases mem_append.mp hi with hi | hi
      · exact h.same old hold i hi
      · rw [mem_singleton.mp hi, heq]
  · rcases heads_addSample prompts n h.nonempty with heq | heq
    · rw [heq]
      exact h.heads
    · rw [heq, pairwise_append]
      refine ⟨h.heads, by simp, fun i hi j hj => ?_⟩
      obtain ⟨group, hgroup, rfl⟩ := mem_map.mp hi
      rw [mem_singleton.mp hj]
      exact hlt group hgroup _ (headD_mem (h.nonempty group hgroup))

theorem groupsOK_range (prompts : Nat → List ι) (n : Nat) :
    GroupsOK prompts n
      ((List.range n).foldl (fun groups i => ZorroTrain.addSample prompts i groups) []) := by
  induction n with
  | zero => exact ⟨by simp, by simp, by simp, by simp, by simp, by simp⟩
  | succ n ih =>
    rw [range_succ, foldl_append]
    exact ih.addSample

/-- The groups that `find_prompt_groups` returns. -/
theorem findPromptGroups_ok {b : Batch ι} {unique : List (List ι)}
    (h : findPromptGroups b = some (groups, unique)) :
    GroupsOK b.prompt b.size groups ∧ 0 < b.size := by
  have hok := groupsOK_range b.prompt b.size
  unfold findPromptGroups at h
  simp only at h
  split_ifs at h with hnil
  obtain ⟨rfl, -⟩ := Prod.mk.inj (Option.some.inj h)
  refine ⟨hok, pos_of_ne_zero fun hzero => ?_⟩
  exact hnil (by simp [hzero])

end AddSample

namespace GroupsOK

variable {ι : Type} {prompts : Nat → List ι} {n : Nat} {groups : List (List Nat)}

theorem flatten_perm (h : GroupsOK prompts n groups) : groups.flatten.Perm (List.range n) := by
  rw [perm_ext_iff_of_nodup h.nodup nodup_range]
  intro i
  rw [h.mem, mem_range]

theorem length_flatten (h : GroupsOK prompts n groups) : groups.flatten.length = n := by
  rw [h.flatten_perm.length_eq, length_range]

/-- The samples before the first sample of a group all are in earlier groups. -/
theorem head_le (h : GroupsOK prompts n groups) {k : Nat} {group : List Nat}
    (hk : groups[k]? = some group) : group.headD 0 ≤ (groups.take k).flatten.length := by
  have hgroup : group ∈ groups := mem_of_getElem? hk
  have hsub : List.range (group.headD 0) ⊆ (groups.take k).flatten := by
    intro i hi
    rw [mem_range] at hi
    have hhead : group.headD 0 < n :=
      (h.mem _).mp (mem_flatten.mpr ⟨group, hgroup, headD_mem (h.nonempty group hgroup)⟩)
    obtain ⟨other, hother, hiother⟩ := mem_flatten.mp ((h.mem i).mpr (by omega))
    obtain ⟨m, hm⟩ := mem_iff_getElem?.mp hother
    -- the group of `i` starts at or before `i`, so it comes earlier
    have hle : other.headD 0 ≤ i := by
      cases other with
      | nil => simp at hiother
      | cons j rest =>
        rcases mem_cons.mp hiother with rfl | hirest
        · exact le_rfl
        · exact ((pairwise_cons.mp (h.sorted _ hother)).1 i hirest).le
    have hmk : m < k := by
      by_contra hge
      rcases Nat.eq_or_lt_of_le (le_of_not_gt hge) with heq | hlt
      · subst heq
        rw [hk, Option.some.injEq] at hm
        subst hm
        omega
      · have hkl : k < groups.length := (List.getElem?_eq_some_iff.mp hk).1
        have hml : m < groups.length := (List.getElem?_eq_some_iff.mp hm).1
        have hlt' := pairwise_iff_getElem.mp h.heads k m (by simpa using hkl)
          (by simpa using hml) hlt
        have hgk : groups[k] = group := (List.getElem?_eq_some_iff.mp hk).2
        have hgm : groups[m] = other := (List.getElem?_eq_some_iff.mp hm).2
        simp only [getElem_map, hgk, hgm] at hlt'
        omega
    refine mem_flatten.mpr ⟨other, ?_, hiother⟩
    exact mem_of_getElem? (by rw [getElem?_take_of_lt hmk, hm])
  have hcard := (subperm_of_subset nodup_range hsub).length_le
  rwa [length_range] at hcard

end GroupsOK

end ArcticPlatform.ZorroTrain
