import ArcticPlatform.Library.Bins
import Mathlib

/-!
# Microbatches of a pipeline call

A packed pipeline call spreads its rows over microbatches by their token counts:
each row, by decreasing count, goes to a group that has room for it, or opens a new
group.  Data-parallel ranks agree on the number of groups.

Main results:

- Theorem `ffdStep_invariant`: what one placement keeps.
- Theorem `microbatchGroups_spec`: every row is in one group, and when there is
  only one group.
-/

namespace ArcticPlatform.PipelinePacking

open Bins
open Option hiding mem_map mem_map_of_mem
open List hiding argmin

/-- The groups of `_ffd_allocate_inner` and their loads, least load first. -/
structure FfdState where
  groupIndices : List (List Nat)
  groupValues : List (Nat × Nat)

/-- A row opens a new group. -/
def FfdState.openGroup (s : FfdState) (idx v : Nat) : FfdState where
  groupIndices := s.groupIndices ++ [[idx]]
  groupValues := insort s.groupValues (v, s.groupIndices.length)

/-- A row joins the group at position `j` of the loads. -/
def FfdState.joinGroup (s : FfdState) (idx v j load group : Nat) : FfdState where
  groupIndices := s.groupIndices.modify group (· ++ [idx])
  groupValues := insort (s.groupValues.eraseIdx j) (load + v, group)

/-- The loop body of `_ffd_allocate_inner`. -/
def ffdStep (values : List Nat) (capacity minGroups : Nat) (s : FfdState) (idx : Nat) :
    Option FfdState := do
  let v ← values[idx]?
  if s.groupValues.length < minGroups ∨ ∀ least ∈ s.groupValues.head?, capacity < least.1 + v then
    some (s.openGroup idx v)
  else
    let i := bisectRight s.groupValues (capacity - v, values.length)
    let lens := (s.groupValues.take i).map fun entry => (s.groupIndices.getD entry.2 []).length
    let j ← argmin lens
    let entry ← s.groupValues[j]?
    some (s.joinGroup idx v j entry.1 entry.2)

/-- `_ffd_allocate_inner` on the order that `np.argsort(-values)` gives. -/
def ffdAllocateInner (values : List Nat) (capacity minGroups : Nat) (order : List Nat) :
    Option (List (List Nat)) :=
  (order.foldlM (ffdStep values capacity minGroups) ⟨[], []⟩).map (·.groupIndices)

section Allocate

variable (argsort : List Int → List Nat)

/-- `_ffd_allocate` with a divisor of one. -/
def ffdAllocate (values : List Nat) (capacity minGroups : Nat) : Option (List (List Nat)) :=
  if ∃ v ∈ values, capacity < v then none
  else if values.length < minGroups then none
  else ffdAllocateInner values capacity minGroups (argsort (values.map fun v : Nat => -(v : Int)))

/-- `_allocate_balanced_mbs`. -/
def allocateBalancedMbs (capacity nMbs : Nat) (lens : List Nat) : Option (List (List Nat)) :=
  (ffdAllocate argsort lens capacity nMbs).map fun groups =>
    (groups.map (·.mergeSort)).mergeSort

/-- The groups of `split_padded_tensor_dict_into_mb_list`; `others` are the counts that
the other ranks have gathered. -/
def microbatchGroups (capacity : Nat) (others lens : List Nat) : Option (List (List Nat)) := do
  let groups ← allocateBalancedMbs argsort capacity 1 lens
  let maxNMbs := others.foldl max groups.length
  if maxNMbs ≠ groups.length then allocateBalancedMbs argsort capacity maxNMbs lens
  else some groups

end Allocate

/-! ## The loop -/

/-- The tokens of a group. -/
def groupLoad (values : List Nat) (group : List Nat) : Nat :=
  (group.map fun idx => values.getD idx 0).sum

/-- What the groups and the loads say about the rows that are placed. -/
structure FfdState.Placed (values : List Nat) (capacity minGroups : Nat) (gone : List Nat)
    (s : FfdState) : Prop where
  perm : s.groupIndices.flatten.Perm gone
  nonempty : ∀ g ∈ s.groupIndices, g ≠ []
  ids : (s.groupValues.map (·.2)).Perm (range s.groupIndices.length)
  load_eq : ∀ entry ∈ s.groupValues, entry.1 = groupLoad values (s.groupIndices.getD entry.2 [])
  load_le : ∀ entry ∈ s.groupValues, entry.1 ≤ capacity
  count_le : s.groupIndices.length ≤ gone.length
  count_ge : min minGroups gone.length ≤ s.groupIndices.length

section Loop

variable {values : List Nat} {capacity minGroups : Nat} {gone : List Nat} {s s' : FfdState}
  {idx v : Nat}

section

variable (h : s.Placed values capacity minGroups gone)
include h

theorem FfdState.Placed.length_eq : s.groupValues.length = s.groupIndices.length := by
  simpa using h.ids.length_eq

theorem FfdState.Placed.openGroup (hv : values[idx]? = some v) (hle : v ≤ capacity) :
    (s.openGroup idx v).Placed values capacity minGroups (gone ++ [idx]) := by
  have hmem : ∀ entry, entry ∈ (s.openGroup idx v).groupValues ↔
      entry = (v, s.groupIndices.length) ∨ entry ∈ s.groupValues :=
    fun entry => (insort_perm _ _).mem_iff.trans mem_cons
  constructor
  · simpa [FfdState.openGroup] using h.perm.append_right [idx]
  · intro g hg
    rcases mem_append.mp hg with hold | hnew
    · exact h.nonempty g hold
    · rw [mem_singleton.mp hnew]
      exact cons_ne_nil _ _
  · have hids := (insort_perm s.groupValues (v, s.groupIndices.length)).map (·.2)
    rw [FfdState.openGroup, length_append, length_singleton, range_succ]
    refine hids.trans ?_
    rw [map_cons]
    exact (h.ids.cons _).trans (perm_append_singleton _ _).symm
  · intro entry hentry
    rcases (hmem entry).mp hentry with rfl | hold
    · simp [FfdState.openGroup, groupLoad, getD_eq_getElem?_getD, hv]
    · have hlt : entry.2 < s.groupIndices.length := by
        have := h.ids.mem_iff.mp (mem_map_of_mem hold)
        simpa using this
      rw [h.load_eq entry hold]
      simp [FfdState.openGroup, getD_eq_getElem?_getD, getElem?_append_left hlt]
  · intro entry hentry
    rcases (hmem entry).mp hentry with rfl | hold
    · exact hle
    · exact h.load_le entry hold
  · simpa [FfdState.openGroup] using h.count_le
  · have := h.count_ge
    simp only [FfdState.openGroup, length_append, length_singleton]
    omega

/-- Joining a group that has room. -/
theorem FfdState.Placed.joinGroup (hv : values[idx]? = some v) {j load group : Nat}
    (hentry : s.groupValues[j]? = some (load, group)) (hle : load + v ≤ capacity)
    (hmin : minGroups ≤ s.groupIndices.length) :
    (s.joinGroup idx v j load group).Placed values capacity minGroups (gone ++ [idx]) := by
  obtain ⟨hj, hget⟩ := List.getElem?_eq_some_iff.mp hentry
  have herase : (s.groupValues).Perm ((load, group) :: s.groupValues.eraseIdx j) := by
    rw [← hget]
    exact (getElem_cons_eraseIdx_perm hj).symm
  have hgroup : group < s.groupIndices.length := by
    have := h.ids.mem_iff.mp (mem_map_of_mem (mem_of_getElem? hentry))
    simpa using this
  have hmem : ∀ entry, entry ∈ (s.joinGroup idx v j load group).groupValues ↔
      entry = (load + v, group) ∨ entry ∈ s.groupValues.eraseIdx j :=
    fun entry => (insort_perm _ _).mem_iff.trans mem_cons
  -- the other loads belong to other groups
  have hne : ∀ entry ∈ s.groupValues.eraseIdx j, entry.2 ≠ group := by
    intro entry hin heq
    have hnodup := (herase.map (·.2)).nodup (h.ids.nodup_iff.mpr nodup_range)
    rw [map_cons, nodup_cons] at hnodup
    exact hnodup.1 (mem_map.mpr ⟨entry, hin, heq⟩)
  constructor
  · exact (flatten_modify_perm hgroup [idx]).trans (h.perm.append_right [idx])
  · intro g hg
    obtain ⟨k, hk⟩ := mem_iff_getElem?.mp hg
    rw [FfdState.joinGroup, getElem?_modify, Option.map_eq_map, map_eq_some_iff] at hk
    obtain ⟨old, hold, rfl⟩ := hk
    have hne := h.nonempty old (mem_of_getElem? hold)
    split_ifs
    · simp
    · exact hne
  · have hids := (insort_perm (s.groupValues.eraseIdx j) (load + v, group)).map (·.2)
    rw [FfdState.joinGroup, length_modify]
    refine hids.trans ?_
    rw [map_cons]
    exact (herase.map (·.2)).symm.trans h.ids
  · intro entry hin
    rcases (hmem entry).mp hin with rfl | hold
    · have hload := h.load_eq _ (mem_of_getElem? hentry)
      dsimp only at hload
      simp [FfdState.joinGroup, groupLoad, getD_eq_getElem?_getD, hgroup, hv, hload]
    · have hother := h.load_eq entry (herase.mem_iff.mpr (mem_cons_of_mem _ hold))
      rw [hother]
      simp [FfdState.joinGroup, getD_eq_getElem?_getD, (hne entry hold).symm]
  · intro entry hin
    rcases (hmem entry).mp hin with rfl | hold
    · exact hle
    · exact h.load_le entry (herase.mem_iff.mpr (mem_cons_of_mem _ hold))
  · have := h.count_le
    simp only [FfdState.joinGroup, length_modify, length_append]
    omega
  · simp only [FfdState.joinGroup, length_modify]
    omega

/-- One placement succeeds and keeps the invariant. -/
theorem ffdStep_invariant (hv : values[idx]? = some v) (hle : v ≤ capacity)
    (hgone : gone.length < values.length) :
    ∃ s', ffdStep values capacity minGroups s idx = some s' ∧
      s'.Placed values capacity minGroups (gone ++ [idx]) := by
  unfold ffdStep
  rw [hv]
  dsimp only [bind_eq_bind, bind_some]
  split_ifs with hopen
  · exact ⟨_, rfl, h.openGroup hv hle⟩
  push Not at hopen
  obtain ⟨hcount, least, hhead, hroom⟩ := hopen
  rw [h.length_eq] at hcount
  obtain ⟨tail, htail⟩ : ∃ tail, s.groupValues = least :: tail :=
    ⟨_, (cons_head?_tail (by simpa using hhead)).symm⟩
  -- the least load leaves room, so there is a candidate
  have hpair : pairLe least (capacity - v, values.length) = true := by
    have hid : least.2 < s.groupIndices.length := by
      have := h.ids.mem_iff.mp (mem_map_of_mem (mem_of_head? hhead))
      simpa using this
    have := h.count_le
    simp only [pairLe, Bool.or_eq_true, Bool.and_eq_true, decide_eq_true_eq]
    omega
  have hpos : 0 < bisectRight s.groupValues (capacity - v, values.length) := by
    rw [htail]
    exact bisectRight_cons_pos hpair
  have hnonempty : ((s.groupValues.take (bisectRight s.groupValues (capacity - v, values.length))).map
      fun entry => (s.groupIndices.getD entry.2 []).length) ≠ [] := by
    simp only [ne_eq, map_eq_nil_iff, take_eq_nil_iff, not_or]
    exact ⟨by omega, by simp [htail]⟩
  obtain ⟨j, hj, hargmin⟩ := argmin_isSome hnonempty
  rw [length_map, length_take] at hj
  obtain ⟨⟨load, group⟩, hentry⟩ : ∃ entry, s.groupValues[j]? = some entry :=
    ⟨_, getElem?_eq_getElem (by omega)⟩
  have hlt : j < bisectRight s.groupValues (capacity - v, values.length) := by omega
  have hfit : load + v ≤ capacity := by
    have hle := pairLe_of_lt_bisectRight hlt hentry
    simp only [pairLe, Bool.or_eq_true, Bool.and_eq_true, decide_eq_true_eq] at hle
    omega
  rw [hargmin, bind_some, hentry, bind_some]
  exact ⟨_, rfl, h.joinGroup hv hentry hfit hcount⟩

end

theorem foldlM_ffdStep {order : List Nat}
    (hle : ∀ v ∈ values, v ≤ capacity) (horder : ∀ idx ∈ order, idx < values.length)
    (hlength : gone.length + order.length ≤ values.length)
    (h : s.Placed values capacity minGroups gone) :
    ∃ s', order.foldlM (ffdStep values capacity minGroups) s = some s' ∧
      s'.Placed values capacity minGroups (gone ++ order) := by
  induction order generalizing gone s with
  | nil => exact ⟨s, rfl, by simpa using h⟩
  | cons idx order ih =>
    obtain ⟨v, hv⟩ : ∃ v, values[idx]? = some v :=
      ⟨_, getElem?_eq_getElem (horder idx mem_cons_self)⟩
    rw [length_cons] at hlength
    obtain ⟨s₁, hs₁, hplaced⟩ := ffdStep_invariant h hv (hle v (mem_of_getElem? hv)) (by omega)
    obtain ⟨s', hs', hplaced'⟩ := ih (fun i hi => horder i (mem_cons_of_mem _ hi))
      (by simp; omega) hplaced
    refine ⟨s', ?_, by simpa using hplaced'⟩
    rw [foldlM_cons, hs₁]
    exact hs'

theorem groupLoad_perm {g g' : List Nat} (h : g.Perm g') :
    groupLoad values g = groupLoad values g' := (h.map _).sum_eq

theorem groupLoad_append (g g' : List Nat) :
    groupLoad values (g ++ g') = groupLoad values g + groupLoad values g' := by
  simp [groupLoad]

theorem groupLoad_range : groupLoad values (range values.length) = values.sum := by
  have hmap : (range values.length).map (fun idx => values.getD idx 0) = values := by
    apply ext_getElem
    · simp
    · intro i h1 h2
      simp [getD_eq_getElem?_getD, getElem?_eq_getElem h2]
  rw [groupLoad, hmap]

theorem FfdState.Placed.load_single (h : s.Placed values capacity minGroups gone)
    (hone : s.groupIndices.length = 1) {entry : Nat × Nat} (hentry : entry ∈ s.groupValues) :
    entry.1 = groupLoad values gone := by
  obtain ⟨g, hg⟩ := List.length_eq_one_iff.mp hone
  have hid : entry.2 = 0 := by
    have := h.ids.mem_iff.mp (mem_map_of_mem hentry)
    simpa [hone] using this
  have hperm : g.Perm gone := by simpa [hg] using h.perm
  rw [h.load_eq entry hentry, hid, hg, ← groupLoad_perm hperm]
  rfl

theorem ffdStep_single (h : s.Placed values capacity 1 gone) (hone : s.groupIndices.length ≤ 1)
    (hroom : groupLoad values (gone ++ [idx]) ≤ capacity)
    (hstep : ffdStep values capacity 1 s idx = some s') : s'.groupIndices.length ≤ 1 := by
  unfold ffdStep at hstep
  obtain ⟨v, hv, hstep⟩ := bind_eq_some_iff.mp hstep
  split_ifs at hstep with hopen
  · cases hstep
    have hempty : s.groupValues = [] := by
      rcases hopen with hlt | hfull
      · exact eq_nil_of_length_eq_zero (by omega)
      · cases hvalues : s.groupValues with
        | nil => rfl
        | cons least tail =>
          have hmem : least ∈ s.groupValues := by simp [hvalues]
          have hcount : s.groupIndices.length = 1 := by
            have hlength := h.length_eq
            rw [hvalues, length_cons] at hlength
            omega
          have hload := h.load_single hcount hmem
          have hfull := hfull least (by simp [hvalues])
          rw [groupLoad_append] at hroom
          have hlast : groupLoad values [idx] = v := by
            simp [groupLoad, getD_eq_getElem?_getD, hv]
          omega
    have hzero := h.length_eq
    rw [hempty, length_nil] at hzero
    simp [FfdState.openGroup, ← hzero]
  · obtain ⟨j, -, hstep⟩ := bind_eq_some_iff.mp hstep
    obtain ⟨entry, -, hstep⟩ := bind_eq_some_iff.mp hstep
    cases hstep
    simpa [FfdState.joinGroup] using hone

theorem foldlM_ffdStep_single {order : List Nat} (hle : ∀ v ∈ values, v ≤ capacity)
    (horder : ∀ idx ∈ order, idx < values.length)
    (hlength : gone.length + order.length ≤ values.length)
    (h : s.Placed values capacity 1 gone) (hone : s.groupIndices.length ≤ 1)
    (hroom : groupLoad values (gone ++ order) ≤ capacity)
    (hrun : order.foldlM (ffdStep values capacity 1) s = some s') :
    s'.groupIndices.length ≤ 1 := by
  induction order generalizing gone s with
  | nil =>
    cases hrun
    exact hone
  | cons idx order ih =>
    obtain ⟨s₁, hs₁, hrun⟩ := bind_eq_some_iff.mp hrun
    rw [length_cons] at hlength
    obtain ⟨v, hv⟩ : ∃ v, values[idx]? = some v :=
      ⟨_, getElem?_eq_getElem (horder idx mem_cons_self)⟩
    obtain ⟨s₂, hs₂, hplaced⟩ := ffdStep_invariant h hv (hle v (mem_of_getElem? hv)) (by omega)
    obtain rfl : s₁ = s₂ := some.inj (hs₁.symm.trans hs₂)
    rw [← singleton_append, ← append_assoc] at hroom
    have hroom₁ : groupLoad values (gone ++ [idx]) ≤ capacity := by
      rw [groupLoad_append] at hroom
      omega
    apply ih (fun i hi => horder i (mem_cons_of_mem _ hi)) (by simp; omega) hplaced
      (ffdStep_single h hone hroom₁ hs₁) hroom hrun

end Loop

/-! ## The groups of a call -/

section Groups

variable {argsort : List Int → List Nat} {capacity : Nat} {lens : List Nat}

/-- What an allocation promises. -/
structure Allocation (capacity minGroups : Nat) (lens : List Nat) (groups : List (List Nat)) :
    Prop where
  perm : groups.flatten.Perm (range lens.length)
  nonempty : ∀ g ∈ groups, g ≠ []
  count_ge : minGroups ≤ groups.length
  count_le : groups.length ≤ lens.length
  single : groups.length = 1 → lens.sum ≤ capacity
  one_of_fit : minGroups = 1 → lens.sum ≤ capacity → groups.length = 1

theorem placed_empty (values : List Nat) (capacity minGroups : Nat) :
    FfdState.Placed values capacity minGroups [] ⟨[], []⟩ := by
  constructor <;> simp

/-- First-fit allocation of rows that fit on their own. -/
theorem ffdAllocate_spec (hargsort : ∀ keys, (argsort keys).Perm (range keys.length))
    {minGroups : Nat} (hle : ∀ v ∈ lens, v ≤ capacity) (hcount : minGroups ≤ lens.length) :
    ∃ groups, ffdAllocate argsort lens capacity minGroups = some groups ∧
      Allocation capacity minGroups lens groups := by
  have horder := hargsort (lens.map fun v : Nat => -(v : Int))
  rw [length_map] at horder
  have hidx : ∀ idx ∈ argsort (lens.map fun v : Nat => -(v : Int)), idx < lens.length :=
    fun idx hidx => mem_range.mp (horder.mem_iff.mp hidx)
  have hlength : (argsort (lens.map fun v : Nat => -(v : Int))).length = lens.length := by
    rw [horder.length_eq, length_range]
  obtain ⟨s, hrun, hplaced⟩ := foldlM_ffdStep hle hidx (by simp [hlength])
    (placed_empty lens capacity minGroups)
  rw [nil_append] at hplaced
  have hfits : ¬∃ v ∈ lens, capacity < v := by
    push Not
    exact hle
  refine ⟨s.groupIndices, ?_, hplaced.perm.trans horder, hplaced.nonempty, ?_, hlength ▸ hplaced.count_le, ?_, ?_⟩
  · rw [ffdAllocate, if_neg hfits, if_neg (Nat.not_lt.mpr hcount), ffdAllocateInner, hrun, map_some]
  · have := hplaced.count_ge
    omega
  · intro hone
    obtain ⟨entry, hentry⟩ : ∃ entry, entry ∈ s.groupValues := by
      apply exists_mem_of_length_pos
      rw [hplaced.length_eq]
      omega
    rw [← groupLoad_range, ← groupLoad_perm horder, ← hplaced.load_single hone hentry]
    exact hplaced.load_le entry hentry
  · intro hone hfit
    subst hone
    have hle1 := foldlM_ffdStep_single hle hidx (by simp [hlength]) (placed_empty lens capacity 1)
      (by simp) (by rwa [nil_append, groupLoad_perm horder, groupLoad_range]) hrun
    have := hplaced.count_ge
    omega

/-- Sorting the groups keeps the promises. -/
theorem allocateBalancedMbs_spec
    (hargsort : ∀ keys, (argsort keys).Perm (range keys.length)) {nMbs : Nat}
    (hle : ∀ v ∈ lens, v ≤ capacity) (hcount : nMbs ≤ lens.length) :
    ∃ groups, allocateBalancedMbs argsort capacity nMbs lens = some groups ∧
      Allocation capacity nMbs lens groups ∧ ∀ g ∈ groups, g.Pairwise (· ≤ ·) := by
  obtain ⟨groups, hgroups, halloc⟩ := ffdAllocate_spec hargsort hle hcount
  have hperm : ((groups.map (·.mergeSort)).mergeSort).flatten.Perm groups.flatten := by
    refine ((mergeSort_perm _ _).flatten).trans ?_
    rw [← flatMap_def, flatten_eq_flatMap]
    exact Perm.flatMap_left _ fun g _ => mergeSort_perm g _
  have hmem : ∀ g ∈ (groups.map (·.mergeSort)).mergeSort, ∃ old ∈ groups, old.mergeSort = g := by
    intro g hg
    exact mem_map.mp (mem_mergeSort.mp hg)
  refine ⟨_, by rw [allocateBalancedMbs, hgroups, map_some], ⟨hperm.trans halloc.perm, ?_, ?_,
    ?_, ?_, ?_⟩, ?_⟩
  · intro g hg
    obtain ⟨old, hold, rfl⟩ := hmem g hg
    exact fun hnil => halloc.nonempty old hold (by simpa using congrArg List.length hnil)
  · simpa using halloc.count_ge
  · simpa using halloc.count_le
  · simpa using halloc.single
  · simpa using halloc.one_of_fit
  · intro g hg
    obtain ⟨old, -, rfl⟩ := hmem g hg
    have htrans : ∀ a b c : Nat, decide (a ≤ b) → decide (b ≤ c) → decide (a ≤ c) := by
      intro a b c hab hbc
      simp at *
      omega
    have htotal : ∀ a b : Nat, (decide (a ≤ b) || decide (b ≤ a)) = true := by
      intro a b
      simp
      omega
    simpa using pairwise_mergeSort htrans htotal old

theorem le_foldl_max (l : List Nat) (n : Nat) : n ≤ l.foldl max n := by
  induction l generalizing n with
  | nil => exact le_refl n
  | cons a l ih => exact (le_max_left n a).trans (ih (max n a))

theorem foldl_max_le {l : List Nat} {n b : Nat} : l.foldl max n ≤ b ↔ n ≤ b ∧ ∀ a ∈ l, a ≤ b := by
  induction l generalizing n with
  | nil => simp
  | cons a l ih =>
    rw [foldl_cons, ih, Nat.max_le, forall_mem_cons, and_assoc]

/-- The rows of a call are spread over groups, and stay together exactly when they fit one
microbatch and no other rank has more than one. -/
theorem microbatchGroups_spec
    (hargsort : ∀ keys, (argsort keys).Perm (range keys.length)) {others : List Nat}
    (hle : ∀ v ∈ lens, v ≤ capacity) (hpos : 0 < lens.length)
    (hothers : ∀ n ∈ others, n ≤ lens.length) :
    ∃ groups, microbatchGroups argsort capacity others lens = some groups ∧
      groups.flatten.Perm (range lens.length) ∧ (∀ g ∈ groups, g ≠ [] ∧ g.Pairwise (· ≤ ·)) ∧
      (groups.length = 1 ↔ lens.sum ≤ capacity ∧ ∀ n ∈ others, n ≤ 1) := by
  obtain ⟨groups, hgroups, halloc, hsorted⟩ := allocateBalancedMbs_spec hargsort hle hpos
  rw [microbatchGroups, hgroups]
  dsimp only [bind_eq_bind, bind_some]
  have hsingle : groups.length = 1 ↔ lens.sum ≤ capacity := ⟨halloc.single, halloc.one_of_fit rfl⟩
  have hle_max := le_foldl_max others groups.length
  by_cases hsame : others.foldl max groups.length = groups.length
  · refine ⟨groups, if_neg (not_not.mpr hsame), halloc.perm,
      fun g hg => ⟨halloc.nonempty g hg, hsorted g hg⟩, ?_⟩
    rw [hsingle]
    constructor
    · intro hfit
      refine ⟨hfit, ?_⟩
      have hone : others.foldl max groups.length ≤ 1 := by
        rw [hsame, hsingle.mpr hfit]
      exact (foldl_max_le.mp hone).2
    · exact fun h => h.1
  · -- another rank has more groups: one allocation more, with at least as many groups
    have hlarge : 1 < others.foldl max groups.length := by
      have := halloc.count_ge
      omega
    have hmax : others.foldl max groups.length ≤ lens.length := by
      rw [foldl_max_le]
      exact ⟨halloc.count_le, hothers⟩
    obtain ⟨groups', hgroups', halloc', hsorted'⟩ := allocateBalancedMbs_spec hargsort hle hmax
    refine ⟨groups', (if_pos hsame).trans hgroups', halloc'.perm,
      fun g hg => ⟨halloc'.nonempty g hg, hsorted' g hg⟩, ?_⟩
    have hcount := halloc'.count_ge
    constructor
    · intro hone
      omega
    · intro h
      have hone : others.foldl max groups.length ≤ 1 := foldl_max_le.mpr ⟨(hsingle.mpr h.1).le, h.2⟩
      omega

end Groups

end ArcticPlatform.PipelinePacking
