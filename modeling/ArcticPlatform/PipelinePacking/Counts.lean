import ArcticPlatform.Library.FewestFirst
import ArcticPlatform.Packing.Groups
import ArcticPlatform.PipelinePacking.Microbatches

/-!
# Counts of microbatches on several ranks

`_ffd_allocate` opens at least a minimum number of groups, and tries again with more of them
until their number is a multiple of a divisor.  The ranks then exchange their counts, and those
below the largest allocate once more with that one as the minimum.

Main results:

- Theorem `ffdAllocate_allocated`: what a returned allocation promises.
- Theorem `foldlM_follows`: the loop fills its groups as an abstract filling does its bins.
- Theorem `countsAgree_iff`: when the second allocations meet the exchanged count.
-/

namespace ArcticPlatform.PipelinePacking.Divided

open Bins FewestFirst
open Option hiding max_eq_left max_eq_right mem_map mem_map_of_mem
open List hiding argmin

/-- What `_ffd_allocate` raises. -/
inductive AllocateError where
  | valuesExceedCapacity (capacity : Nat)
  | tooFewValues (minGroups : Nat)
  | divisorConstraint
  | indexError
  | zeroDivision
  | noCapacity
  deriving DecidableEq

section Model

variable (argsort : List Int → List Nat)

/-- The order in which the rows are placed, `np.argsort(-values)`. -/
def valueIndices (values : List Nat) : List Nat := argsort (values.map fun v : Nat => -(v : Int))

/-- The loop of `_ffd_allocate`.  The minimum grows until it is above the number of rows. -/
def ffdLoop (values : List Nat) (capacity nGroupsDivisor minGroups : Nat) :
    Except AllocateError (List (List Nat)) :=
  -- the first row looks at the first of no groups
  if minGroups = 0 ∧ values ≠ [] then .error .indexError
  else
    match ffdAllocateInner values capacity minGroups (valueIndices argsort values) with
    | none => .error .indexError
    | some res =>
      if nGroupsDivisor = 0 then .error .zeroDivision
      else if res.length % nGroupsDivisor = 0 then .ok res
      else if values.length < minGroups + (nGroupsDivisor - minGroups % nGroupsDivisor) then
        .error .divisorConstraint
      else
        ffdLoop values capacity nGroupsDivisor
          (minGroups + (nGroupsDivisor - minGroups % nGroupsDivisor))
termination_by values.length + 1 - minGroups
decreasing_by
  have := Nat.mod_lt minGroups (pos_of_ne_zero ‹nGroupsDivisor ≠ 0›)
  omega

/-- `_ffd_allocate`. -/
def ffdAllocate (values : List Nat) (capacity : Nat) (minGroups : Option Nat)
    (nGroupsDivisor : Nat) : Except AllocateError (List (List Nat)) :=
  let minGroups := match minGroups with
    | none => nGroupsDivisor
    | some m => if m < nGroupsDivisor then nGroupsDivisor else m
  if ∃ v ∈ values, capacity < v then .error (.valuesExceedCapacity capacity)
  else if values.length < minGroups then .error (.tooFewValues minGroups)
  else ffdLoop argsort values capacity nGroupsDivisor minGroups

/-- `DEFAULT_MAX_TOKENS_PER_MB`. -/
def defaultMaxTokensPerMb : Nat := 10240

/-- `MicroBatchSpec`. -/
structure MicroBatchSpec where
  nMbs : Option Nat := some 1
  granularity : Nat := 1
  maxTokensPerMb : Option Nat := none
  nMbsDivisor : Nat := 1

/-- `mb_spec.n_mbs or 1`. -/
def MicroBatchSpec.minGroups (mbSpec : MicroBatchSpec) : Nat :=
  match mbSpec.nMbs with
  | none => 1
  | some n => if n = 0 then 1 else n

/-- `_allocate_balanced_mbs`. -/
def allocateBalancedMbs (mbSpec : MicroBatchSpec) (lens : List Nat) :
    Except AllocateError (List (List Nat)) :=
  match mbSpec.maxTokensPerMb with
  | none => .error .noCapacity
  | some capacity => do
    let groups ← ffdAllocate argsort lens capacity (some mbSpec.minGroups) mbSpec.nMbsDivisor
    .ok (Packing.sortGroups groups)

/-- The default for a capacity that is not given. -/
def MicroBatchSpec.withCapacity (mbSpec : MicroBatchSpec) : MicroBatchSpec :=
  if mbSpec.maxTokensPerMb = none then
    { mbSpec with maxTokensPerMb := some defaultMaxTokensPerMb }
  else mbSpec

/-- The allocation of a rank in `split_padded_tensor_dict_into_mb_list`; `allNMbs` are
the counts that were gathered, if there are other ranks. -/
def groupIndices (mbSpec : MicroBatchSpec) (inputLens : List Nat) (allNMbs : Option (List Nat)) :
    Except AllocateError (List (List Nat)) := do
  let groups ← allocateBalancedMbs argsort mbSpec.withCapacity inputLens
  match allNMbs with
  | none => .ok groups
  | some counts =>
    let maxNMbs := counts.foldl max 0
    if maxNMbs ≠ groups.length then
      allocateBalancedMbs argsort { mbSpec.withCapacity with nMbs := some maxNMbs } inputLens
    else .ok groups

end Model

/-! ## One packing -/

section Packing

variable {argsort : List Int → List Nat} {values : List Nat} {capacity minGroups d : Nat}
  {order gone : List Nat} {s : FfdState}

theorem exists_placed (minGroups : Nat) (hle : ∀ v ∈ values, v ≤ capacity)
    (horder : ∀ idx ∈ order, idx < values.length) (hlength : order.length ≤ values.length) :
    ∃ s, order.foldlM (ffdStep values capacity minGroups) ⟨[], []⟩ = some s ∧
      s.Placed values capacity minGroups order := by
  simpa using foldlM_ffdStep hle horder (by simpa using hlength)
    (placed_empty values capacity minGroups)

/-- The number of rows and the load of a group. -/
def groupBin (groupIndices : List (List Nat)) (entry : Nat × Nat) : Nat × Nat :=
  ((groupIndices.getD entry.2 []).length, entry.1)

/-- The groups are the bins of an abstract filling. -/
structure Follows (bins : List (Nat × Nat)) (s : FfdState) : Prop where
  sorted : Sorted s.groupValues
  perm : bins.Perm (s.groupValues.map (groupBin s.groupIndices))

variable {bins : List (Nat × Nat)} {idx v : Nat}

theorem Follows.openGroup (h : Follows bins s) (hplaced : s.Placed values capacity minGroups gone) :
    Follows ((1, v) :: bins) (s.openGroup idx v) := by
  refine ⟨h.sorted.insort _, ?_⟩
  have hold : s.groupValues.map (groupBin (s.groupIndices ++ [[idx]])) =
      s.groupValues.map (groupBin s.groupIndices) := by
    refine map_congr_left fun entry hentry => ?_
    have hlt := mem_range.mp (hplaced.ids.mem_iff.mp (mem_map_of_mem hentry))
    simp [groupBin, getD_eq_getElem?_getD, getElem?_append_left hlt]
  have hnew : groupBin (s.groupIndices ++ [[idx]]) (v, s.groupIndices.length) = (1, v) := by
    simp [groupBin]
  have hmap := (insort_perm s.groupValues (v, s.groupIndices.length)).map
    (groupBin (s.groupIndices ++ [[idx]]))
  rw [map_cons, hold, hnew] at hmap
  exact (h.perm.cons _).trans hmap.symm

theorem Follows.joinGroup (h : Follows bins s) (hplaced : s.Placed values capacity minGroups gone)
    {j load group : Nat} (hentry : s.groupValues[j]? = some (load, group)) :
    let bin := groupBin s.groupIndices (load, group)
    Follows ((bin.1 + 1, bin.2 + v) :: bins.erase bin) (s.joinGroup idx v j load group) := by
  intro bin
  obtain ⟨hj, hget⟩ := List.getElem?_eq_some_iff.mp hentry
  refine ⟨(h.sorted.eraseIdx j).insort _, ?_⟩
  have herase : (s.groupValues).Perm ((load, group) :: s.groupValues.eraseIdx j) := by
    rw [← hget]
    exact (getElem_cons_eraseIdx_perm hj).symm
  have hgroup : group < s.groupIndices.length :=
    mem_range.mp (hplaced.ids.mem_iff.mp (mem_map_of_mem (mem_of_getElem? hentry)))
  -- the other groups keep their rows
  have hnodup := (herase.map (·.2)).nodup (hplaced.ids.nodup_iff.mpr nodup_range)
  rw [map_cons, nodup_cons] at hnodup
  have hold : (s.groupValues.eraseIdx j).map (groupBin (s.groupIndices.modify group (· ++ [idx]))) =
      (s.groupValues.eraseIdx j).map (groupBin s.groupIndices) := by
    refine map_congr_left fun entry hmem => ?_
    have hne : group ≠ entry.2 := fun heq => hnodup.1 (mem_map.mpr ⟨entry, hmem, heq.symm⟩)
    simp [groupBin, getD_eq_getElem?_getD, hne]
  have hnew : groupBin (s.groupIndices.modify group (· ++ [idx])) (load + v, group) =
      (bin.1 + 1, bin.2 + v) := by
    simp [groupBin, bin, getD_eq_getElem?_getD, hgroup]
  have hmap := (insort_perm (s.groupValues.eraseIdx j) (load + v, group)).map
    (groupBin (s.groupIndices.modify group (· ++ [idx])))
  rw [map_cons, hold, hnew] at hmap
  have hrest : (bins.erase bin).Perm ((s.groupValues.eraseIdx j).map (groupBin s.groupIndices)) := by
    have hbins := h.perm.trans (herase.map _)
    rw [map_cons] at hbins
    simpa [bin] using hbins.erase bin
  exact (hrest.cons _).trans hmap.symm

/-- The group that a row joins is the one with the fewest rows that has room. -/
theorem Follows.chosen (h : Follows bins s) (hplaced : s.Placed values capacity minGroups gone)
    (hv : v ≤ capacity) (hgone : gone.length < values.length) {j : Nat} {entry : Nat × Nat}
    (hargmin : argmin ((s.groupValues.take
      (bisectRight s.groupValues (capacity - v, values.length))).map fun entry =>
        (s.groupIndices.getD entry.2 []).length) = some j) (hentry : s.groupValues[j]? = some entry) :
    FewestFirst.chosen capacity v bins = some (groupBin s.groupIndices entry) := by
  set near := s.groupValues.take (bisectRight s.groupValues (capacity - v, values.length)) with hnear
  obtain ⟨rows, hrows, hleast⟩ := argmin_spec hargmin
  have hj : j < bisectRight s.groupValues (capacity - v, values.length) := by
    have := (List.getElem?_eq_some_iff.mp hrows).1
    simp only [hnear, length_map, length_take] at this
    omega
  have hrows' : (s.groupIndices.getD entry.2 []).length = rows := by
    rw [getElem?_map, hnear, getElem?_take_of_lt hj, hentry] at hrows
    exact some.inj hrows
  have hroom := pairLe_iff.mp (pairLe_of_lt_bisectRight hj hentry)
  have hmem := h.perm.mem_iff.mpr (mem_map_of_mem (mem_of_getElem? hentry))
  refine FewestFirst.chosen_eq hmem (by simp only [groupBin]; omega) fun other hother hotherRoom => ?_
  obtain ⟨x, hx, rfl⟩ := mem_map.mp (h.perm.mem_iff.mp hother)
  -- every group with room is among the candidates
  have hlt := mem_range.mp (hplaced.ids.mem_iff.mp (mem_map_of_mem hx))
  have hcount := hplaced.count_le
  have hxroom : pairLe x (capacity - v, values.length) = true := by
    simp only [groupBin] at hotherRoom
    rw [pairLe_iff]
    omega
  obtain ⟨k, hk⟩ := mem_iff_getElem?.mp (h.sorted.mem_take_bisectRight hx hxroom)
  have hless := hleast k (s.groupIndices.getD x.2 []).length (by rw [getElem?_map, hk]; rfl)
  rw [pairLe_iff]
  simp only [groupBin]
  rcases hless with hless | ⟨hsame, hjk⟩
  · omega
  · have hk' : s.groupValues[k]? = some x := by
      rw [getElem?_take] at hk
      split_ifs at hk
      exact hk
    have hload := h.sorted.load_le hjk hentry hk'
    omega

theorem ffdStep_follows (h : Follows bins s) (hplaced : s.Placed values capacity minGroups gone)
    (hv : values[idx]? = some v) (hle : v ≤ capacity) (hgone : gone.length < values.length)
    {s' : FfdState} (hstep : ffdStep values capacity minGroups s idx = some s') :
    Follows (FewestFirst.place capacity minGroups bins v) s' := by
  have hlength : bins.length = s.groupValues.length := by simpa using h.perm.length_eq
  unfold ffdStep at hstep
  rw [hv] at hstep
  dsimp only [bind_eq_bind, bind_some] at hstep
  split_ifs at hstep with hopen
  · cases hstep
    have hnone : (if bins.length < minGroups then none else FewestFirst.chosen capacity v bins) =
        none := by
      split_ifs with hfew
      · rfl
      · refine FewestFirst.chosen_none fun bin hbin => ?_
        obtain ⟨entry, hentry, rfl⟩ := mem_map.mp (h.perm.mem_iff.mp hbin)
        obtain ⟨k, hk⟩ := mem_iff_getElem?.mp hentry
        obtain ⟨least, hleast⟩ : ∃ least, s.groupValues[0]? = some least :=
          ⟨_, getElem?_eq_getElem (length_pos_of_mem hentry)⟩
        have hfull := (hopen.resolve_left (by omega)) least (by rwa [head?_eq_getElem?])
        have hload := h.sorted.load_le zero_le hleast hk
        simp only [groupBin]
        omega
    rw [FewestFirst.place, hnone]
    exact h.openGroup hplaced
  · obtain ⟨j, hargmin, hstep⟩ := bind_eq_some_iff.mp hstep
    obtain ⟨⟨load, group⟩, hentry, hstep⟩ := bind_eq_some_iff.mp hstep
    cases hstep
    push Not at hopen
    rw [FewestFirst.place, if_neg (by omega), h.chosen hplaced hle hgone hargmin hentry]
    exact h.joinGroup hplaced hentry

/-- The loop fills its groups as the abstract filling does its bins. -/
theorem foldlM_follows (hle : ∀ v ∈ values, v ≤ capacity)
    (horder : ∀ idx ∈ order, idx < values.length) (hlength : order.length ≤ values.length)
    (hrun : order.foldlM (ffdStep values capacity minGroups) ⟨[], []⟩ = some s) :
    Follows (FewestFirst.fill capacity minGroups (order.map (values.getD · 0))) s := by
  induction order using reverseRecOn generalizing s with
  | nil =>
    cases hrun
    exact ⟨List.Pairwise.nil, Perm.refl _⟩
  | append_singleton order idx ih =>
    have hprefix : ∀ i ∈ order, i < values.length := fun i hi =>
      horder i (mem_append_left _ hi)
    rw [length_append, length_singleton] at hlength
    obtain ⟨s₀, hs₀, hplaced⟩ := exists_placed minGroups hle hprefix (by omega)
    rw [foldlM_append, hs₀] at hrun
    have hstep : ffdStep values capacity minGroups s₀ idx = some s := by simpa using hrun
    have hlt := horder idx (by simp)
    have hv := getElem?_eq_getElem hlt
    rw [map_append, FewestFirst.fill, foldl_append]
    have hget : values.getD idx 0 = values[idx] := by rw [getD_eq_getElem?_getD, hv]; rfl
    rw [map_singleton, foldl_cons, foldl_nil, hget]
    exact ffdStep_follows (ih hprefix (by omega) hs₀) hplaced hv
      (hle _ (getElem_mem hlt)) (by omega) hstep

end Packing

/-! ## One rank -/

section Allocation

variable {argsort : List Int → List Nat} {values : List Nat} {capacity minGroups d : Nat}
  {s : FfdState} {gone : List Nat} {groups : List (List Nat)}

/-- What an allocation promises. -/
structure Allocated (values : List Nat) (capacity minGroups d : Nat) (groups : List (List Nat)) :
    Prop where
  rows : groups.flatten.Perm (range values.length)
  nonempty : ∀ g ∈ groups, g ≠ []
  within : ∀ g ∈ groups, groupLoad values g ≤ capacity
  count_ge : minGroups ≤ groups.length
  dvd : d ∣ groups.length

theorem load_le_of_placed (h : s.Placed values capacity minGroups gone) {g : List Nat}
    (hg : g ∈ s.groupIndices) : groupLoad values g ≤ capacity := by
  obtain ⟨i, hi⟩ := mem_iff_getElem?.mp hg
  obtain ⟨hlt, -⟩ := List.getElem?_eq_some_iff.mp hi
  obtain ⟨entry, hentry, hid⟩ := mem_map.mp (h.ids.mem_iff.mpr (mem_range.mpr hlt))
  have hload := h.load_eq entry hentry
  rw [hid, getD_eq_getElem?_getD, hi, getD_some] at hload
  rw [← hload]
  exact h.load_le entry hentry

variable (hargsort : ∀ keys, (argsort keys).Perm (range keys.length))

include hargsort

theorem valueIndices_perm (values : List Nat) :
    (valueIndices argsort values).Perm (range values.length) := by
  simpa [valueIndices] using hargsort (values.map fun v : Nat => -(v : Int))

theorem ffdAllocateInner_allocated (hle : ∀ v ∈ values, v ≤ capacity)
    (hcount : minGroups ≤ values.length) :
    ∃ groups, ffdAllocateInner values capacity minGroups (valueIndices argsort values) =
        some groups ∧ Allocated values capacity minGroups 1 groups := by
  have hperm := valueIndices_perm hargsort values
  have hlength : (valueIndices argsort values).length = values.length := by
    rw [hperm.length_eq, length_range]
  have horder : ∀ idx ∈ valueIndices argsort values, idx < values.length :=
    fun idx hidx => mem_range.mp (hperm.mem_iff.mp hidx)
  obtain ⟨s, hrun, hplaced⟩ := exists_placed minGroups hle horder hlength.le
  refine ⟨s.groupIndices, by rw [ffdAllocateInner, hrun, map_some], hplaced.perm.trans hperm,
    hplaced.nonempty, fun g hg => load_le_of_placed hplaced hg, ?_, one_dvd _⟩
  have := hplaced.count_ge
  omega

theorem ffdLoop_allocated (hle : ∀ v ∈ values, v ≤ capacity) (hcount : minGroups ≤ values.length)
    (hloop : ffdLoop argsort values capacity d minGroups = .ok groups) :
    Allocated values capacity minGroups d groups := by
  induction hmeasure : values.length - minGroups using Nat.strong_induction_on
    generalizing minGroups with
  | _ n ih =>
    obtain ⟨res, hres, hallocated⟩ := ffdAllocateInner_allocated hargsort hle hcount
    rw [ffdLoop, hres] at hloop
    dsimp only at hloop
    split_ifs at hloop with hzero hd hmod hmore
    · cases hloop
      exact { hallocated with dvd := Nat.dvd_of_mod_eq_zero hmod }
    · have hlt := Nat.mod_lt minGroups (pos_of_ne_zero hd)
      have hnext := ih _ (by omega) (not_lt.mp hmore) hloop rfl
      exact { hnext with count_ge := by have := hnext.count_ge; omega }

/-- A returned allocation shares out the rows within the capacity, with at least the minimum
number of groups and a multiple of the divisor. -/
theorem ffdAllocate_allocated {min : Option Nat}
    (halloc : ffdAllocate argsort values capacity min d = .ok groups) :
    Allocated values capacity (max d (min.getD 0)) d groups := by
  unfold ffdAllocate at halloc
  dsimp only at halloc
  split_ifs at halloc with hexceed hfew
  push Not at hexceed
  have hspec := ffdLoop_allocated hargsort hexceed (not_lt.mp hfew) halloc
  refine { hspec with count_ge := le_trans ?_ hspec.count_ge }
  cases min with
  | none => simp
  | some m =>
    simp only [getD_some]
    split_ifs <;> omega

end Allocation

/-! ## The number of groups -/

section Sorted

variable {argsort : List Int → List Nat} {values : List Nat} {capacity minGroups d : Nat}
  {groups : List (List Nat)}

/-- What `np.argsort` gives: every position once, by increasing keys, and ties in any order. -/
structure Sorts (argsort : List Int → List Nat) : Prop where
  perm : ∀ keys, (argsort keys).Perm (range keys.length)
  sorted : ∀ keys, ((argsort keys).map fun i => keys.getD i 0).Pairwise (· ≤ ·)

variable (hsorts : Sorts argsort)

include hsorts

/-- The rows are placed by decreasing length. -/
theorem map_valueIndices (values : List Nat) :
    (valueIndices argsort values).map (values.getD · 0) = values.insertionSort (· ≥ ·) := by
  have hperm := valueIndices_perm hsorts.perm values
  have hgetD : (range values.length).map (values.getD · 0) = values := by
    refine ext_getElem (by simp) fun i hi hi' => ?_
    simp [getD_eq_getElem?_getD, getElem?_eq_getElem hi']
  refine Perm.eq_of_pairwise (fun a b _ _ hab hba => le_antisymm hba hab) ?_
    (pairwise_insertionSort _ _)
    ((hperm.map _).trans ((Perm.of_eq hgetD).trans (perm_insertionSort _ _).symm))
  have hsorted := hsorts.sorted (values.map fun v : Nat => -(v : Int))
  rw [pairwise_map] at hsorted ⊢
  refine hsorted.imp_of_mem fun {i j} hi hj hle => ?_
  have hi := mem_range.mp (hperm.mem_iff.mp hi)
  have hj := mem_range.mp (hperm.mem_iff.mp hj)
  simp only [getD_eq_getElem?_getD, getElem?_map, getElem?_eq_getElem hi,
    getElem?_eq_getElem hj, map_some, getD_some] at hle ⊢
  omega

section

variable (hle : ∀ v ∈ values, v ≤ capacity)
include hle

theorem ffdAllocateInner_length
    (hinner : ffdAllocateInner values capacity minGroups (valueIndices argsort values) =
      some groups) : groups.length = binsUsed capacity minGroups values := by
  have hperm := valueIndices_perm hsorts.perm values
  have horder : ∀ idx ∈ valueIndices argsort values, idx < values.length :=
    fun idx hidx => mem_range.mp (hperm.mem_iff.mp hidx)
  have hlength : (valueIndices argsort values).length ≤ values.length := by
    rw [hperm.length_eq, length_range]
  obtain ⟨s, hrun, rfl⟩ := map_eq_some_iff.mp hinner
  obtain ⟨s', hrun', hplaced⟩ := exists_placed minGroups hle horder hlength
  obtain rfl : s = s' := some.inj (hrun.symm.trans hrun')
  have hfill := (foldlM_follows hle horder hlength hrun).perm.length_eq
  rw [map_valueIndices hsorts, length_map, hplaced.length_eq] at hfill
  exact hfill.symm

/-- The loop returns the least number of groups exactly when the abstract filling needs no more. -/
theorem ffdLoop_length (hpos : 0 < minGroups)
    (hcount : minGroups ≤ values.length) (hd : d ≠ 0) (hdvd : d ∣ minGroups) :
    (∃ groups, ffdLoop argsort values capacity d minGroups = .ok groups ∧
        groups.length = minGroups) ↔ binsUsed capacity minGroups values = minGroups := by
  obtain ⟨res, hres, hallocated⟩ := ffdAllocateInner_allocated hsorts.perm hle hcount
  have hge := hallocated.count_ge
  rw [← ffdAllocateInner_length hsorts hle hres, ffdLoop, hres]
  dsimp only
  rw [if_neg (by omega), if_neg hd]
  constructor
  · rintro ⟨groups, hloop, hlength⟩
    split_ifs at hloop with hmod hmore
    · cases hloop
      exact hlength
    · -- a retry starts above the minimum
      have hlt := Nat.mod_lt minGroups (pos_of_ne_zero hd)
      have hnext := (ffdLoop_allocated hsorts.perm hle (not_lt.mp hmore) hloop).count_ge
      omega
  · intro hlength
    refine ⟨res, ?_, hlength⟩
    rw [if_pos]
    rw [hlength]
    exact Nat.mod_eq_zero_of_dvd hdvd

/-- The groups that the loop returns are as many as the bins of the abstract retries. -/
theorem ffdLoop_retried {least : Nat} (hcount : minGroups ≤ values.length)
    (htry : minGroups = least ∨ least < minGroups ∧ d ∣ minGroups)
    (hearlier : ∀ j < minGroups, (j = least ∨ least < j ∧ d ∣ j) → ¬d ∣ binsUsed capacity j values)
    (hloop : ffdLoop argsort values capacity d minGroups = .ok groups) :
    retriedBins capacity d least values = some groups.length := by
  induction hmeasure : values.length - minGroups using Nat.strong_induction_on
    generalizing minGroups with
  | _ n ih =>
    obtain ⟨res, hres, -⟩ := ffdAllocateInner_allocated hsorts.perm hle hcount
    have hbins := ffdAllocateInner_length hsorts hle hres
    rw [ffdLoop, hres] at hloop
    dsimp only at hloop
    split_ifs at hloop with hzero hd hmod hmore
    · cases hloop
      rw [hbins] at hmod ⊢
      exact retriedBins_eq hcount htry (Nat.dvd_of_mod_eq_zero hmod) hearlier
    · have hlt := Nat.mod_lt minGroups (pos_of_ne_zero hd)
      have hnext : d ∣ minGroups + (d - minGroups % d) := by
        have hsum : minGroups + (d - minGroups % d) = d * (minGroups / d + 1) := by
          have := Nat.div_add_mod minGroups d
          rw [mul_add, mul_one]
          omega
        exact hsum ▸ dvd_mul_right d _
      refine ih _ (by omega) (not_lt.mp hmore) (.inr ⟨by omega, hnext⟩) (fun j hj hjtry => ?_) hloop
        rfl
      rcases lt_trichotomy j minGroups with hbefore | rfl | hafter
      · exact hearlier j hbefore hjtry
      · rw [← hbins]
        exact fun hdvd => hmod (Nat.mod_eq_zero_of_dvd hdvd)
      · -- no multiple of the divisor is skipped
        have hle' := Nat.le_of_dvd (by omega) (Nat.dvd_sub hnext (hjtry.resolve_left (by omega)).2)
        omega

end

theorem ffdAllocate_retried {m : Nat}
    (halloc : ffdAllocate argsort values capacity (some m) d = .ok groups) :
    retriedBins capacity d (max d m) values = some groups.length := by
  unfold ffdAllocate at halloc
  dsimp only at halloc
  split_ifs at halloc with hexceed hm hfew hfew
  all_goals push Not at hexceed
  · rw [max_eq_left hm.le]
    exact ffdLoop_retried hsorts hexceed (not_lt.mp hfew) (.inl rfl)
      (fun j hj htry => absurd htry (by omega)) halloc
  · rw [max_eq_right (not_lt.mp hm)]
    exact ffdLoop_retried hsorts hexceed (not_lt.mp hfew) (.inl rfl)
      (fun j hj htry => absurd htry (by omega)) halloc

end Sorted

/-! ## A divisor of one -/

section DivisorOne

variable {argsort : List Int → List Nat} {values : List Nat} {capacity minGroups : Nat}

theorem ffdLoop_one (hpos : 0 < minGroups) {res : List (List Nat)}
    (hinner : ffdAllocateInner values capacity minGroups (valueIndices argsort values) =
      some res) : ffdLoop argsort values capacity 1 minGroups = .ok res := by
  rw [ffdLoop, hinner]
  dsimp only
  rw [if_neg (by omega), if_neg one_ne_zero, if_pos (Nat.mod_one _)]

/-- With a divisor of one nothing is tried again. -/
theorem ffdAllocate_one (hpos : 0 < minGroups) (groups : List (List Nat)) :
    ffdAllocate argsort values capacity (some minGroups) 1 = .ok groups ↔
      PipelinePacking.ffdAllocate argsort values capacity minGroups = some groups := by
  have hmin : ¬minGroups < 1 := Nat.not_lt.mpr hpos
  unfold ffdAllocate PipelinePacking.ffdAllocate
  dsimp only
  rw [if_neg hmin]
  split_ifs with hexceed hfew
  · simp
  · simp
  · change _ ↔ ffdAllocateInner values capacity minGroups (valueIndices argsort values) = some groups
    cases hinner : ffdAllocateInner values capacity minGroups (valueIndices argsort values) with
    | none =>
      rw [ffdLoop, hinner, if_neg fun h => hpos.ne' h.1]
      simp
    | some res =>
      rw [ffdLoop_one hpos hinner, Except.ok.injEq, some.injEq]

/-- The rows stay together exactly when one group is asked for and has room for all of them. -/
theorem length_eq_one_iff (hargsort : ∀ keys, (argsort keys).Perm (range keys.length))
    (hpos : 0 < minGroups) {d : Nat} {groups : List (List Nat)}
    (halloc : ffdAllocate argsort values capacity (some minGroups) d = .ok groups) :
    groups.length = 1 ↔ minGroups = 1 ∧ d = 1 ∧ values.sum ≤ capacity := by
  have hspec := ffdAllocate_allocated hargsort halloc
  have hge := hspec.count_ge
  rw [getD_some] at hge
  constructor
  · intro hone
    have hd : d = 1 := by
      have hdvd := hspec.dvd
      rwa [hone, Nat.dvd_one] at hdvd
    obtain ⟨group, rfl⟩ := List.length_eq_one_iff.mp hone
    have hperm : group.Perm (range values.length) := by simpa using hspec.rows
    have hload := hspec.within group mem_cons_self
    rw [groupLoad_perm hperm, groupLoad_range] at hload
    exact ⟨by omega, hd, hload⟩
  · rintro ⟨rfl, rfl, hsum⟩
    have hfits : ∀ v ∈ values, v ≤ capacity := fun v hv =>
      (single_le_sum (fun _ _ => zero_le) v hv).trans hsum
    have hrows : 1 ≤ values.length := by
      by_contra hempty
      have hperm := hspec.rows
      rw [eq_nil_of_length_eq_zero (show values.length = 0 by omega)] at hperm
      obtain ⟨group, hgroup⟩ : ∃ group, group ∈ groups := exists_mem_of_length_pos (by omega)
      have hnil := flatten_eq_nil_iff.mp (Perm.eq_nil hperm) group hgroup
      exact hspec.nonempty group hgroup hnil
    obtain ⟨groups', hgroups', hallocation⟩ := ffdAllocate_spec hargsort hfits hrows
    obtain rfl : groups = groups' :=
      some.inj (((ffdAllocate_one one_pos groups).mp halloc).symm.trans hgroups')
    exact hallocation.one_of_fit rfl hsum

end DivisorOne

/-! ## Several ranks -/

section Ranks

variable {argsort : List Int → List Nat} {mbSpec : MicroBatchSpec} {ranks : List (List Nat)}
  {counts lens : List Nat} {groups : List (List Nat)}

/-- Every rank has the exchanged number of microbatches, or every rank raises. -/
def CountsAgree (maxNMbs : Nat) (outcomes : List (Except AllocateError (List (List Nat)))) : Prop :=
  (∀ outcome ∈ outcomes, ∃ groups, outcome = .ok groups ∧ groups.length = maxNMbs) ∨
    ∀ outcome ∈ outcomes, ∃ e, outcome = .error e

/-- The capacity of a microbatch, with its default. -/
def MicroBatchSpec.capacity (mbSpec : MicroBatchSpec) : Nat :=
  mbSpec.maxTokensPerMb.getD defaultMaxTokensPerMb

/-- The number of microbatches that the row lengths of a rank need before the exchange. -/
def neededMbs (mbSpec : MicroBatchSpec) (lens : List Nat) : Option Nat :=
  retriedBins mbSpec.capacity mbSpec.nMbsDivisor (max mbSpec.nMbsDivisor mbSpec.minGroups) lens

/-- The largest number of microbatches that a rank needs. -/
def mostMbs (mbSpec : MicroBatchSpec) (ranks : List (List Nat)) : Nat :=
  (ranks.filterMap (neededMbs mbSpec)).foldl max 0

/-- Every rank that needs fewer microbatches than another one fills exactly that larger number when
it opens so many at first. -/
def FillsMost (mbSpec : MicroBatchSpec) (ranks : List (List Nat)) : Prop :=
  ∀ lens ∈ ranks, ∀ n ∈ neededMbs mbSpec lens, n < mostMbs mbSpec ranks →
    binsUsed mbSpec.capacity (mostMbs mbSpec ranks) lens = mostMbs mbSpec ranks

instance (mbSpec : MicroBatchSpec) (ranks : List (List Nat)) :
    Decidable (FillsMost mbSpec ranks) := by
  unfold FillsMost
  infer_instance

theorem withCapacity_capacity (mbSpec : MicroBatchSpec) :
    mbSpec.withCapacity.maxTokensPerMb = some mbSpec.capacity := by
  unfold MicroBatchSpec.withCapacity MicroBatchSpec.capacity
  cases hcapacity : mbSpec.maxTokensPerMb with
  | none => rfl
  | some capacity =>
    rw [if_neg (some_ne_none capacity), hcapacity]
    rfl

theorem withCapacity_other (mbSpec : MicroBatchSpec) :
    mbSpec.withCapacity.nMbsDivisor = mbSpec.nMbsDivisor ∧
      mbSpec.withCapacity.minGroups = mbSpec.minGroups := by
  unfold MicroBatchSpec.withCapacity
  split_ifs <;> exact ⟨rfl, rfl⟩

theorem allocateBalancedMbs_eq_ok {capacity : Nat}
    (hcapacity : mbSpec.maxTokensPerMb = some capacity) :
    allocateBalancedMbs argsort mbSpec lens = .ok groups ↔
      ∃ raw, ffdAllocate argsort lens capacity (some mbSpec.minGroups) mbSpec.nMbsDivisor =
        .ok raw ∧ Packing.sortGroups raw = groups := by
  rw [allocateBalancedMbs, hcapacity]
  dsimp only
  rw [Results.bind_eq_ok]
  simp only [Except.ok.injEq]

theorem first_allocation (hargsort : ∀ keys, (argsort keys).Perm (range keys.length))
    {capacity : Nat} (hcapacity : mbSpec.maxTokensPerMb = some capacity)
    (hfirst : allocateBalancedMbs argsort mbSpec lens = .ok groups) :
    (∀ v ∈ lens, v ≤ capacity) ∧ mbSpec.nMbsDivisor ≠ 0 ∧ 0 < groups.length ∧
      mbSpec.nMbsDivisor ∣ groups.length := by
  obtain ⟨raw, hraw, rfl⟩ := (allocateBalancedMbs_eq_ok hcapacity).mp hfirst
  have hspec := ffdAllocate_allocated hargsort hraw
  have hmin : 0 < mbSpec.minGroups := by
    unfold MicroBatchSpec.minGroups
    split
    · exact one_pos
    · split_ifs
      · exact one_pos
      · omega
  have hge := hspec.count_ge
  rw [getD_some] at hge
  rw [Packing.length_sortGroups]
  refine ⟨?_, ?_, by omega, hspec.dvd⟩
  · by_contra hexceed
    push Not at hexceed
    unfold ffdAllocate at hraw
    dsimp only at hraw
    rw [if_pos hexceed] at hraw
    cases hraw
  · intro hzero
    have hdvd := hspec.dvd
    rw [hzero, zero_dvd_iff] at hdvd
    omega

theorem second_allocation (hsorts : Sorts argsort) {capacity maxNMbs : Nat}
    (hcapacity : mbSpec.maxTokensPerMb = some capacity)
    (hle : ∀ v ∈ lens, v ≤ capacity) (hd : mbSpec.nMbsDivisor ≠ 0)
    (hdvd : mbSpec.nMbsDivisor ∣ maxNMbs) (hpos : 0 < maxNMbs) :
    (∃ groups, allocateBalancedMbs argsort { mbSpec with nMbs := some maxNMbs } lens = .ok groups ∧
        groups.length = maxNMbs) ↔ binsUsed capacity maxNMbs lens = maxNMbs := by
  set second : MicroBatchSpec := { mbSpec with nMbs := some maxNMbs } with hsecond
  have hmin : second.minGroups = maxNMbs := if_neg hpos.ne'
  have hcapacity' : second.maxTokensPerMb = some capacity := hcapacity
  have hexceed : ¬∃ v ∈ lens, capacity < v := by
    push Not
    exact hle
  have hdivisor : ¬maxNMbs < mbSpec.nMbsDivisor := not_lt.mpr (Nat.le_of_dvd hpos hdvd)
  have hallocate : ffdAllocate argsort lens capacity (some maxNMbs) mbSpec.nMbsDivisor =
      if lens.length < maxNMbs then .error (.tooFewValues maxNMbs)
      else ffdLoop argsort lens capacity mbSpec.nMbsDivisor maxNMbs := by
    unfold ffdAllocate
    dsimp only
    rw [if_neg hexceed, if_neg hdivisor]
  have hsorted : (∃ groups, allocateBalancedMbs argsort second lens = .ok groups ∧
        groups.length = maxNMbs) ↔
      ∃ raw, ffdAllocate argsort lens capacity (some maxNMbs) mbSpec.nMbsDivisor = .ok raw ∧
        raw.length = maxNMbs := by
    constructor
    · rintro ⟨groups, hok, hlength⟩
      obtain ⟨raw, hraw, rfl⟩ := (allocateBalancedMbs_eq_ok hcapacity').mp hok
      rw [hmin] at hraw
      exact ⟨raw, hraw, by rwa [Packing.length_sortGroups] at hlength⟩
    · rintro ⟨raw, hraw, hlength⟩
      refine ⟨_, (allocateBalancedMbs_eq_ok hcapacity').mpr ⟨raw, ?_, rfl⟩, ?_⟩
      · rwa [hmin]
      · rwa [Packing.length_sortGroups]
  rw [hsorted, hallocate]
  by_cases hfew : lens.length < maxNMbs
  · rw [if_pos hfew]
    constructor
    · rintro ⟨raw, hraw, -⟩
      cases hraw
    · intro hbins
      have := binsUsed_le capacity maxNMbs lens
      omega
  · rw [if_neg hfew, ffdLoop_length hsorts hle hpos (not_lt.mp hfew) hd hdvd]

theorem groupIndices_length (hsorts : Sorts argsort)
    (hfirst : allocateBalancedMbs argsort mbSpec.withCapacity lens = .ok groups)
    (hdvd : mbSpec.nMbsDivisor ∣ counts.foldl max 0) (hpos : 0 < counts.foldl max 0)
    (hle : groups.length ≤ counts.foldl max 0) :
    (∃ final, groupIndices argsort mbSpec lens (some counts) = .ok final ∧
        final.length = counts.foldl max 0) ↔ (groups.length < counts.foldl max 0 →
        binsUsed mbSpec.capacity (counts.foldl max 0) lens = counts.foldl max 0) := by
  have hcapacity := withCapacity_capacity mbSpec
  have hdivisor := (withCapacity_other mbSpec).1
  obtain ⟨hfits, hd, -, -⟩ := first_allocation hsorts.perm hcapacity hfirst
  rw [groupIndices, hfirst, Results.bind_ok]
  dsimp only
  by_cases heq : counts.foldl max 0 = groups.length
  · rw [if_neg (not_not.mpr heq)]
    constructor
    · exact fun _ hlt => absurd heq hlt.ne'
    · exact fun _ => ⟨groups, rfl, heq.symm⟩
  · rw [if_pos heq, second_allocation hsorts hcapacity hfits hd (hdivisor ▸ hdvd) hpos]
    exact ⟨fun h _ => h, fun h => h (lt_of_le_of_ne hle (Ne.symm heq))⟩

theorem first_needed (hsorts : Sorts argsort)
    (hfirst : allocateBalancedMbs argsort mbSpec.withCapacity lens = .ok groups) :
    neededMbs mbSpec lens = some groups.length := by
  obtain ⟨raw, hraw, rfl⟩ := (allocateBalancedMbs_eq_ok (withCapacity_capacity mbSpec)).mp hfirst
  obtain ⟨hdivisor, hmin⟩ := withCapacity_other mbSpec
  rw [hdivisor, hmin] at hraw
  rw [neededMbs, ffdAllocate_retried hsorts hraw, Packing.length_sortGroups]

theorem exists_foldl_max {l : List Nat} {n : Nat} : l.foldl max n = n ∨ l.foldl max n ∈ l := by
  induction l generalizing n with
  | nil => exact .inl rfl
  | cons a l ih =>
    rw [foldl_cons]
    rcases ih (n := max n a) with heq | hmem
    · rw [heq]
      rcases max_choice n a with h | h
      · exact .inl h
      · exact .inr (by rw [h]; exact mem_cons_self)
    · exact .inr (mem_cons_of_mem _ hmem)

end Ranks

/-! ## Two ranks -/

/-- A stable `np.argsort`. -/
def stableArgsort (keys : List Int) : List Nat :=
  (range keys.length).insertionSort fun i j => keys.getD i 0 ≤ keys.getD j 0

theorem sorts_stableArgsort : Sorts stableArgsort where
  perm := fun _ => perm_insertionSort _ _
  sorted := by
    intro keys
    rw [pairwise_map]
    have : Std.Total fun i j : Nat => keys.getD i 0 ≤ keys.getD j 0 := ⟨fun _ _ => le_total _ _⟩
    have : IsTrans Nat fun i j => keys.getD i 0 ≤ keys.getD j 0 := ⟨fun _ _ _ => le_trans⟩
    exact pairwise_insertionSort _ _

/-- An allocation that needs no retry. -/
theorem allocate_once {lens : List Nat} {capacity m : Nat} {groups : List (List Nat)}
    (hle : ∀ v ∈ lens, v ≤ capacity) (hpos : 0 < m) (hcount : m ≤ lens.length)
    (hinner : ffdAllocateInner lens capacity m (valueIndices stableArgsort lens) = some groups) :
    ffdAllocate stableArgsort lens capacity (some m) 1 = .ok groups := by
  have hmin : ¬m < 1 := Nat.not_lt.mpr hpos
  unfold ffdAllocate
  dsimp only
  rw [if_neg hmin, if_neg (by push Not; exact hle), if_neg (by omega)]
  exact ffdLoop_one hpos hinner

theorem allocate_short : ffdAllocate stableArgsort [3] 10 (some 1) 1 = .ok [[0]] :=
  allocate_once (by decide) one_pos le_rfl (by decide)

theorem allocate_full : ffdAllocate stableArgsort [10, 10] 10 (some 1) 1 = .ok [[0], [1]] :=
  allocate_once (by decide) one_pos (by decide) (by decide)

theorem allocate_pair : ffdAllocate stableArgsort [3, 2] 10 (some 1) 1 = .ok [[0, 1]] :=
  allocate_once (by decide) one_pos (by decide) (by decide)

/-- The first counts of a rank with few tokens and of one with two full rows. -/
theorem first_counts {lens : List Nat} {group : List Nat}
    (hlens : ffdAllocate stableArgsort lens 10 (some 1) 1 = .ok [group]) :
    [lens, [10, 10]].mapM (fun lens => (allocateBalancedMbs stableArgsort
      ({ maxTokensPerMb := some 10 } : MicroBatchSpec).withCapacity lens).map List.length) =
      .ok [1, 2] := by
  simp [allocateBalancedMbs, MicroBatchSpec.withCapacity, MicroBatchSpec.minGroups, hlens,
    allocate_full, Results.bind_ok, Except.map, Packing.length_sortGroups]

end ArcticPlatform.PipelinePacking.Divided
