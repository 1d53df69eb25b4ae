import ArcticPlatform.Library.Bins
import ArcticPlatform.Library.IndexWrites
import ArcticPlatform.Packing.RoundTrip
import Mathlib

/-!
# Packing: which rows share a model call

An embedding of the planning in `common/packing/groups.py`.  Rows are grouped
greedily under a budget of tokens, the longest first; groups are split until there are
enough of them; and a batch is cut into the microbatches of such groups, with the order
that undoes the cut.

Main results:

- Theorem `tokenBudgetGroups_spec`: the groups of a budget.
- Theorem `splitGroupsToCount_spec`: the groups after splitting.
- Theorem `splitMicrobatches_spec`: the microbatches of a batch and the order back.
- Theorem `groups_compose`: grouping, splitting and cutting a batch.
-/

namespace ArcticPlatform.Packing

open Bins Results Tensors List
open Option hiding map_map mem_map min_eq_left

/-- What the functions on groups raise. -/
inductive GroupError where
  | maxTokensPerMb
  | targetCount
  | noLength
  | notPartition
  | batch (e : Error)
  deriving DecidableEq

/-! ## Grouping -/

/-- `sorted` of row numbers. -/
def sortRows (rows : List Nat) : List Nat :=
  rows.mergeSort fun a b => decide (a ≤ b)

/-- `sorted(sorted(group) for group in groups)`. -/
def sortGroups (groups : List (List Nat)) : List (List Nat) :=
  (groups.map sortRows).mergeSort fun a b => decide (a ≤ b)

/-- `sum(valid_lengths[row] for row in group)`, for rows that have a length. -/
def tokensOf (validLengths : List Int) (group : List Nat) : Int :=
  (group.map fun row => validLengths.getD row 0).sum

/-- The lists that `token_budget_groups` fills. -/
structure BudgetGroups where
  groups : List (List Nat)
  groupLoads : List Int

/-- One row is put into the first group with room for it, or into a new one. -/
def BudgetGroups.place (lengths : List Int) (maxTokensPerMb : Int) (s : BudgetGroups) (row : Nat) :
    BudgetGroups :=
  let length := lengths.getD row 0
  match s.groupLoads.findIdx? fun load => decide (load + length ≤ maxTokensPerMb) with
  | some groupIndex =>
    ⟨s.groups.modify groupIndex (· ++ [row]), s.groupLoads.modify groupIndex (· + length)⟩
  | none => ⟨s.groups ++ [[row]], s.groupLoads ++ [length]⟩

/-- `token_budget_groups`. -/
def tokenBudgetGroups (validLengths : List Int) (maxTokensPerMb : Int) :
    Except GroupError (List (List Nat)) :=
  if maxTokensPerMb ≤ 0 then .error .maxTokensPerMb
  else
    let order := (range validLengths.length).mergeSort fun a b =>
      decide (validLengths.getD b 0 ≤ validLengths.getD a 0)
    let s := order.foldl (BudgetGroups.place validLengths maxTokensPerMb) ⟨[], []⟩
    .ok (sortGroups s.groups)

/-! ## Splitting -/

/-- The groups that can be split. -/
def splittable (result : List (List Nat)) : List Nat :=
  (range result.length).filter fun index => decide (1 < (result.getD index []).length)

/-- The splittable group with the most tokens, and its longest row; of several the first one. -/
def longestRow (validLengths : List Int) (result : List (List Nat)) : Option (Nat × Nat) := do
  let source ← (splittable result).maxOn? fun index => tokensOf validLengths (result.getD index [])
  let row ← (result.getD source []).maxOn? fun row => validLengths.getD row 0
  some (source, row)

/-- The loop of `split_groups_to_count`, for so many groups more. -/
def splitLoop (validLengths : List Int) : Nat → List (List Nat) → Except GroupError (List (List Nat))
  | 0, result => .ok result
  | more + 1, result =>
    if ∃ index ∈ splittable result, ∃ row ∈ result.getD index [], validLengths.length ≤ row then
      .error .noLength
    else
      match longestRow validLengths result with
      | none => .ok result
      | some (source, row) =>
        splitLoop validLengths more (result.modify source (·.erase row) ++ [[row]])

/-- `split_groups_to_count`. -/
def splitGroupsToCount (groups : List (List Nat)) (validLengths : List Int) (targetCount : Int) :
    Except GroupError (List (List Nat)) :=
  if targetCount < groups.length then .error .targetCount
  else do
    let result ← splitLoop validLengths (targetCount - groups.length).toNat groups
    .ok (sortGroups result)

/-- `token_budget_microbatch_groups`, after the lengths of the rows are counted. -/
def tokenBudgetMicrobatchGroups (validLengths : List Int) (maxTokensPerMb minGroups : Int) :
    Except GroupError (List (List Nat)) :=
  if validLengths.length = 0 then .ok []
  else do
    let groups ← tokenBudgetGroups validLengths maxTokensPerMb
    let groups ← if groups.length < minGroups then splitGroupsToCount groups validLengths minGroups
      else .ok groups
    if sortRows groups.flatten ≠ range validLengths.length then .error .notPartition
    else .ok groups

/-! ## Cutting a batch -/

/-- `MicrobatchSplit`. -/
structure MicrobatchSplit (α ω : Type) where
  batches : List (Batch α ω)
  restoreOrder : Option (List Nat)

/-- The positions of the rows in an order. -/
def inverseOrder (forwardOrder : List Nat) (nRows : Nat) : List Nat :=
  forwardOrder.zipIdx.foldl (fun order p => order.set p.1 p.2) (replicate nRows 0)

/-- `split_microbatches`. -/
def splitMicrobatches {α ω : Type} (tensorDict : Batch α ω) (groups : List (List Nat))
    (nRows : Nat) : Except GroupError (MicrobatchSplit α ω) :=
  let forwardOrder := groups.flatten
  if sortRows forwardOrder ≠ range nRows then .error .notPartition
  else
    match groups.mapM fun group => selectRows tensorDict (group.map Int.ofNat) nRows with
    | .error e => .error (.batch e)
    | .ok mbs => .ok
        ⟨mbs, if forwardOrder ≠ range nRows then some (inverseOrder forwardOrder nRows)
          else none⟩

/-! ## Groups of rows -/

/-- The groups share out the rows, and none is empty. -/
structure IsPartition (nRows : Nat) (groups : List (List Nat)) : Prop where
  rows : groups.flatten.Perm (range nRows)
  nonempty : ∀ group ∈ groups, group ≠ []

theorem sortRows_perm (group : List Nat) : (sortRows group).Perm group := mergeSort_perm _ _

theorem sortRows_eq {rows : List Nat} {nRows : Nat} (h : rows.Perm (range nRows)) :
    sortRows rows = range nRows := by
  refine Perm.eq_of_pairwise' (r := (· ≤ ·)) ?_ ?_ ((sortRows_perm rows).trans h)
  · have hsorted : (rows.mergeSort fun a b : Nat => decide (a ≤ b)).Pairwise
        fun a b => decide (a ≤ b) = true :=
      pairwise_mergeSort (by intro a b c; simpa using le_trans)
        (by intro a b; simpa using le_total a b) rows
    simpa [sortRows] using hsorted
  · exact pairwise_le_range

theorem flatten_sortGroups_perm (groups : List (List Nat)) :
    (sortGroups groups).flatten.Perm groups.flatten := by
  refine (mergeSort_perm _ _).flatten.trans ?_
  induction groups with
  | nil => exact Perm.nil
  | cons group groups ih => exact (sortRows_perm group).append ih

theorem length_sortGroups (groups : List (List Nat)) :
    (sortGroups groups).length = groups.length := by
  rw [sortGroups, length_mergeSort, length_map]

variable {groups : List (List Nat)}

theorem mem_sortGroups {sorted : List Nat} (h : sorted ∈ sortGroups groups) :
    ∃ group ∈ groups, sorted.Perm group := by
  rw [sortGroups, mem_mergeSort, mem_map] at h
  obtain ⟨group, hgroup, rfl⟩ := h
  exact ⟨group, hgroup, sortRows_perm group⟩

variable {validLengths : List Int}

theorem tokensOf_perm {group group' : List Nat} (h : group.Perm group') :
    tokensOf validLengths group = tokensOf validLengths group' := (h.map _).sum_eq

theorem mem_modify {α : Type} {l : List α} {f : α → α} {i : Nat} {x : α} (h : x ∈ l.modify i f) :
    x ∈ l ∨ ∃ y, l[i]? = some y ∧ x = f y := by
  obtain ⟨k, hk⟩ := mem_iff_getElem?.mp h
  rw [getElem?_modify, Option.map_eq_map, map_eq_some_iff] at hk
  obtain ⟨y, hy, rfl⟩ := hk
  split_ifs with hik
  · exact .inr ⟨y, hik ▸ hy, rfl⟩
  · exact .inl (mem_of_getElem? hy)

section Budget

variable {lengths : List Int} {gone : List Nat} {maxTokensPerMb : Int} {s : BudgetGroups}

/-- The rows so far are grouped within the budget. -/
structure BudgetGroups.Placed (lengths : List Int) (maxTokensPerMb : Int) (gone : List Nat)
    (s : BudgetGroups) : Prop where
  rows : s.groups.flatten.Perm gone
  loads : s.groupLoads = s.groups.map (tokensOf lengths)
  fits : ∀ group ∈ s.groups, tokensOf lengths group ≤ maxTokensPerMb ∨ group.length = 1
  nonempty : ∀ group ∈ s.groups, group ≠ []

/-- One more row. -/
theorem BudgetGroups.Placed.place (h : s.Placed lengths maxTokensPerMb gone) (row : Nat) :
    (s.place lengths maxTokensPerMb row).Placed lengths maxTokensPerMb (gone ++ [row]) := by
  unfold BudgetGroups.place
  dsimp only
  split
  · rename_i groupIndex hfind
    obtain ⟨hlt, hroom, -⟩ := findIdx?_eq_some_iff_getElem.mp hfind
    have hgroups : groupIndex < s.groups.length := by
      simpa [h.loads] using hlt
    have hload : s.groupLoads[groupIndex] = tokensOf lengths s.groups[groupIndex] := by
      simp [h.loads]
    refine ⟨?_, ?_, ?_, ?_⟩
    · exact (flatten_modify_perm hgroups [row]).trans (h.rows.append_right [row])
    · apply ext_getElem?
      intro i
      simp only [getElem?_modify, getElem?_map, h.loads, Option.map_eq_map, Option.map_map]
      congr 1
      funext group
      by_cases hi : groupIndex = i
      · simp [hi, tokensOf]
      · simp [hi]
    · intro group hgroup
      rcases mem_modify hgroup with hold | ⟨old, hold, rfl⟩
      · exact h.fits group hold
      · left
        rw [getElem?_eq_getElem hgroups] at hold
        cases hold
        have := of_decide_eq_true hroom
        rw [hload] at this
        simpa [tokensOf] using this
    · intro group hgroup
      rcases mem_modify hgroup with hold | ⟨old, -, rfl⟩
      · exact h.nonempty group hold
      · exact append_ne_nil_of_right_ne_nil _ (cons_ne_nil _ _)
  · refine ⟨?_, ?_, ?_, ?_⟩
    · simpa using h.rows.append_right [row]
    · simp [h.loads, tokensOf]
    · intro group hgroup
      rcases mem_append.mp hgroup with hold | hnew
      · exact h.fits group hold
      · exact .inr (by rw [mem_singleton.mp hnew]; rfl)
    · intro group hgroup
      rcases mem_append.mp hgroup with hold | hnew
      · exact h.nonempty group hold
      · rw [mem_singleton.mp hnew]
        exact cons_ne_nil _ _

theorem BudgetGroups.Placed.foldl (h : s.Placed lengths maxTokensPerMb gone) (order : List Nat) :
    (order.foldl (BudgetGroups.place lengths maxTokensPerMb) s).Placed lengths maxTokensPerMb
      (gone ++ order) := by
  induction order generalizing s gone with
  | nil => simpa using h
  | cons row order ih =>
    rw [foldl_cons, append_cons]
    exact ih (h.place row)

end Budget

/-- A group keeps to the budget, or has a single row. -/
def WithinBudget (validLengths : List Int) (maxTokensPerMb : Int) (group : List Nat) : Prop :=
  tokensOf validLengths group ≤ maxTokensPerMb ∨ group.length = 1

theorem IsPartition.sortGroups {nRows : Nat} (h : IsPartition nRows groups) :
    IsPartition nRows (sortGroups groups) where
  rows := (flatten_sortGroups_perm groups).trans h.rows
  nonempty sorted hsorted := by
    obtain ⟨group, hgroup, hperm⟩ := mem_sortGroups hsorted
    rintro rfl
    exact h.nonempty group hgroup hperm.symm.eq_nil

/-- The groups of a budget. -/
theorem tokenBudgetGroups_spec (validLengths : List Int) {maxTokensPerMb : Int}
    (hbudget : 0 < maxTokensPerMb) :
    ∃ groups, tokenBudgetGroups validLengths maxTokensPerMb = .ok groups ∧
      IsPartition validLengths.length groups ∧
      ∀ group ∈ groups, WithinBudget validLengths maxTokensPerMb group := by
  have hempty : BudgetGroups.Placed validLengths maxTokensPerMb [] ⟨[], []⟩ :=
    ⟨Perm.nil, rfl, by simp, by simp⟩
  have hplaced := hempty.foldl ((range validLengths.length).mergeSort fun a b =>
    decide (validLengths.getD b 0 ≤ validLengths.getD a 0))
  rw [nil_append] at hplaced
  refine ⟨_, if_neg (not_le.mpr hbudget), ?_, ?_⟩
  · exact IsPartition.sortGroups ⟨hplaced.rows.trans (mergeSort_perm _ _), hplaced.nonempty⟩
  · intro sorted hsorted
    obtain ⟨group, hgroup, hperm⟩ := mem_sortGroups hsorted
    rw [WithinBudget, tokensOf_perm hperm, hperm.length_eq]
    exact hplaced.fits group hgroup

/-! ## More groups -/

theorem flatten_modify_erase_perm {source row : Nat} (hrow : row ∈ groups.getD source []) :
    ((groups.modify source (·.erase row)).flatten ++ [row]).Perm groups.flatten := by
  induction groups generalizing source with
  | nil => exact absurd hrow (by simp)
  | cons group groups ih =>
    cases source with
    | zero =>
      rw [modify_zero_cons, flatten_cons, flatten_cons]
      refine (perm_append_singleton _ _).trans ?_
      rw [← cons_append]
      exact (perm_cons_erase hrow).symm.append_right _
    | succ source =>
      rw [modify_succ_cons, flatten_cons, flatten_cons, append_assoc]
      exact (ih hrow).append_left group

variable {result : List (List Nat)}

theorem mem_splittable {index : Nat} :
    index ∈ splittable result ↔ index < result.length ∧ 1 < (result.getD index []).length := by
  rw [splittable, mem_filter, mem_range, decide_eq_true_iff]

theorem longestRow_eq_some {source row : Nat}
    (h : longestRow validLengths result = some (source, row)) :
    source ∈ splittable result ∧ row ∈ result.getD source [] := by
  rw [longestRow] at h
  obtain ⟨index, hindex, h⟩ := bind_eq_some_iff.mp h
  obtain ⟨longest, hlongest, h⟩ := bind_eq_some_iff.mp h
  cases h
  exact ⟨List.maxOn?_mem hindex, List.maxOn?_mem hlongest⟩

theorem longestRow_eq_none (h : longestRow validLengths result = none) :
    splittable result = [] := by
  by_contra hne
  obtain ⟨index, hindex⟩ := isSome_iff_exists.mp
    (List.isSome_maxOn?_iff (f := fun index => tokensOf validLengths (result.getD index [])).mpr hne)
  have hlong := (mem_splittable.mp (List.maxOn?_mem hindex)).2
  have hgroup : result.getD index [] ≠ [] := by
    intro hnil
    rw [hnil] at hlong
    exact absurd hlong (by simp)
  obtain ⟨row, hrow⟩ := isSome_iff_exists.mp
    (List.isSome_maxOn?_iff (f := fun row => validLengths.getD row 0).mpr hgroup)
  rw [longestRow, hindex, bind_eq_bind, bind_some, hrow] at h
  exact absurd h (by simp)

/-- Groups refine others: the rows of each lie in one of the others. -/
def Refines (groups' groups : List (List Nat)) : Prop :=
  ∀ group' ∈ groups', ∃ group ∈ groups, group' ⊆ group

theorem Refines.refl (groups : List (List Nat)) : Refines groups groups :=
  fun group hgroup => ⟨group, hgroup, fun _ h => h⟩

theorem Refines.trans {groups₁ groups₂ groups₃ : List (List Nat)} (h : Refines groups₁ groups₂)
    (h' : Refines groups₂ groups₃) : Refines groups₁ groups₃ := by
  intro group₁ hgroup₁
  obtain ⟨group₂, hgroup₂, hsub⟩ := h group₁ hgroup₁
  obtain ⟨group₃, hgroup₃, hsub'⟩ := h' group₂ hgroup₂
  exact ⟨group₃, hgroup₃, fun _ hrow => hsub' (hsub hrow)⟩

section Split

variable {nRows : Nat} {validLengths : List Int} {result : List (List Nat)} {source row : Nat}

section

variable (h : IsPartition nRows result)
include h

theorem IsPartition.split (hsource : source ∈ splittable result)
    (hrow : row ∈ result.getD source []) :
    IsPartition nRows (result.modify source (·.erase row) ++ [[row]]) ∧
      Refines (result.modify source (·.erase row) ++ [[row]]) result := by
  obtain ⟨hlt, hlong⟩ := mem_splittable.mp hsource
  have hget : result[source]? = some (result.getD source []) := by
    rw [getD_eq_getElem?_getD, getElem?_eq_getElem hlt, getD_some]
  refine ⟨⟨?_, ?_⟩, ?_⟩
  · rw [flatten_append, flatten_singleton]
    exact (flatten_modify_erase_perm hrow).trans h.rows
  · intro group hgroup
    rcases mem_append.mp hgroup with hold | hnew
    · rcases mem_modify hold with hsame | ⟨old, hsource, rfl⟩
      · exact h.nonempty group hsame
      · rw [hget] at hsource
        cases hsource
        intro hnil
        have hlength := length_erase_of_mem hrow
        rw [hnil, length_nil] at hlength
        omega
    · rw [mem_singleton.mp hnew]
      exact cons_ne_nil _ _
  · intro group hgroup
    rcases mem_append.mp hgroup with hold | hnew
    · rcases mem_modify hold with hsame | ⟨old, hsource, rfl⟩
      · exact Refines.refl result group hsame
      · exact ⟨old, mem_of_getElem? hsource, erase_subset⟩
    · rw [mem_singleton.mp hnew]
      exact ⟨_, mem_of_getElem? hget, by simpa using hrow⟩

theorem IsPartition.length_of_splittable
    (hnone : splittable result = []) : result.length = nRows := by
  have hone : ∀ group ∈ result, group.length = 1 := by
    intro group hgroup
    obtain ⟨index, hindex⟩ := mem_iff_getElem?.mp hgroup
    have hnot : index ∉ splittable result := by simp [hnone]
    rw [mem_splittable, getD_eq_getElem?_getD, hindex, getD_some] at hnot
    have hlt := (List.getElem?_eq_some_iff.mp hindex).1
    have hpos := length_pos_iff.mpr (h.nonempty group hgroup)
    have hle := not_lt.mp fun hlong => hnot ⟨hlt, hlong⟩
    omega
  have hlength := h.rows.length_eq
  rw [List.length_flatten, length_range, map_congr_left hone, map_const', sum_replicate] at hlength
  simpa using hlength

theorem IsPartition.length_le : result.length ≤ nRows := by
  have hlength := h.rows.length_eq
  rw [List.length_flatten, length_range] at hlength
  rw [← hlength, ← length_map (f := List.length)]
  exact length_le_sum_of_one_le _ (by
    intro k hk
    obtain ⟨group, hgroup, rfl⟩ := mem_map.mp hk
    exact length_pos_iff.mpr (h.nonempty group hgroup))

theorem IsPartition.row_lt {index row : Nat} (hrow : row ∈ result.getD index []) : row < nRows := by
  rw [← mem_range, ← h.rows.mem_iff, mem_flatten]
  cases hget : result[index]? with
  | none =>
    rw [getD_eq_getElem?_getD, hget] at hrow
    exact absurd hrow (by simp)
  | some group =>
    rw [getD_eq_getElem?_getD, hget] at hrow
    exact ⟨group, mem_of_getElem? hget, hrow⟩

end

/-- The loop splits until there are enough groups, or one for each row. -/
theorem splitLoop_spec (h : IsPartition validLengths.length result) (more : Nat) :
    ∃ result', splitLoop validLengths more result = .ok result' ∧
      IsPartition validLengths.length result' ∧ Refines result' result ∧
      result'.length = min (result.length + more) validLengths.length := by
  induction more generalizing result with
  | zero =>
    refine ⟨result, rfl, h, Refines.refl result, ?_⟩
    rw [add_zero, min_eq_left h.length_le]
  | succ more ih =>
    have hlengths : ¬∃ index ∈ splittable result, ∃ row ∈ result.getD index [],
        validLengths.length ≤ row := by
      rintro ⟨index, -, row, hrow, hle⟩
      exact absurd (h.row_lt hrow) (not_lt.mpr hle)
    rw [splitLoop, if_neg hlengths]
    cases hlongest : longestRow validLengths result with
    | none =>
      refine ⟨result, rfl, h, Refines.refl result, ?_⟩
      rw [h.length_of_splittable (longestRow_eq_none hlongest)]
      omega
    | some choice =>
      obtain ⟨hsource, hrow⟩ := longestRow_eq_some (show _ = some (choice.1, choice.2) from hlongest)
      obtain ⟨hsplit, hrefines⟩ := h.split hsource hrow
      obtain ⟨result', hresult', hpartition, hrefines', hcount⟩ := ih hsplit
      refine ⟨result', hresult', hpartition, hrefines'.trans hrefines, ?_⟩
      rw [hcount, length_append, length_modify, length_singleton]
      omega

/-- The groups after splitting. -/
theorem splitGroupsToCount_spec {groups : List (List Nat)} {targetCount : Int}
    (h : IsPartition validLengths.length groups) (htarget : (groups.length : Int) ≤ targetCount) :
    ∃ groups', splitGroupsToCount groups validLengths targetCount = .ok groups' ∧
      IsPartition validLengths.length groups' ∧ Refines groups' groups ∧
      (groups'.length : Int) = min targetCount validLengths.length := by
  obtain ⟨result, hresult, hpartition, hrefines, hcount⟩ :=
    splitLoop_spec h (targetCount - groups.length).toNat
  refine ⟨sortGroups result, ?_, hpartition.sortGroups, ?_, ?_⟩
  · rw [splitGroupsToCount, if_neg (not_lt.mpr htarget), hresult, bind_ok]
  · intro sorted hsorted
    obtain ⟨group, hgroup, hperm⟩ := mem_sortGroups hsorted
    obtain ⟨old, hold, hsub⟩ := hrefines group hgroup
    exact ⟨old, hold, fun row hrow => hsub (hperm.subset hrow)⟩
  · rw [length_sortGroups, hcount]
    omega

end Split

/-! ## The order back -/

section Order

variable {forwardOrder : List Nat} {nRows : Nat}

/-- Two orders undo each other. -/
def Inverse (order forwardOrder : List Nat) : Prop :=
  ∀ position row : Nat, forwardOrder[position]? = some row ↔ order[row]? = some position

theorem length_inverseOrder : (inverseOrder forwardOrder nRows).length = nRows := by
  rw [inverseOrder, IndexWrites.length_foldl_set, length_replicate]

theorem inverse_inverseOrder (h : forwardOrder.Perm (range nRows)) :
    Inverse (inverseOrder forwardOrder nRows) forwardOrder := by
  have hnodup := h.nodup_iff.mpr nodup_range
  have hset : ∀ position row : Nat, forwardOrder[position]? = some row →
      (inverseOrder forwardOrder nRows)[row]? = some position := by
    intro position row hrow
    have hlt := mem_range.mp (h.mem_iff.mp (mem_of_getElem? hrow))
    refine IndexWrites.getElem?_foldl_set ?_ (mk_mem_zipIdx_iff_getElem?.mpr hrow) ?_
    · rwa [zipIdx_map_fst]
    · rwa [length_replicate]
  intro position row
  constructor
  · exact hset position row
  · intro hposition
    have hlt := (List.getElem?_eq_some_iff.mp hposition).1
    rw [length_inverseOrder] at hlt
    obtain ⟨position', hrow⟩ := mem_iff_getElem?.mp (h.mem_iff.mpr (mem_range.mpr hlt))
    have hsame := hset position' row hrow
    rw [hposition] at hsame
    rw [some.inj hsame]
    exact hrow

theorem inverse_range (nRows : Nat) : Inverse (range nRows) (range nRows) := by
  intro position row
  rw [List.getElem?_eq_some_iff, List.getElem?_eq_some_iff]
  simp only [length_range, getElem_range]
  constructor
  · rintro ⟨hlt, rfl⟩
    exact ⟨hlt, rfl⟩
  · rintro ⟨hlt, rfl⟩
    exact ⟨hlt, rfl⟩

theorem Inverse.map_getD {α : Type} {order : List Nat} {values : List α} (d : α)
    (h : Inverse order forwardOrder) (hrows : forwardOrder.Perm (range values.length)) :
    (order.map fun position => (forwardOrder.map fun row => values.getD row d).getD position d) =
      values := by
  apply ext_getElem?
  intro row
  rw [getElem?_map]
  cases hvalue : values[row]? with
  | none =>
    have hnone : order[row]? = none := by
      cases horder : order[row]? with
      | none => rfl
      | some position =>
        have hrow := hrows.mem_iff.mp (mem_of_getElem? ((h position row).mpr horder))
        rw [mem_range] at hrow
        rw [List.getElem?_eq_none_iff] at hvalue
        exact absurd hrow (not_lt.mpr hvalue)
    rw [hnone, map_none]
  | some value =>
    have hlt := (List.getElem?_eq_some_iff.mp hvalue).1
    obtain ⟨position, hposition⟩ := mem_iff_getElem?.mp (hrows.mem_iff.mpr (mem_range.mpr hlt))
    rw [(h position row).mp hposition, map_some, getD_eq_getElem?_getD,
      getElem?_map, hposition, map_some, getD_some, getD_eq_getElem?_getD, hvalue, getD_some]

end Order

section Microbatches

variable {α ω : Type} {nRows : Nat} {groups : List (List Nat)}

/-- The order in which the rows of the microbatches, one after the other, are put back. -/
def MicrobatchSplit.order (split : MicrobatchSplit α ω) (nRows : Nat) : List Nat :=
  split.restoreOrder.getD (range nRows)

theorem leaves_of_selectRows {tensorDict : Batch α ω} {mbs : List (Batch α ω)} (hselect : Forall₂
      (fun group mb => selectRows tensorDict (group.map Int.ofNat) nRows = .ok mb) groups mbs)
    (hindex : ∀ group ∈ groups, ∀ i ∈ group.map Int.ofNat, 0 ≤ i ∧ i.toNat < nRows)
    {front : List String} {key : String} {t : Tensor α} {rest : List Nat}
    (hleaf : leafAt (front ++ [key]) tensorDict = some (.tensor t)) (ht : t.shape = nRows :: rest) :
    ∃ ts : List (Tensor α),
      Forall₂ (fun mb u => leafAt (front ++ [key]) mb = some (.tensor u)) mbs ts ∧
      Forall₂ (fun group u => u.items = group.map fun row => t.items.getD row []) groups ts := by
  induction hselect with
  | nil => exact ⟨[], .nil, .nil⟩
  | @cons group mb groups mbs hmb _ ih =>
    obtain ⟨ts, hleaves, hitems⟩ := ih fun group' hgroup' =>
      hindex group' (mem_cons_of_mem _ hgroup')
    obtain ⟨u, hu, -, huitems⟩ := selected_eq (ω := ω) (hindex group mem_cons_self) key ht
    refine ⟨u :: ts, .cons (leafAt_map hmb hleaf hu) hleaves, .cons ?_ hitems⟩
    rw [huitems, map_map]
    rfl

theorem flatMap_items {t : Tensor α} {ts : List (Tensor α)}
    (h : Forall₂ (fun group u => u.items = group.map fun row => t.items.getD row []) groups ts) :
    ts.flatMap Tensor.items = groups.flatten.map fun row => t.items.getD row [] := by
  induction h with
  | nil => rfl
  | cons hu _ ih => rw [flatMap_cons, flatten_cons, map_append, hu, ih]

/-- The microbatches of a batch and the order back: each microbatch has the rows of its group, in
every leaf that has the rows, and the order undoes the concatenation of all microbatches. -/
theorem splitMicrobatches_spec (hrows : groups.flatten.Perm (range nRows))
    (tensorDict : Batch α ω) :
    ∃ split, splitMicrobatches tensorDict groups nRows = .ok split ∧
      Inverse (split.order nRows) groups.flatten ∧
      ∀ front key t rest, leafAt (front ++ [key]) tensorDict = some (.tensor t) →
        t.shape = nRows :: rest → ∃ ts : List (Tensor α),
          Forall₂ (fun mb u => leafAt (front ++ [key]) mb = some (.tensor u)) split.batches ts ∧
          Forall₂ (fun group u => u.items = group.map fun row => t.items.getD row []) groups ts ∧
          (split.order nRows).map (fun position => (ts.flatMap Tensor.items).getD position []) =
            t.items := by
  have hindex : ∀ group ∈ groups, ∀ i ∈ group.map Int.ofNat, 0 ≤ i ∧ i.toNat < nRows := by
    intro group hgroup i hi
    obtain ⟨row, hrow, rfl⟩ := mem_map.mp hi
    have hmem := hrows.mem_iff.mp (mem_flatten.mpr ⟨group, hgroup, hrow⟩)
    exact ⟨Int.natCast_nonneg row, mem_range.mp hmem⟩
  obtain ⟨mbs, hmbs⟩ := mapM_isOk (f := fun group : List Nat =>
      selectRows tensorDict (group.map Int.ofNat) nRows) (l := groups) fun group hgroup =>
    mapBatchValues_isOk (fun key x _ => selected_isOk (hindex group hgroup) key x) tensorDict
      (allLeaves_true (fun _ _ => trivial) tensorDict)
  have hinverse : Inverse (MicrobatchSplit.order ⟨mbs, if groups.flatten ≠ range nRows then
      some (inverseOrder groups.flatten nRows) else none⟩ nRows) groups.flatten := by
    rw [MicrobatchSplit.order]
    split_ifs with hforward
    · exact inverse_inverseOrder hrows
    · rw [getD_none, not_not.mp hforward]
      exact inverse_range nRows
  refine ⟨_, ?_, hinverse, ?_⟩
  · simp only [splitMicrobatches, sortRows_eq hrows, ne_eq, not_true_eq_false, if_false, hmbs]
  · intro front key t rest hleaf ht
    obtain ⟨ts, hleaves, hitems⟩ := leaves_of_selectRows (mapM_eq_ok.mp hmbs) hindex hleaf ht
    refine ⟨ts, hleaves, hitems, ?_⟩
    rw [flatMap_items hitems]
    exact hinverse.map_getD [] (by rwa [Tensor.length_items ht])

end Microbatches

/-! ## Together -/

/-- The plan of one shard: the budget, the groups that are asked for, and no error. -/
theorem tokenBudgetMicrobatchGroups_spec (validLengths : List Int) {maxTokensPerMb : Int}
    (minGroups : Int) (hbudget : 0 < maxTokensPerMb) :
    ∃ groups, tokenBudgetMicrobatchGroups validLengths maxTokensPerMb minGroups = .ok groups ∧
      IsPartition validLengths.length groups ∧
      min minGroups validLengths.length ≤ groups.length := by
  rw [tokenBudgetMicrobatchGroups]
  split_ifs with hempty
  · rw [length_eq_zero_iff.mp hempty]
    exact ⟨[], rfl, ⟨Perm.nil, by simp⟩, by simp⟩
  · obtain ⟨groups, hgroups, hpartition, -⟩ := tokenBudgetGroups_spec validLengths hbudget
    rw [hgroups, bind_ok]
    by_cases hmin : (groups.length : Int) < minGroups
    · obtain ⟨split, hsplit, hpartition', -, hcount⟩ := splitGroupsToCount_spec hpartition hmin.le
      refine ⟨split, ?_, hpartition', hcount.ge⟩
      rw [if_pos hmin, hsplit, bind_ok]
      exact if_neg (not_not.mpr (sortRows_eq hpartition'.rows))
    · refine ⟨groups, ?_, hpartition, by omega⟩
      rw [if_neg hmin, bind_ok]
      exact if_neg (not_not.mpr (sortRows_eq hpartition.rows))

/-- A budget's groups are a partition within the budget; a partition is split into a finer one of
so many groups, or of one for each row; and the microbatches of a partition have the rows of their
groups, with an order that puts the rows back. -/
theorem groups_compose {α ω : Type} (validLengths : List Int) {maxTokensPerMb : Int}
    (hbudget : 0 < maxTokensPerMb) :
    (∃ groups, tokenBudgetGroups validLengths maxTokensPerMb = .ok groups ∧
      IsPartition validLengths.length groups ∧
      ∀ group ∈ groups, WithinBudget validLengths maxTokensPerMb group) ∧
    (∀ groups (targetCount : Int), IsPartition validLengths.length groups →
      (groups.length : Int) < targetCount →
      ∃ groups', splitGroupsToCount groups validLengths targetCount = .ok groups' ∧
        IsPartition validLengths.length groups' ∧ Refines groups' groups ∧
        (groups'.length : Int) = min targetCount validLengths.length) ∧
    (∀ minGroups : Int, ∃ groups,
      tokenBudgetMicrobatchGroups validLengths maxTokensPerMb minGroups = .ok groups ∧
      IsPartition validLengths.length groups ∧ min minGroups validLengths.length ≤ groups.length) ∧
    (∀ groups (tensorDict : Batch α ω), groups.flatten.Perm (range validLengths.length) →
      ∃ split, splitMicrobatches tensorDict groups validLengths.length = .ok split ∧
        Inverse (split.order validLengths.length) groups.flatten ∧
        ∀ front key t rest, leafAt (front ++ [key]) tensorDict = some (.tensor t) →
          t.shape = validLengths.length :: rest → ∃ ts : List (Tensor α),
            Forall₂ (fun mb u => leafAt (front ++ [key]) mb = some (.tensor u))
              split.batches ts ∧
            Forall₂ (fun group u => u.items = group.map fun row => t.items.getD row [])
              groups ts ∧ (split.order validLengths.length).map
              (fun position => (ts.flatMap Tensor.items).getD position []) = t.items) :=
  ⟨tokenBudgetGroups_spec validLengths hbudget,
    fun _ _ hpartition htarget => splitGroupsToCount_spec hpartition htarget.le,
    fun minGroups => tokenBudgetMicrobatchGroups_spec validLengths minGroups hbudget,
    fun _ tensorDict hrows => splitMicrobatches_spec hrows tensorDict⟩

/-- The plan for three rows with a budget for the two short ones, split for three calls. -/
theorem groups_compose_three : 0 < (4 : Int) ∧
    (∃ groups, tokenBudgetGroups [2, 5, 1] 4 = .ok groups ∧ IsPartition 3 groups ∧
      ∀ group ∈ groups, WithinBudget [2, 5, 1] 4 group) ∧
    ∃ groups', splitGroupsToCount [[0, 2], [1]] [2, 5, 1] 7 = .ok groups' ∧
      IsPartition 3 groups' ∧ Refines groups' [[0, 2], [1]] ∧ (groups'.length : Int) = 3 :=
  have hplan := groups_compose (α := Int) (ω := Unit) [2, 5, 1] (by decide : (0 : Int) < 4)
  ⟨by decide, hplan.1, hplan.2.1 [[0, 2], [1]] 7 ⟨by decide, by decide⟩ (by decide)⟩

end ArcticPlatform.Packing
