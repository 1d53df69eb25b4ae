import ArcticPlatform.Library.Bins
import ArcticPlatform.Library.Dict
import ArcticPlatform.Library.Results
import Mathlib.Data.Prod.Lex

/-!
# Assigning prompt groups to ranks

An embedding of `common/utils/balanced_batch.py`.  Whole prompt groups are given to
ranks by their cost.

The costs of ranks are floating-point numbers in the source.  Here they are values of
any linear order with an addition of which no law is used, so that rounding is not
excluded.

Main results:

- Theorem `assignZorroGroups_perm`: the ranks of an assignment hold each row exactly once.
-/

namespace ArcticPlatform.Sharding

open Dicts Results List

/-- What the functions raise. -/
inductive Error where
  | numShards
  | groupCosts
  | notDivisible
  | notPermutation
  | groupTooLarge
  | groupsDoNotFit
  | searchBudget
  | keyError
  | indexError
  deriving DecidableEq

/-- The numbers in which the costs of ranks are added. -/
class CostNumber (κ : Type) extends LinearOrder κ where
  zero : κ
  add : κ → κ → κ
  /-- `float(n)` -/
  ofInt : Int → κ

instance : CostNumber Int where
  zero := 0
  add := (· + ·)
  ofInt n := n

/-! ## Whole groups -/

/-- `_PACK_NODE_BUDGET`. -/
def packNodeBudget : Nat := 100000

section Groups

variable {γ κ : Type} [CostNumber κ]

/-- A frame of the stack: a position, the ranks worth trying there, the choice among them, and
the row count and the cost of the chosen rank before that choice. -/
structure Frame (κ : Type) where
  pos : Nat
  ranks : List Nat
  choice : Nat
  savedRows : Nat
  savedCost : κ

/-- The variables of `_pack_groups`. -/
structure PackState (κ : Type) where
  rows : List Nat
  rankCosts : List κ
  placed : Dict Nat Nat
  stack : List (Frame κ)
  pos : Nat

variable (sizes : List Nat) (costs : List κ) (order : List Nat) (numShards cap : Nat)

/-- `candidates`: the ranks with room for a group, the cheapest first, and of ranks with the same
row count and cost only the first. -/
def candidates (s : PackState κ) (index : Nat) : List Nat :=
  let sorted := (range numShards).mergeSort fun a b =>
    toLex (s.rankCosts.getD a CostNumber.zero, a) ≤ toLex (s.rankCosts.getD b CostNumber.zero, b)
  let state rank := (s.rows.getD rank 0, s.rankCosts.getD rank CostNumber.zero)
  (sorted.foldl (fun acc rank =>
    if s.rows.getD rank 0 + sizes.getD index 0 > cap ∨ state rank ∈ acc.1 then acc
    else (acc.1 ++ [state rank], acc.2 ++ [rank])) ([], [])).2

/-- Put the group at a position on the rank that is the choice among ranks. -/
def place (s : PackState κ) (pos : Nat) (ranks : List Nat) (choice : Nat) : PackState κ :=
  let rank := ranks.getD choice 0
  let index := order.getD pos 0
  let savedRows := s.rows.getD rank 0
  let savedCost := s.rankCosts.getD rank CostNumber.zero
  { rows := s.rows.set rank (savedRows + sizes.getD index 0)
    rankCosts := s.rankCosts.set rank
      (CostNumber.add savedCost (costs.getD index CostNumber.zero))
    placed := s.placed.set index rank
    stack := ⟨pos, ranks, choice, savedRows, savedCost⟩ :: s.stack
    pos := pos + 1 }

/-- Pop frames up to one with a rank left to try, which is then tried. -/
def backtrack (rows : List Nat) (rankCosts : List κ) (placed : Dict Nat Nat) :
    List (Frame κ) → Option (PackState κ)
  | [] => none
  | frame :: stack =>
    let rank := frame.ranks.getD frame.choice 0
    let rows := rows.set rank frame.savedRows
    let rankCosts := rankCosts.set rank frame.savedCost
    let placed := placed.erase (order.getD frame.pos 0)
    if frame.ranks.length ≤ frame.choice + 1 then
      backtrack rows rankCosts placed stack
    else
      some (place sizes costs order ⟨rows, rankCosts, placed, stack, frame.pos⟩ frame.pos
        frame.ranks (frame.choice + 1))

/-- The loop of `_pack_groups` with the nodes that are left. -/
def packLoop : Nat → PackState κ → Except Error (Option (Dict Nat Nat))
  | 0, s => if s.pos = order.length then .ok (some s.placed) else .error .searchBudget
  | nodes + 1, s =>
    if s.pos = order.length then .ok (some s.placed)
    else
      match candidates sizes numShards cap s (order.getD s.pos 0) with
      | rank :: ranks => packLoop nodes (place sizes costs order s s.pos (rank :: ranks) 0)
      | [] =>
        match backtrack sizes costs order s.rows s.rankCosts s.placed s.stack with
        | none => .ok none
        | some s' =>
          match nodes with
          | 0 => .error .searchBudget
          | nodes + 1 => packLoop nodes s'

/-- `_pack_groups`. -/
def packGroups : Except Error (Option (Dict Nat Nat)) :=
  packLoop sizes costs order numShards cap packNodeBudget
    { rows := replicate numShards 0
      rankCosts := replicate numShards CostNumber.zero
      placed := Dict.empty
      stack := []
      pos := 0 }

end Groups

/-- `bins[placed[index]].extend(groups[index])`. -/
def fillBin (groups : List (List Nat)) (placed : Dict Nat Nat) (bins : List (List Nat))
    (index : Nat) : Except Error (List (List Nat)) :=
  match placed.get? index with
  | none => .error .keyError
  | some rank =>
    if rank < bins.length then .ok (bins.modify rank (· ++ groups.getD index []))
    else .error .indexError

section Assign

variable {γ κ : Type} [LinearOrder γ] [Inhabited γ] [CostNumber κ]

/-- `assign_zorro_groups`; `toFloat` is the conversion of a cost. -/
def assignZorroGroups (toFloat : γ → κ) (groups : List (List Nat)) (costs : List γ)
    (numShards numRows : Nat) : Except Error (Option (List (List Nat))) := do
  if numShards < 1 then
    .error .numShards
  else if groups.length ≠ costs.length then
    .error .groupCosts
  else if numRows ≤ numShards then
    .ok none
  else if numRows % numShards ≠ 0 then
    .error .notDivisible
  else if groups.flatten.mergeSort ≠ range numRows then
    .error .notPermutation
  else
    let cap := numRows / numShards
    let key index := toLex ((groups.getD index []).length, costs.getD index default)
    let order := (range groups.length).mergeSort fun i j => key j ≤ key i
    let sizes := order.map fun index => (groups.getD index []).length
    if sizes.any (cap < ·) then
      .error .groupTooLarge
    else if sizes ≠ [] ∧ sizes.toFinset.card = 1 ∧ 0 < sizes.getD 0 0 ∧
        numShards * (cap / sizes.getD 0 0) < groups.length then
      .error .groupsDoNotFit
    else
      match ← packGroups (groups.map List.length) (costs.map toFloat) order numShards cap with
      | none => .error .groupsDoNotFit
      | some placed =>
        let bins ← order.foldlM (fillBin groups placed) (replicate numShards [])
        .ok (some bins)

end Assign

/-! ## Assignments are permutations -/

theorem flatten_replicate_nil (n : Nat) : (replicate n ([] : List Nat)).flatten = [] := by
  simp

theorem fillBins_perm {groups : List (List Nat)} {placed : Dict Nat Nat} {order : List Nat}
    {bins bins' : List (List Nat)} (h : order.foldlM (fillBin groups placed) bins = .ok bins') :
    bins'.flatten.Perm (bins.flatten ++ order.flatMap fun index => groups.getD index []) := by
  refine foldlM_invariant
    (P := fun gone (b : List (List Nat)) =>
      b.flatten.Perm (bins.flatten ++ gone.flatMap fun index => groups.getD index []))
    (by simp) ?_ h
  intro gone index b b' hP hstep
  unfold fillBin at hstep
  split at hstep
  · cases hstep
  · split_ifs at hstep with hrank
    cases hstep
    rw [flatMap_append, flatMap_singleton, ← append_assoc]
    exact (Bins.flatten_modify_perm hrank _).trans (hP.append_right _)

theorem flatMap_range_getD (groups : List (List Nat)) :
    (range groups.length).flatMap (fun index => groups.getD index []) = groups.flatten := by
  rw [flatMap_def]
  congr 1
  apply ext_getElem?
  intro i
  by_cases hi : i < groups.length
  · simp [hi]
  · simp [le_of_not_gt hi]

section Perm

variable {γ κ : Type} [LinearOrder γ] [Inhabited γ] [CostNumber κ]

/-- What an assignment has checked, and the placement its bins come from. -/
theorem assignZorroGroups_eq_ok {toFloat : γ → κ} {groups : List (List Nat)} {costs : List γ}
    {numShards numRows : Nat} {bins : List (List Nat)}
    (h : assignZorroGroups toFloat groups costs numShards numRows = .ok (some bins)) :
    numRows % numShards = 0 ∧ groups.flatten.Perm (range numRows) ∧
      ∃ order placed, order.Perm (range groups.length) ∧
        packGroups (groups.map List.length) (costs.map toFloat) order numShards
          (numRows / numShards) = .ok (some placed) ∧
        order.foldlM (fillBin groups placed) (replicate numShards []) = .ok bins := by
  obtain ⟨-, h⟩ := of_ite_error h
  obtain ⟨-, h⟩ := of_ite_error h
  by_cases hfew : numRows ≤ numShards
  · rw [if_pos hfew] at h
    cases h
  rw [if_neg hfew] at h
  obtain ⟨hdvd, h⟩ := of_ite_error h
  obtain ⟨hcovered, h⟩ := of_ite_error h
  obtain ⟨-, h⟩ := of_ite_error h
  obtain ⟨-, h⟩ := of_ite_error h
  obtain ⟨placed, hpack, h⟩ := bind_eq_ok.mp h
  cases placed with
  | none => cases h
  | some placed =>
    obtain ⟨bins', hbins, h⟩ := bind_eq_ok.mp h
    cases h
    have hperm := (mergeSort_perm groups.flatten fun i j => decide (i ≤ j)).symm
    rw [not_not.mp hcovered] at hperm
    exact ⟨not_not.mp hdvd, hperm, _, placed, mergeSort_perm _ _, hpack, hbins⟩

/-- The bins hold each row exactly once. -/
theorem assignZorroGroups_perm {toFloat : γ → κ} {groups : List (List Nat)} {costs : List γ}
    {numShards numRows : Nat} {bins : List (List Nat)}
    (h : assignZorroGroups toFloat groups costs numShards numRows = .ok (some bins)) :
    bins.flatten.Perm (range numRows) := by
  obtain ⟨-, hcovered, order, placed, horder, -, hbins⟩ := assignZorroGroups_eq_ok h
  have hfill := fillBins_perm hbins
  rw [flatten_replicate_nil, nil_append] at hfill
  have hgroups := horder.flatMap_right fun index => groups.getD index []
  rw [flatMap_range_getD] at hgroups
  exact hfill.trans (hgroups.trans hcovered)

end Perm

end ArcticPlatform.Sharding
