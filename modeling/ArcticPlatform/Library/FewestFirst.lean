import ArcticPlatform.Library.Bins
import Mathlib.Data.List.Induction
import Mathlib.Data.List.Sort

/-!
# Filling bins, the fewest items first

Items go one after the other, the largest first, into bins of one capacity: each into the bin with
room for it that has the fewest items, or into a new one.  A bin is a pair of the number of its items
and their load.

Main results:

- Theorem `chosen_eq`: the bin that is chosen is the least one with room, in any order of the bins.
- Theorem `retriedBins_eq`: the number of bins of the first retry that is a multiple of a divisor.
-/

namespace FewestFirst

open Bins List

/-- The bin with room for an item that has the fewest items, and of those the least load. -/
def chosen (capacity size : Nat) (bins : List (Nat × Nat)) : Option (Nat × Nat) :=
  let room := bins.filter fun bin => bin.2 + size ≤ capacity
  room.find? fun bin => room.all (pairLe bin)

/-- An item opens a bin where there are fewer than `least` or none has room. -/
def place (capacity least : Nat) (bins : List (Nat × Nat)) (size : Nat) : List (Nat × Nat) :=
  match if bins.length < least then none else chosen capacity size bins with
  | none => (1, size) :: bins
  | some bin => (bin.1 + 1, bin.2 + size) :: bins.erase bin

/-- The bins of items in their order. -/
def fill (capacity least : Nat) (sizes : List Nat) : List (Nat × Nat) :=
  sizes.foldl (place capacity least) []

/-- The number of bins of items, the largest first. -/
def binsUsed (capacity least : Nat) (sizes : List Nat) : Nat :=
  (fill capacity least (sizes.insertionSort (· ≥ ·))).length

/-- The number of bins where one tries `least` and then the multiples of a divisor above it, until that
number is a multiple of the divisor. -/
def retriedBins (capacity divisor least : Nat) (sizes : List Nat) : Option Nat :=
  ((List.range (sizes.length + 1)).find? fun k =>
    (k = least ∨ least < k ∧ divisor ∣ k) ∧ divisor ∣ binsUsed capacity k sizes).map
      (binsUsed capacity · sizes)

variable {capacity size : Nat} {bins : List (Nat × Nat)}

theorem chosen_none (h : ∀ bin ∈ bins, capacity < bin.2 + size) :
    chosen capacity size bins = none := by
  have hroom : bins.filter (fun bin => bin.2 + size ≤ capacity) = [] :=
    filter_eq_nil_iff.mpr fun bin hbin => by simpa using h bin hbin
  rw [chosen, hroom]
  rfl

/-- The bin that is chosen is the least one with room. -/
theorem chosen_eq {bin : Nat × Nat} (hbin : bin ∈ bins) (hroom : bin.2 + size ≤ capacity)
    (hleast : ∀ other ∈ bins, other.2 + size ≤ capacity → pairLe bin other = true) :
    chosen capacity size bins = some bin := by
  set room := bins.filter fun bin => bin.2 + size ≤ capacity with hdef
  have hmem : ∀ other, other ∈ room ↔ other ∈ bins ∧ other.2 + size ≤ capacity := fun other => by
    simp [hdef]
  have hall : room.all (pairLe bin) = true := all_eq_true.mpr fun other hother =>
    hleast other ((hmem other).mp hother).1 ((hmem other).mp hother).2
  rw [chosen, ← hdef]
  cases hfound : room.find? fun bin => room.all (pairLe bin) with
  | none => exact absurd hall (find?_eq_none.mp hfound bin ((hmem bin).mpr ⟨hbin, hroom⟩))
  | some other =>
    have hle := all_eq_true.mp hall other (mem_of_find?_eq_some hfound)
    have hle' := all_eq_true.mp (by simpa using find?_some hfound) bin
      ((hmem bin).mpr ⟨hbin, hroom⟩)
    exact congrArg some (pairLe_antisymm hle' hle)

theorem length_place_le (capacity least : Nat) (bins : List (Nat × Nat)) (size : Nat) :
    (place capacity least bins size).length ≤ bins.length + 1 := by
  unfold place
  split
  · exact Nat.le_refl _
  · exact Nat.succ_le_succ (erase_sublist.length_le)

theorem binsUsed_le (capacity least : Nat) (sizes : List Nat) :
    binsUsed capacity least sizes ≤ sizes.length := by
  rw [binsUsed, ← length_insertionSort (· ≥ ·) sizes, fill]
  generalize sizes.insertionSort (· ≥ ·) = sorted
  induction sorted using List.reverseRecOn with
  | nil => exact Nat.le_refl _
  | append_singleton sorted size ih =>
    rw [foldl_append, length_append]
    exact (length_place_le _ _ _ _).trans (Nat.succ_le_succ ih)

/-- Where all earlier tries fail, the retries end with the number of bins of this one. -/
theorem retriedBins_eq {divisor least k : Nat} {sizes : List Nat} (hk : k ≤ sizes.length)
    (htry : k = least ∨ least < k ∧ divisor ∣ k) (hdvd : divisor ∣ binsUsed capacity k sizes)
    (hearlier : ∀ j < k, (j = least ∨ least < j ∧ divisor ∣ j) →
      ¬divisor ∣ binsUsed capacity j sizes) :
    retriedBins capacity divisor least sizes = some (binsUsed capacity k sizes) := by
  rw [retriedBins, Option.map_eq_some_iff]
  refine ⟨k, find?_range_eq_some.mpr ⟨by simpa using ⟨htry, hdvd⟩, ?_, fun j hj => ?_⟩, rfl⟩
  · exact mem_range.mpr (Nat.lt_succ_of_le hk)
  · rw [Bool.not_eq_true', decide_eq_false_iff_not]
    exact fun h => hearlier j hj h.1 h.2

end FewestFirst
