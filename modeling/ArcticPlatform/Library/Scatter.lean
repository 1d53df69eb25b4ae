import Mathlib.Algebra.BigOperators.Group.List.Basic

/-!
# Adding values at the places of an index

A scatter adds every value at the place its index names.

Main results:

- Theorem `scatterAdd_getElem?`: the value of a place.
-/

namespace Scatter

open List

variable {α : Type*} [AddCommMonoid α]

/-- `zeros(n).scatter_add_(0, index, src)`. -/
def scatterAdd (n : Nat) (index : List Nat) (src : List α) : List α :=
  (index.zip src).foldl (fun acc entry => acc.modify entry.1 (· + entry.2)) (replicate n 0)

/-- `repeat_interleave(arange(len(lens)), lens)`. -/
def blockIndex (lens : List Nat) : List Nat :=
  lens.zipIdx.flatMap fun entry => replicate entry.1 entry.2

theorem length_foldl_modify (entries : List (Nat × α)) (acc : List α) :
    (entries.foldl (fun acc entry => acc.modify entry.1 (· + entry.2)) acc).length =
      acc.length := by
  induction entries generalizing acc with
  | nil => rfl
  | cons entry entries ih => rw [foldl_cons, ih, length_modify]

@[simp]
theorem length_scatterAdd (n : Nat) (index : List Nat) (src : List α) :
    (scatterAdd n index src).length = n := by
  rw [scatterAdd, length_foldl_modify, length_replicate]

/-- The value of a place is the sum of what its index brings there. -/
theorem scatterAdd_getElem? {n j : Nat} (hj : j < n) (index : List Nat) (src : List α) :
    (scatterAdd n index src)[j]? =
      some (((index.zip src).filter fun entry => entry.1 = j).map (·.2)).sum := by
  have key : ∀ (entries : List (Nat × α)) (acc : List α) (x : α), acc[j]? = some x →
      (entries.foldl (fun acc entry => acc.modify entry.1 (· + entry.2)) acc)[j]? =
        some (x + ((entries.filter fun entry => entry.1 = j).map (·.2)).sum) := by
    intro entries
    induction entries with
    | nil => simp
    | cons e entries ih =>
      intro acc x hx
      rw [foldl_cons]
      by_cases he : e.1 = j
      · rw [ih _ (x + e.2) (by simp [he, hx]),
          filter_cons_of_pos (by simpa using he), map_cons, sum_cons, add_assoc]
      · rw [ih _ x (by simp [he, hx]), filter_cons_of_neg (by simpa using he)]
  rw [scatterAdd, key _ _ 0 (by simp [hj]), zero_add]

end Scatter
