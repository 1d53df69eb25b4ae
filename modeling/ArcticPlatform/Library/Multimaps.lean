import Mathlib.Data.List.Basic

/-!
# Multimaps

A multimap holds several values under one key, each of them once.

Main results:

- Theorems `contains_insert` and `contains_pop`: what a multimap holds after
  an update.
-/

namespace Multimaps

variable {κ α : Type} [DecidableEq κ] [DecidableEq α]

/-- The pairs of a multimap. -/
structure Multimap (κ α : Type) where
  pairs : List (κ × α)

namespace Multimap

/-- The empty multimap. -/
def empty : Multimap κ α := ⟨[]⟩

/-- The value is held under the key. -/
def contains (m : Multimap κ α) (k : κ) (v : α) : Bool := decide ((k, v) ∈ m.pairs)

/-- Hold the value under the key. -/
def insert (m : Multimap κ α) (k : κ) (v : α) : Multimap κ α :=
  if m.contains k v then m else ⟨m.pairs ++ [(k, v)]⟩

/-- Hold the value under the key no longer. -/
def pop (m : Multimap κ α) (k : κ) (v : α) : Multimap κ α :=
  ⟨m.pairs.filter (· ≠ (k, v))⟩

@[simp]
theorem contains_empty (k : κ) (v : α) : (empty : Multimap κ α).contains k v = false := by
  simp [contains, empty]

theorem contains_insert (m : Multimap κ α) (k k' : κ) (v v' : α) :
    (m.insert k v).contains k' v' = true ↔ (k' = k ∧ v' = v) ∨ m.contains k' v' = true := by
  by_cases h : m.contains k v = true
  · rw [insert, if_pos h]
    constructor
    · exact Or.inr
    · rintro (⟨rfl, rfl⟩ | h')
      · exact h
      · exact h'
  · rw [insert, if_neg h]
    simp [contains, or_comm]

theorem contains_pop (m : Multimap κ α) (k k' : κ) (v v' : α) :
    (m.pop k v).contains k' v' = true ↔ m.contains k' v' = true ∧ ¬(k' = k ∧ v' = v) := by
  simp only [contains, pop, List.mem_filter, decide_eq_true_eq, ne_eq, Prod.mk.injEq]

end Multimap
end Multimaps
