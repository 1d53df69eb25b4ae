import Mathlib.Data.List.Basic

/-!
# Writes at indices

A list that is written at several indices, one after the other.

Main results:

- Theorem `getElem?_foldl_set`: an index that is written once holds what was written.
- Theorem `foldl_set_perm`: writes at all indices.
-/

namespace IndexWrites

open List

variable {α : Type*}

theorem length_foldl_set (entries : List (Nat × α)) (out : List α) :
    (entries.foldl (fun out entry => out.set entry.1 entry.2) out).length = out.length := by
  induction entries generalizing out with
  | nil => rfl
  | cons entry entries ih => rw [foldl_cons, ih, length_set]

theorem getElem?_foldl_set_of_notMem {entries : List (Nat × α)} {i : Nat} (out : List α)
    (hi : i ∉ entries.map Prod.fst) :
    (entries.foldl (fun out entry => out.set entry.1 entry.2) out)[i]? = out[i]? := by
  induction entries generalizing out with
  | nil => rfl
  | cons entry entries ih =>
    rw [map_cons, mem_cons, not_or] at hi
    rw [foldl_cons, ih _ hi.2, getElem?_set_ne (Ne.symm hi.1)]

/-- An index that is written once holds what was written. -/
theorem getElem?_foldl_set {entries : List (Nat × α)} {i : Nat} {a : α} {out : List α}
    (hnodup : (entries.map Prod.fst).Nodup) (hmem : (i, a) ∈ entries) (hi : i < out.length) :
    (entries.foldl (fun out entry => out.set entry.1 entry.2) out)[i]? = some a := by
  induction entries generalizing out with
  | nil => exact absurd hmem not_mem_nil
  | cons entry entries ih =>
    rw [map_cons, nodup_cons] at hnodup
    rw [foldl_cons]
    rcases mem_cons.mp hmem with rfl | hmem
    · rw [getElem?_foldl_set_of_notMem _ hnodup.1, getElem?_set_self hi]
    · exact ih hnodup.2 hmem (by rwa [length_set])

/-- Writes at all indices, in any order. -/
theorem foldl_set_perm {order : List Nat} {n : Nat} (f : Nat → α) {out : List α}
    (hperm : order.Perm (List.range n)) (hout : out.length = n) :
    (order.map fun i => (i, f i)).foldl (fun out entry => out.set entry.1 entry.2) out =
      (List.range n).map f := by
  have hfst : (order.map fun i => (i, f i)).map Prod.fst = order := by
    rw [map_map]
    exact map_id' order
  apply ext_getElem?
  intro i
  by_cases hi : i < n
  · have hmem : i ∈ order := hperm.mem_iff.mpr (mem_range.mpr hi)
    have hentry : (i, f i) ∈ order.map fun i => (i, f i) :=
      mem_map_of_mem (f := fun i => (i, f i)) hmem
    rw [getElem?_foldl_set (by rw [hfst]; exact hperm.nodup_iff.mpr nodup_range) hentry
      (by omega), getElem?_map, getElem?_range hi]
    rfl
  · have hlength := length_foldl_set (order.map fun i => (i, f i)) out
    rw [getElem?_eq_none (by omega), getElem?_eq_none (by simpa using hi)]

end IndexWrites
