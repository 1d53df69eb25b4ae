import Mathlib.Data.List.Perm.Basic
import Mathlib.Data.List.Nodup

/-!
# Owners of resources

Resources that are in use, each with one owner, where an owner takes a resource or gives one back.

Main results:

- Theorem `Owners.moved`: when one owner takes a resource that was not in use, or gives one of
  its own back, each resource in use still has one owner.
-/

namespace Ownership

open List

variable {ι α : Type}

/-- Every resource in use has one owner, and owners have resources in use only. -/
structure Owners (used : List α) (owned : ι → List α) : Prop where
  nodup : ∀ i, (owned i).Nodup
  within : ∀ i, ∀ r ∈ owned i, r ∈ used
  owner : ∀ r ∈ used, ∃ i, r ∈ owned i
  apart : ∀ i j, ∀ r ∈ owned i, r ∈ owned j → i = j

/-- What a step of one owner does: nothing, or it takes a resource, or it gives one back. -/
inductive Moved [DecidableEq α] (used owned : List α) : List α → List α → Prop
  | same : Moved used owned used owned
  | taken {owned' : List α} (r : α) (hperm : owned'.Perm (r :: owned)) :
    Moved used owned (r :: used) owned'
  | given {owned' : List α} (r : α) (hperm : owned.Perm (r :: owned')) :
    Moved used owned (used.erase r) owned'

variable {used : List α} {owned owned' : ι → List α}

theorem Owners.congr (h : Owners used owned) (hsame : ∀ i, owned' i = owned i) :
    Owners used owned' := by
  have heq : owned' = owned := funext hsame
  exact heq ▸ h

variable {r : α}

theorem Owners.existsUnique {owned : ι → List α} (h : Owners used owned) (hr : r ∈ used) :
    ∃! i, r ∈ owned i := by
  obtain ⟨i, hi⟩ := h.owner r hr
  exact ⟨i, hi, fun j hj => h.apart j i r hj hi⟩

variable {i : ι}

/-- An owner takes a resource that is not in use. -/
theorem Owners.taken (h : Owners used owned) (hr : r ∉ used)
    (hperm : (owned' i).Perm (r :: owned i)) (hother : ∀ j, j ≠ i → owned' j = owned j) :
    Owners (r :: used) owned' := by
  have hmem : ∀ j x, x ∈ owned' j ↔ (j = i ∧ x = r) ∨ x ∈ owned j := by
    intro j x
    by_cases hj : j = i
    · subst hj
      rw [hperm.mem_iff, mem_cons]
      simp
    · rw [hother j hj]
      simp [hj]
  have hnew : ∀ j, r ∉ owned j := fun j hj => hr (h.within j r hj)
  refine ⟨?_, ?_, ?_, ?_⟩
  · intro j
    by_cases hj : j = i
    · subst hj
      exact hperm.nodup_iff.mpr (nodup_cons.mpr ⟨hnew j, h.nodup j⟩)
    · exact hother j hj ▸ h.nodup j
  · intro j x hx
    rcases (hmem j x).mp hx with ⟨-, hxr⟩ | hx
    · simp [hxr]
    · exact mem_cons_of_mem _ (h.within j x hx)
  · intro x hx
    rcases mem_cons.mp hx with hxr | hx
    · exact ⟨i, (hmem i x).mpr (.inl ⟨rfl, hxr⟩)⟩
    · obtain ⟨j, hj⟩ := h.owner x hx
      exact ⟨j, (hmem j x).mpr (.inr hj)⟩
  · intro j k x hj hk
    rcases (hmem j x).mp hj with ⟨hji, hxr⟩ | hj
    · rcases (hmem k x).mp hk with ⟨hki, -⟩ | hk
      · exact hji.trans hki.symm
      · exact absurd (hxr ▸ hk) (hnew k)
    · rcases (hmem k x).mp hk with ⟨-, hxr⟩ | hk
      · exact absurd (hxr ▸ hj) (hnew j)
      · exact h.apart j k x hj hk

/-- An owner gives one of its resources back. -/
theorem Owners.given [DecidableEq α] (h : Owners used owned) (hused : used.Nodup)
    (hperm : (owned i).Perm (r :: owned' i)) (hother : ∀ j, j ≠ i → owned' j = owned j) :
    Owners (used.erase r) owned' := by
  have hnodup : r ∉ owned' i ∧ (owned' i).Nodup := nodup_cons.mp (hperm.nodup_iff.mp (h.nodup i))
  have hmem : ∀ j x, x ∈ owned' j ↔ x ≠ r ∧ x ∈ owned j := by
    intro j x
    by_cases hj : j = i
    · subst hj
      rw [hperm.mem_iff, mem_cons]
      constructor
      · intro hx
        exact ⟨fun hxr => hnodup.1 (hxr ▸ hx), .inr hx⟩
      · rintro ⟨hne, hx⟩
        exact hx.resolve_left hne
    · rw [hother j hj]
      constructor
      · intro hx
        refine ⟨?_, hx⟩
        intro hxr
        subst hxr
        exact hj (h.apart j i x hx (hperm.mem_iff.mpr (.head _)))
      · exact And.right
  refine ⟨?_, ?_, ?_, ?_⟩
  · intro j
    by_cases hj : j = i
    · exact hj ▸ hnodup.2
    · exact hother j hj ▸ h.nodup j
  · intro j x hx
    obtain ⟨hne, hx⟩ := (hmem j x).mp hx
    exact (mem_erase_of_ne hne).mpr (h.within j x hx)
  · intro x hx
    obtain ⟨hne, hx⟩ := hused.mem_erase_iff.mp hx
    obtain ⟨j, hj⟩ := h.owner x hx
    exact ⟨j, (hmem j x).mpr ⟨hne, hj⟩⟩
  · intro j k x hj hk
    exact h.apart j k x ((hmem j x).mp hj).2 ((hmem k x).mp hk).2

/-- A step of one owner; a resource that it takes was not in use, as the resources in use are
different before and after it. -/
theorem Owners.moved [DecidableEq α] {used used' : List α} (h : Owners used owned)
    (hused : used.Nodup) (hused' : used'.Nodup) (hmoved : Moved used (owned i) used' (owned' i))
    (hother : ∀ j, j ≠ i → owned' j = owned j) : Owners used' owned' := by
  generalize hi : owned' i = new at hmoved
  cases hmoved with
  | same =>
    apply h.congr
    intro j
    by_cases hj : j = i
    · exact hj ▸ hi
    · exact hother j hj
  | taken r hperm => exact h.taken (nodup_cons.mp hused').1 (hi ▸ hperm) hother
  | given r hperm => exact h.given hused (hi ▸ hperm) hother

end Ownership
