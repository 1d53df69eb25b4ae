import ArcticPlatform.Library.StridedViews
import Mathlib.Tactic.Linarith

/-!
# Nested views

A strided view is nested when the stride of each axis is at least the extent of the axes further in,
with any padding between them.  Its entries are the addresses of the outer axes, each followed by the
extent of the inner ones, and these stretches do not overlap.

Main results:

- Theorem `lt_extent`: the entries are below the extent.
- Theorem `Nested.apart`: two addresses of the outer axes are the extent of the inner axes apart.
- Theorem `Nested.apart_of_index`: so are those with another index on the innermost outer axis.
-/

namespace StridedViews

open List

/-- The number of addresses from the first entry to the last one, by the formula for sizes that are
not zero. -/
def extent : List Axis → Int
  | [] => 1
  | a :: axes => ((a.size : Int) - 1) * a.stride + extent axes

/-- Outermost first, each stride is at least the extent of the axes further in. -/
def Nested : List Axis → Prop
  | [] => True
  | a :: axes => extent axes ≤ a.stride ∧ Nested axes

theorem extent_append (outer inner : List Axis) :
    extent (outer ++ inner) = extent outer + extent inner - 1 := by
  induction outer with
  | nil => simp [extent]
  | cons a outer ih =>
    rw [cons_append, extent, extent, ih]
    ring

theorem extent_perm {axes axes' : List Axis} (h : axes.Perm axes') : extent axes = extent axes' := by
  induction h with
  | nil => rfl
  | cons a _ ih => rw [extent, extent, ih]
  | swap a b axes =>
    simp only [extent]
    ring
  | trans _ _ ih ih' => exact ih.trans ih'

variable {axes : List Axis}

theorem lt_extent {y : Nat} (h : y ∈ addresses axes) : (y : Int) < extent axes := by
  induction axes generalizing y with
  | nil =>
    rw [addresses, mem_singleton] at h
    subst h
    decide
  | cons a axes ih =>
    obtain ⟨i, hi, z, hz, rfl⟩ := mem_addresses_cons.mp h
    have hz' := ih hz
    have hmul : (i : Int) * a.stride ≤ ((a.size : Int) - 1) * a.stride :=
      mul_le_mul_of_nonneg_right (by omega) (by omega)
    rw [extent]
    push_cast
    linarith

theorem size_pos_of_mem {y : Nat} (h : y ∈ addresses axes) : ∀ a ∈ axes, 0 < a.size := by
  induction axes generalizing y with
  | nil => exact nofun
  | cons a axes ih =>
    obtain ⟨i, hi, z, hz, -⟩ := mem_addresses_cons.mp h
    intro b hb
    rcases mem_cons.mp hb with rfl | hb
    · exact Nat.zero_lt_of_lt hi
    · exact ih hz b hb

theorem extent_pos (h : ∀ a ∈ axes, 0 < a.size) : 1 ≤ extent axes := by
  induction axes with
  | nil => exact le_rfl
  | cons a axes ih =>
    have hrest := ih fun b hb => h b (mem_cons_of_mem a hb)
    have hhead : (0 : Int) ≤ ((a.size : Int) - 1) * a.stride :=
      mul_nonneg (by have := h a mem_cons_self; omega) (by omega)
    rw [extent]
    linarith

variable {a : Axis}

theorem stride_lt_extent (h : ∀ a ∈ axes, 0 < a.size) (ha : a ∈ axes) (hsize : 1 < a.size) :
    (a.stride : Int) < extent axes := by
  rw [extent_perm (perm_cons_erase ha), extent]
  have hrest : 1 ≤ extent (axes.erase a) := extent_pos fun b hb => h b (mem_of_mem_erase hb)
  have hone : 1 * (a.stride : Int) ≤ ((a.size : Int) - 1) * a.stride :=
    mul_le_mul_of_nonneg_right (by omega) (by omega)
  linarith

variable {outer inner : List Axis}

theorem Nested.of_append (h : Nested (outer ++ inner)) : Nested inner := by
  induction outer with
  | nil => exact h
  | cons a outer ih => exact ih h.2

theorem Nested.extent_le_stride (h : Nested (outer ++ inner)) (hsize : ∀ a ∈ outer, 0 < a.size)
    (ha : a ∈ outer) : extent inner ≤ a.stride := by
  induction outer with
  | nil => exact absurd ha not_mem_nil
  | cons b outer ih =>
    have hsize' := fun c hc => hsize c (mem_cons_of_mem b hc)
    rcases mem_cons.mp ha with rfl | ha
    · have hext := h.1
      rw [List.append_eq, extent_append] at hext
      have hpos := extent_pos hsize'
      linarith
    · exact ih h.2 hsize' ha

/-- Two addresses of the outer axes are the extent of the inner axes apart. -/
theorem Nested.apart (h : Nested (outer ++ inner)) {y y' : Nat} (hy : y ∈ addresses outer)
    (hy' : y' ∈ addresses outer) (hne : y ≠ y') :
    (y : Int) + extent inner ≤ y' ∨ (y' : Int) + extent inner ≤ y := by
  induction outer generalizing y y' with
  | nil =>
    rw [addresses, mem_singleton] at hy hy'
    exact absurd (hy.trans hy'.symm) hne
  | cons a outer ih =>
    obtain ⟨i, -, z, hz, rfl⟩ := mem_addresses_cons.mp hy
    obtain ⟨i', -, z', hz', rfl⟩ := mem_addresses_cons.mp hy'
    have hext := h.1
    rw [List.append_eq, extent_append] at hext
    -- A step on the outer axis is longer than what the axes further in can take back.
    have hstep : ∀ {i i' : Nat} {z : Nat} (z' : Nat), i < i' → z ∈ addresses outer →
        ((i * a.stride + z : Nat) : Int) + extent inner ≤ ((i' * a.stride + z' : Nat) : Int) := by
      intro i i' z z' hlt hz
      have hz₁ := lt_extent hz
      have hmul : ((i : Int) + 1) * a.stride ≤ i' * a.stride :=
        mul_le_mul_of_nonneg_right (by omega) (by omega)
      push_cast
      linarith
    rcases lt_trichotomy i i' with hlt | rfl | hlt
    · exact .inl (hstep z' hlt hz)
    · have hrest := ih h.2 hz hz' (fun heq => hne (by rw [heq]))
      push_cast
      exact hrest.imp (fun hle => by linarith) fun hle => by linarith
    · exact .inr (hstep z hlt hz')

/-- The same with an index on one more axis, where the two indices differ. -/
theorem Nested.apart_of_index (h : Nested (outer ++ a :: inner)) {y y' k k' : Nat}
    (hy : y ∈ addresses outer) (hy' : y' ∈ addresses outer) (hk : k < a.size) (hk' : k' < a.size)
    (hne : k ≠ k') :
    ((y + k * a.stride : Nat) : Int) + extent inner ≤ ((y' + k' * a.stride : Nat) : Int) ∨
      ((y' + k' * a.stride : Nat) : Int) + extent inner ≤ ((y + k * a.stride : Nat) : Int) := by
  have hmul : ∀ {k : Nat}, k < a.size → (k : Int) * a.stride ≤ ((a.size : Int) - 1) * a.stride :=
    fun hk => mul_le_mul_of_nonneg_right (by omega) (by omega)
  have hnonneg : ∀ k : Nat, (0 : Int) ≤ k * a.stride := fun k => mul_nonneg (by omega) (by omega)
  push_cast
  by_cases heq : y = y'
  · subst heq
    have hinner := h.of_append.1
    have hstep : ∀ {k k' : Nat}, k < k' → (k : Int) * a.stride + a.stride ≤ k' * a.stride := by
      intro k k' hlt
      have hle : ((k : Int) + 1) * a.stride ≤ k' * a.stride :=
        mul_le_mul_of_nonneg_right (by omega) (by omega)
      linarith
    rcases lt_or_gt_of_ne hne with hlt | hlt
    · have hle := hstep hlt
      exact .inl (by linarith)
    · have hle := hstep hlt
      exact .inr (by linarith)
  · have hext : extent (a :: inner) = ((a.size : Int) - 1) * a.stride + extent inner := rfl
    refine (h.apart hy hy' heq).imp (fun hle => ?_) fun hle => ?_
    · rw [hext] at hle
      linarith [hmul hk, hnonneg k']
    · rw [hext] at hle
      linarith [hmul hk', hnonneg k]

theorem addresses_filter {p : Axis → Bool} (h : ∀ a ∈ axes, ¬p a → a.size = 1) :
    addresses (axes.filter p) = addresses axes := by
  induction axes with
  | nil => rfl
  | cons a axes ih =>
    have hrest := ih fun b hb => h b (mem_cons_of_mem a hb)
    by_cases ha : p a
    · rw [filter_cons_of_pos ha, addresses, addresses, hrest]
    · rw [filter_cons_of_neg ha, hrest, addresses, h a mem_cons_self ha]
      simp

theorem extent_filter {p : Axis → Bool} (h : ∀ a ∈ axes, ¬p a → a.size = 1) :
    extent (axes.filter p) = extent axes := by
  induction axes with
  | nil => rfl
  | cons a axes ih =>
    have hrest := ih fun b hb => h b (mem_cons_of_mem a hb)
    by_cases ha : p a
    · rw [filter_cons_of_pos ha, extent, extent, hrest]
    · rw [filter_cons_of_neg ha, hrest, extent, h a mem_cons_self ha]
      simp

end StridedViews
