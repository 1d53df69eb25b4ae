import ArcticPlatform.Library.NdTensors

/-!
# Views of row-major tensors

A matrix is a list of rows.  This module has the views that split the last axis
of a matrix into blocks, the exchange of two axes, and the equal-split exchange of
chunks among the ranks of a group.

Main results:

- Theorem `view_map`: a view of rows that are computed one by one.
- Theorem `allToAll_blocks`: what the ranks receive.
-/

namespace TensorViews

open Tensors List

variable {α β γ : Type}

/-- `t.view(-1, n, w)` of a matrix. -/
def view (rows : List (List α)) (n w : Nat) : List (List (List α)) :=
  let flat := rows.flatten
  (chunks (n * w) (flat.length / (n * w)) flat).map (chunks w n)

/-- `t.transpose(0, 1)` where the second axis has `n` entries. -/
def swapAxes [Inhabited α] (n : Nat) (t : List (List α)) : List (List α) :=
  (range n).map fun s => t.map fun row => row.getD s default

/-- `all_to_all_single` on the ranks of a group: chunk `j` of rank `i` moves to
slot `i` of rank `j`. -/
def allToAll (n : Nat) (buffers : List (List α)) : List (List α) :=
  (range n).map fun j =>
    buffers.flatMap fun buffer => (chunks (buffer.length / n) n buffer).getD j []

/-! ## Views of rows -/

/-- A view of rows that are computed one by one. -/
theorem view_map {n w : Nat} (hpos : 0 < n * w) (l : List β) {f : β → List α}
    (hlength : ∀ x ∈ l, (f x).length = n * w) :
    view (l.map f) n w = l.map fun x => chunks w n (f x) := by
  have hflat : (l.map f).flatten.length = l.length * (n * w) := by
    rw [length_flatten_of (k := n * w)]
    · rw [length_map]
    · intro row hrow
      obtain ⟨x, hx, rfl⟩ := mem_map.mp hrow
      exact hlength x hx
  have hrows : ∀ row ∈ l.map f, row.length = n * w := by
    intro row hrow
    obtain ⟨x, hx, rfl⟩ := mem_map.mp hrow
    exact hlength x hx
  have hchunks := chunks_flatten hrows
  rw [length_map] at hchunks
  simp only [view, hflat, Nat.mul_div_cancel _ hpos, hchunks, map_map, Function.comp_def]

theorem swapAxes_map [Inhabited α] (n : Nat) (l : List β) (f : β → Nat → α) :
    swapAxes n (l.map fun x => (range n).map (f x)) =
      (range n).map fun s => l.map fun x => f x s := by
  apply map_congr_left
  intro s hs
  rw [map_map]
  apply map_congr_left
  intro x hx
  simp [getD_eq_getElem?_getD, mem_range.mp hs]

/-! ## Exchanging chunks -/

theorem chunks_flatten_getD {k n j : Nat} (hn : 0 < n) {f : Nat → List α}
    (hlength : ∀ s < n, (f s).length = k) (hj : j < n) :
    (chunks (((range n).map f).flatten.length / n) n ((range n).map f).flatten).getD j [] =
      f j := by
  have hblocks : ∀ x ∈ (range n).map f, x.length = k := by
    intro x hx
    obtain ⟨s, hs, rfl⟩ := mem_map.mp hx
    exact hlength s (mem_range.mp hs)
  have hflat := length_flatten_of hblocks
  rw [length_map, length_range] at hflat
  have hchunks := chunks_flatten hblocks
  rw [length_map, length_range] at hchunks
  rw [hflat, Nat.mul_div_cancel_left k hn, hchunks]
  simp [getD_eq_getElem?_getD, hj]

/-- What the ranks receive: one block of every rank, in rank order. -/
theorem allToAll_blocks {k n : Nat} (hn : 0 < n) (l : List β) {f : β → Nat → List α}
    (hlength : ∀ x ∈ l, ∀ s < n, (f x s).length = k) :
    allToAll n (l.map fun x => ((range n).map (f x)).flatten) =
      (range n).map fun j => l.flatMap fun x => f x j := by
  apply map_congr_left
  intro j hj
  rw [flatMap_map, flatMap_def, flatMap_def]
  congr 1
  apply map_congr_left
  intro x hx
  exact chunks_flatten_getD hn (hlength x hx) (mem_range.mp hj)

end TensorViews
