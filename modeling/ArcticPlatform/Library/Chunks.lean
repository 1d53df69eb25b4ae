import ArcticPlatform.Library.TensorIndices

/-!
# Chunks of rows

A list cut into consecutive pieces, and the pieces that `torch.chunk` cuts it into:
all pieces but the last one have the same length, and there may be fewer of them than
were asked for.

Main results:

- Theorem `flatten_cut`: the pieces are the list.
- Theorem `getElem?_chunk`: the chunks, by their places in the list.
- Theorem `length_chunk_eq_iff`: when there are as many chunks as were asked for.
-/

namespace Chunks

open Tensors List

variable {α : Type*}

/-! ## Pieces of given sizes -/

/-- Consecutive pieces with the given sizes. -/
def cut : List Nat → List α → List (List α)
  | [], _ => []
  | n :: sizes, l => l.take n :: cut sizes (l.drop n)

@[simp] theorem length_cut (sizes : List Nat) (l : List α) : (cut sizes l).length = sizes.length := by
  induction sizes generalizing l with
  | nil => rfl
  | cons n sizes ih => simp [cut, ih]

variable {l : List α}

/-- The pieces, end to end. -/
theorem flatten_cut {sizes : List Nat} (h : sizes.sum = l.length) : (cut sizes l).flatten = l := by
  induction sizes generalizing l with
  | nil => exact (length_eq_zero_iff.mp h.symm).symm
  | cons n sizes ih =>
    rw [sum_cons] at h
    rw [cut, flatten_cons, ih (by rw [length_drop]; omega), take_append_drop]

theorem cut_flatten (blocks : List (List α)) : cut (blocks.map List.length) blocks.flatten = blocks := by
  induction blocks with
  | nil => rfl
  | cons block blocks ih =>
    rw [map_cons, flatten_cons, cut, take_left, drop_left, ih]

theorem getElem?_cut (sizes : List Nat) (l : List α) (i : Nat) :
    (cut sizes l)[i]? = sizes[i]?.map fun k => (l.drop (sizes.take i).sum).take k := by
  induction sizes generalizing l i with
  | nil => simp [cut]
  | cons n sizes ih =>
    cases i with
    | zero => simp [cut]
    | succ i =>
      rw [cut, getElem?_cons_succ, ih, getElem?_cons_succ, take_succ_cons, sum_cons]
      simp only [drop_drop]

/-! ## The sizes of chunks -/

/-- The length of all chunks but the last. -/
def stepOf (n size : Nat) : Nat := (size + n - 1) / n

variable {n size : Nat}

theorem stepOf_pos (hn : 0 < n) (hsize : 0 < size) : 0 < stepOf n size := Nat.div_pos (by omega) hn

theorem size_le_mul_stepOf (hn : 0 < n) : size ≤ n * stepOf n size := by
  have hdiv := Nat.div_add_mod (size + n - 1) n
  have hmod := Nat.mod_lt (size + n - 1) hn
  rw [stepOf]
  omega

theorem stepOf_le (hn : 0 < n) (hsize : 0 < size) : stepOf n size ≤ size := by
  rw [stepOf]
  apply Nat.div_le_of_le_mul
  obtain ⟨k, rfl⟩ : ∃ k, size = k + 1 := ⟨size - 1, by omega⟩
  rw [Nat.mul_succ]
  have := Nat.le_mul_of_pos_left k hn
  omega

theorem sum_chunkSizes (n size : Nat) : (chunkSizes n size).sum = size := by
  rcases Nat.eq_zero_or_pos size with rfl | hsize
  · simp [chunkSizes]
  · have hdiv := Nat.div_add_mod' size (stepOf n size)
    have hstep : (size + n - 1) / n = stepOf n size := rfl
    simp only [chunkSizes, if_neg hsize.ne', hstep]
    rw [sum_append, sum_replicate, smul_eq_mul]
    split
    · next hmod => rw [sum_nil]; omega
    · rw [sum_singleton, hdiv]

/-- The chunks start at the multiples of one length; the last one has what is left. -/
theorem getElem?_chunkSizes (hn : 0 < n) (hsize : 0 < size) (i : Nat) :
    (chunkSizes n size)[i]? =
      if i * stepOf n size < size then some (min (stepOf n size) (size - i * stepOf n size)) else none := by
  have hpos := stepOf_pos hn hsize
  have hdiv := Nat.div_add_mod' size (stepOf n size)
  have hlt := Nat.mod_lt size hpos
  have hstep : (size + n - 1) / n = stepOf n size := rfl
  simp only [chunkSizes, if_neg hsize.ne', hstep]
  rw [getElem?_append, length_replicate]
  by_cases hi : i < size / stepOf n size
  · have hle := Nat.mul_le_mul_right (stepOf n size) (Nat.succ_le_of_lt hi)
    rw [Nat.succ_mul] at hle
    rw [if_pos hi, getElem?_replicate, if_pos hi, if_pos (by omega), min_eq_left (by omega)]
  · rw [if_neg hi]
    obtain ⟨j, rfl⟩ : ∃ j, i = size / stepOf n size + j := ⟨i - size / stepOf n size, by omega⟩
    rw [Nat.add_sub_cancel_left, add_mul]
    cases j with
    | zero =>
      rw [zero_mul, add_zero]
      split
      · next hmod => rw [if_neg (by omega)]; rfl
      · next hmod =>
        rw [if_pos (by omega), min_eq_right (by omega), getElem?_cons_zero]
        congr 1
        omega
    | succ j =>
      have hge : ¬ size / stepOf n size * stepOf n size + (j + 1) * stepOf n size < size := by
        rw [Nat.succ_mul]
        omega
      rw [if_neg hge]
      split <;> rfl

/-- There are as many chunks as were asked for exactly when the chunks before the last one leave
something. -/
theorem le_length_chunkSizes_iff (hn : 0 < n) (hsize : 0 < size) :
    n ≤ (chunkSizes n size).length ↔ (n - 1) * stepOf n size < size := by
  have hlast := getElem?_chunkSizes hn hsize (n - 1)
  constructor
  · intro hle
    by_contra hge
    rw [if_neg hge, List.getElem?_eq_none_iff] at hlast
    omega
  · intro hlt
    rw [if_pos hlt] at hlast
    have := (List.getElem?_eq_some_iff.mp hlast).1
    omega

theorem length_chunkSizes_le (hn : 0 < n) (hsize : 0 < size) : (chunkSizes n size).length ≤ n := by
  have hlast := getElem?_chunkSizes hn hsize n
  rwa [if_neg (Nat.not_lt.mpr (size_le_mul_stepOf hn)), List.getElem?_eq_none_iff] at hlast

theorem sum_take_chunkSizes {n size i : Nat} (hn : 0 < n) (hsize : 0 < size)
    (hi : i * stepOf n size < size) : ((chunkSizes n size).take i).sum = i * stepOf n size := by
  induction i with
  | zero => simp
  | succ i ih =>
    rw [Nat.succ_mul] at hi ⊢
    have hget := getElem?_chunkSizes hn hsize i
    rw [if_pos (by omega), min_eq_left (by omega)] at hget
    rw [Slices.sum_take_succ hget, ih (by omega)]

/-! ## Chunks -/

/-- `torch.chunk(l, n, dim=0)`. -/
def chunk (n : Nat) (l : List α) : List (List α) := cut (chunkSizes n l.length) l

theorem flatten_chunk (n : Nat) (l : List α) : (chunk n l).flatten = l :=
  flatten_cut (sum_chunkSizes n l.length)

theorem length_chunk (n : Nat) (l : List α) : (chunk n l).length = (chunkSizes n l.length).length :=
  length_cut _ l

theorem length_chunk_le {n : Nat} (hn : 0 < n) (hl : 0 < l.length) : (chunk n l).length ≤ n := by
  rw [length_chunk]
  exact length_chunkSizes_le hn hl

/-- When there are as many chunks as were asked for. -/
theorem length_chunk_eq_iff {n : Nat} (hn : 0 < n) (hl : 0 < l.length) :
    (chunk n l).length = n ↔ (n - 1) * stepOf n l.length < l.length := by
  have hle := length_chunk_le hn hl
  rw [length_chunk] at hle ⊢
  rw [← le_length_chunkSizes_iff hn hl]
  omega

/-- The chunks, by their places in the list. -/
theorem getElem?_chunk {n : Nat} (hn : 0 < n) (hl : 0 < l.length) (i : Nat) :
    (chunk n l)[i]? = if i * stepOf n l.length < l.length then
        some ((l.drop (i * stepOf n l.length)).take (stepOf n l.length))
      else none := by
  rw [chunk, getElem?_cut, getElem?_chunkSizes hn hl]
  split
  · next hi =>
    rw [Option.map_some, sum_take_chunkSizes hn hl hi, ← length_drop, take_eq_take_min]
    simp
  · rfl

theorem length_headD_chunk {n : Nat} (hn : 0 < n) (hl : 0 < l.length) :
    ((chunk n l).headD []).length = stepOf n l.length := by
  have hfirst := getElem?_chunk hn hl 0
  rw [zero_mul, if_pos hl, drop_zero] at hfirst
  rw [headD_eq_head?_getD, head?_eq_getElem?, hfirst, Option.getD_some, length_take,
    min_eq_left (stepOf_le hn hl)]

theorem chunk_eq_map {n : Nat} (hn : 0 < n) (hl : 0 < l.length) (h : (chunk n l).length = n) :
    chunk n l = (List.range n).map fun i =>
      (l.drop (i * stepOf n l.length)).take (stepOf n l.length) := by
  apply ext_getElem?
  intro i
  rw [getElem?_map]
  rcases lt_or_ge i n with hi | hi
  · have hsome : (chunk n l)[i]? ≠ none := by simp [h, hi]
    rw [getElem?_chunk hn hl] at hsome ⊢
    rw [getElem?_range hi]
    exact if_pos (by_contra fun hge => hsome (if_neg hge))
  · have hnone : (chunk n l)[i]? = none := List.getElem?_eq_none_iff.mpr (by rwa [h])
    rw [hnone, List.getElem?_eq_none_iff.mpr (by simpa using hi)]
    rfl

theorem length_chunk_of_dvd {n : Nat} (hn : 0 < n) (hdvd : n ∣ l.length) :
    (chunk n l).length = n := by
  obtain ⟨w, hw⟩ := hdvd
  rw [length_chunk, hw, chunkSizes_mul hn, length_replicate]

/-! ## The largest of several counts -/

theorem le_foldl_max (l : List Nat) (n : Nat) : n ≤ l.foldl max n ∧ ∀ k ∈ l, k ≤ l.foldl max n := by
  induction l generalizing n with
  | nil => simp
  | cons k l ih =>
    obtain ⟨hstart, hrest⟩ := ih (max n k)
    refine ⟨(le_max_left n k).trans hstart, ?_⟩
    intro k' hk'
    rcases mem_cons.mp hk' with rfl | hk'
    · exact (le_max_right n k').trans hstart
    · exact hrest k' hk'

end Chunks
