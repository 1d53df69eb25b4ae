import ArcticPlatform.Library.NdTensors
import Mathlib.Data.List.GetD

/-!
# Tensors by index

The values of a tensor are read by an index for every axis, and the operations that
move values are given by the index that every value of the result is read from.

Main results:

- Theorem `entry_build`: what stands at an index of a tensor built by index.
- Theorem `locate_sum`: where a place of joined pieces is found.
- Theorem `cat_ok`: tensors end to end.
-/

namespace Tensors

open Results List

variable {α β : Type}

/-! ## Indices -/

/-- The place of an index in row-major order. -/
def offset : List Nat → List Nat → Nat
  | _ :: shape, i :: index => i * shape.prod + offset shape index
  | _, _ => 0

/-- An index of a shape: a place along every axis. -/
def InBounds (shape index : List Nat) : Prop := Forall₂ (fun i n => i < n) index shape

/-- All indices of a shape, in row-major order. -/
def indices : List Nat → List (List Nat)
  | [] => [[]]
  | n :: shape => (range n).flatMap fun i => (indices shape).map (i :: ·)

theorem length_indices (shape : List Nat) : (indices shape).length = shape.prod := by
  induction shape with
  | nil => rfl
  | cons n shape ih => simp [indices, ih]

variable {shape index : List Nat}

theorem offset_lt (h : InBounds shape index) : offset shape index < shape.prod := by
  induction h with
  | nil => simp [offset]
  | @cons i n index shape hi _ ih =>
    have := Nat.mul_le_mul_right shape.prod (Nat.succ_le_of_lt hi)
    rw [Nat.succ_mul] at this
    rw [offset, prod_cons]
    omega

theorem getElem?_indices (h : InBounds shape index) :
    (indices shape)[offset shape index]? = some index := by
  induction h with
  | nil => rfl
  | @cons i n index shape hi htail ih =>
    rw [indices, offset, getElem?_flatMap_block (s := shape.prod)
      (fun i _ => by rw [length_map, length_indices]) (offset_lt htail)]
    simp [getElem?_range hi, ih]

theorem mem_indices : index ∈ indices shape ↔ InBounds shape index := by
  induction shape generalizing index with
  | nil => simp [indices, InBounds]
  | cons n shape ih =>
    simp only [indices, mem_flatMap, mem_range, mem_map]
    constructor
    · rintro ⟨i, hi, index, hindex, rfl⟩
      exact Forall₂.cons hi (ih.mp hindex)
    · intro h
      cases h with
      | @cons i _ index _ hi htail => exact ⟨i, hi, index, ih.mpr htail, rfl⟩

@[simp] theorem inBounds_nil {index : List Nat} : InBounds [] index ↔ index = [] := by
  simp [InBounds]

theorem inBounds_cons {n : Nat} :
    InBounds (n :: shape) index ↔ ∃ i < n, ∃ rest, InBounds shape rest ∧ index = i :: rest := by
  constructor
  · intro h
    cases h with
    | @cons i _ rest _ hi hrest => exact ⟨i, hi, rest, hrest, rfl⟩
  · rintro ⟨i, hi, rest, hrest, rfl⟩
    exact Forall₂.cons hi hrest

theorem inBounds_two {a b : Nat} {index : List Nat} :
    InBounds [a, b] index ↔ ∃ i < a, ∃ j < b, index = [i, j] := by
  constructor
  · intro h
    obtain ⟨i, hi, _, hrest, rfl⟩ := inBounds_cons.mp h
    obtain ⟨j, hj, _, hnil, rfl⟩ := inBounds_cons.mp hrest
    obtain rfl := inBounds_nil.mp hnil
    exact ⟨i, hi, j, hj, rfl⟩
  · rintro ⟨i, hi, j, hj, rfl⟩
    exact .cons hi (.cons hj .nil)

theorem inBounds_three {a b c : Nat} {index : List Nat} :
    InBounds [a, b, c] index ↔ ∃ i < a, ∃ j < b, ∃ k < c, index = [i, j, k] := by
  constructor
  · intro h
    obtain ⟨i, hi, _, hrest, rfl⟩ := inBounds_cons.mp h
    obtain ⟨j, hj, k, hk, rfl⟩ := inBounds_two.mp hrest
    exact ⟨i, hi, j, hj, k, hk, rfl⟩
  · rintro ⟨i, hi, j, hj, k, hk, rfl⟩
    exact .cons hi (inBounds_two.mpr ⟨j, hj, k, hk, rfl⟩)

theorem getD_lt_of_inBounds {d n : Nat} (h : InBounds shape index) (hd : shape[d]? = some n) :
    index.getD d 0 < n := by
  induction shape generalizing d index with
  | nil => simp at hd
  | cons m shape ih =>
    obtain ⟨i, hi, rest, hrest, rfl⟩ := inBounds_cons.mp h
    cases d with
    | zero =>
      obtain rfl : m = n := by simpa using hd
      exact hi
    | succ d =>
      have hrest := ih hrest (d := d) (by simpa using hd)
      simpa using hrest

/-! ## Values by index -/

namespace Tensor

/-- The tensor with given values at its indices. -/
def build (shape : List Nat) (f : List Nat → α) : Tensor α where
  shape := shape
  data := (indices shape).map f
  size := by rw [length_map, length_indices]

@[simp] theorem shape_build (shape : List Nat) (f : List Nat → α) : (build shape f).shape = shape := rfl

variable {shape : List Nat}

theorem build_congr {f g : List Nat → α} (h : ∀ index, InBounds shape index → f index = g index) :
    build shape f = build shape g := by
  ext1
  · rfl
  · exact map_congr_left fun index hindex => h index (mem_indices.mp hindex)

variable [Inhabited α]

/-- The value at a place in row-major order. -/
def flatEntry (t : Tensor α) (k : Nat) : α := t.data.getD k default

/-- The value at an index. -/
def entry (t : Tensor α) (index : List Nat) : α := t.flatEntry (offset t.shape index)

theorem entry_build {shape index : List Nat} (f : List Nat → α) (h : InBounds shape index) :
    (build shape f).entry index = f index := by
  simp [entry, flatEntry, build, getD_eq_getElem?_getD, getElem?_indices h]

/-- A tensor is built from its values. -/
theorem build_entry (t : Tensor α) : build t.shape t.entry = t := by
  obtain ⟨shape, data, size⟩ := t
  ext1
  · rfl
  change (indices shape).map _ = data
  induction shape generalizing data with
  | nil =>
    obtain ⟨x, rfl⟩ := List.length_eq_one_iff.mp size
    rfl
  | cons n shape ih =>
    have hsize : data.length = n * shape.prod := by rw [size, prod_cons]
    rw [indices, map_flatMap]
    conv_rhs => rw [← flatten_chunks hsize, chunks, ← flatMap_def]
    rw [flatMap_def, flatMap_def]
    congr 1
    apply map_congr_left
    intro i hi
    have hi : i + 1 ≤ n := mem_range.mp hi
    have hle := Nat.mul_le_mul_right shape.prod hi
    rw [Nat.succ_mul] at hle
    have hblock : ((data.drop (i * shape.prod)).take shape.prod).length = shape.prod := by
      rw [length_take, length_drop, hsize]
      omega
    rw [map_map, ← ih _ hblock]
    apply map_congr_left
    intro index hindex
    have hlt := offset_lt (mem_indices.mp hindex)
    simp only [entry, flatEntry, Function.comp_apply, offset, getD_eq_getElem?_getD]
    rw [getElem?_take_of_lt hlt, getElem?_drop]

/-! ## Windows, swapped axes and new shapes -/

/-- `t.permute(dims)`. -/
def permute (t : Tensor α) (dims : List Nat) : Tensor α :=
  build (dims.map (t.shape.getD · 0)) fun index =>
    t.entry ((range dims.length).map fun d => index.getD (dims.idxOf d) 0)

omit [Inhabited α] in
theorem reshape_reshape {t u : Tensor α} (h : t.reshape shape = .ok u) :
    u.reshape t.shape = .ok t := by
  rw [reshape] at h
  split at h
  · obtain rfl := Except.ok.inj h
    exact dif_pos t.size
  · cases h

theorem reshape_ok {t : Tensor α} (h : t.shape.prod = shape.prod) :
    t.reshape shape = .ok (build shape fun index => t.flatEntry (offset shape index)) := by
  have hsize : t.data.length = shape.prod := t.size.trans h
  rw [reshape, dif_pos hsize]
  congr 1
  exact (build_entry ⟨shape, t.data, hsize⟩).symm

end Tensor

/-! ## Pieces -/

/-- The piece that a place of joined pieces is in, and its place there. -/
def locate : List Nat → Nat → Nat × Nat
  | [], x => (0, x)
  | n :: sizes, x =>
    if x < n then (0, x)
    else ((locate sizes (x - n)).1 + 1, (locate sizes (x - n)).2)

/-- A place of a piece, counted from the start of the first piece. -/
theorem locate_sum {sizes : List Nat} {p j : Nat} (hj : j < sizes.getD p 0) :
    locate sizes ((sizes.take p).sum + j) = (p, j) := by
  induction sizes generalizing p with
  | nil => simp at hj
  | cons n sizes ih =>
    cases p with
    | zero =>
      have hj : j < n := hj
      simp [locate, hj]
    | succ p =>
      have hj : j < sizes.getD p 0 := by simpa using hj
      have hsub : n + (sizes.take p).sum + j - n = (sizes.take p).sum + j := by omega
      rw [take_succ_cons, sum_cons, locate, if_neg (by omega), hsub, ih hj]

theorem locate_replicate {n w x : Nat} (hx : x < n * w) :
    locate (replicate n w) x = (x / w, x % w) := by
  have hw : 0 < w := pos_of_ne_zero fun h => by simp [h] at hx
  have hdiv : x / w < n := (Nat.div_lt_iff_lt_mul hw).mpr hx
  have hsum : ((replicate n w).take (x / w)).sum + x % w = x := by
    rw [take_replicate, min_eq_left (le_of_lt hdiv), sum_replicate, smul_eq_mul, mul_comm]
    exact Nat.div_add_mod x w
  conv_lhs => rw [← hsum]
  apply locate_sum
  rw [getD_replicate _ hdiv]
  exact Nat.mod_lt x hw

/-- The sizes of the pieces that `torch.chunk` cuts an axis into. -/
def chunkSizes (n size : Nat) : List Nat :=
  if size = 0 then replicate n 0
  else
    let step := (size + n - 1) / n
    replicate (size / step) step ++ if size % step = 0 then [] else [size % step]

theorem chunkSizes_mul {n w : Nat} (hn : 0 < n) : chunkSizes n (n * w) = replicate n w := by
  rcases Nat.eq_zero_or_pos w with rfl | hw
  · simp [chunkSizes]
  · have hstep : (n * w + n - 1) / n = w := by
      have hsum : n * w + n - 1 = n * w + (n - 1) := by omega
      rw [hsum, Nat.mul_add_div hn, Nat.div_eq_of_lt (by omega), add_zero]
    have hne : n * w ≠ 0 := (mul_pos hn hw).ne'
    simp only [chunkSizes, hstep]
    rw [if_neg hne, Nat.mul_div_cancel _ hw, Nat.mul_mod_left, if_pos rfl, append_nil]

namespace Tensor

variable [Inhabited α]

instance : Inhabited (Tensor α) := ⟨full [] default⟩

/-- Tensors end to end along an axis, for the shape of one of them. -/
def joined (shape : List Nat) (ts : List (Tensor α)) (d : Nat) : Tensor α :=
  let sizes := ts.map fun u => u.shape.getD d 0
  build (shape.set d sizes.sum) fun index =>
    let place := locate sizes (index.getD d 0)
    (ts.getD place.1 default).entry (index.set d place.2)

/-- `torch.cat(ts, dim=d)`. -/
def cat (ts : List (Tensor α)) (d : Nat) : Except TensorError (Tensor α) :=
  match ts with
  | [] => .error .shapeMismatch
  | t :: _ =>
    if d < t.ndim ∧ ∀ u ∈ ts, u.shape.set d 0 = t.shape.set d 0 then .ok (joined t.shape ts d)
    else .error .shapeMismatch

/-- Tensors whose other axes agree are joined. -/
theorem cat_ok {ts : List (Tensor α)} {shape : List Nat} {d : Nat} (hne : ts ≠ [])
    (hd : d < shape.length) (h : ∀ u ∈ ts, u.shape.set d 0 = shape.set d 0) :
    cat ts d = .ok (joined shape ts d) := by
  cases ts with
  | nil => exact absurd rfl hne
  | cons t ts =>
    have ht := h t mem_cons_self
    have hlength : t.shape.length = shape.length := by simpa using congrArg List.length ht
    have hset : ∀ n, t.shape.set d n = shape.set d n := by
      intro n
      have := congrArg (·.set d n) ht
      simpa using this
    have hall : d < t.ndim ∧ ∀ u ∈ t :: ts, u.shape.set d 0 = t.shape.set d 0 :=
      ⟨Nat.lt_of_lt_of_eq hd hlength.symm, fun u hu => (h u hu).trans ht.symm⟩
    rw [cat, if_pos hall, joined, joined, hset]

/-- Tensors of one shape, end to end. -/
theorem cat_range {n d w : Nat} {u : Nat → Tensor α} {shape : List Nat} (hn : 0 < n)
    (hd : shape[d]? = some w) (h : ∀ j < n, (u j).shape = shape) :
    cat ((range n).map u) d = .ok (build (shape.set d (n * w)) fun index =>
        (u (index.getD d 0 / w)).entry (index.set d (index.getD d 0 % w))) := by
  have hlt : d < shape.length := (List.getElem?_eq_some_iff.mp hd).1
  have hmem : ∀ v ∈ (range n).map u, v.shape = shape := by
    intro v hv
    obtain ⟨j, hj, rfl⟩ := mem_map.mp hv
    exact h j (mem_range.mp hj)
  have hsizes : ((range n).map u).map (fun v => v.shape.getD d 0) = replicate n w := by
    rw [eq_replicate_iff]
    refine ⟨by simp, ?_⟩
    intro x hx
    obtain ⟨v, hv, rfl⟩ := mem_map.mp hx
    rw [hmem v hv, getD_eq_getElem?_getD, hd]
    rfl
  have hne : (range n).map u ≠ [] := by
    rw [Ne, map_eq_nil_iff, range_eq_nil]
    omega
  rw [cat_ok hne hlt fun v hv => by rw [hmem v hv], joined, hsizes, sum_replicate, smul_eq_mul]
  congr 1
  apply build_congr
  intro index hindex
  have hx : index.getD d 0 < n * w := getD_lt_of_inBounds hindex (by simp [hlt])
  have hw : 0 < w := pos_of_ne_zero fun h => by simp [h] at hx
  have hdiv : index.getD d 0 / w < n := (Nat.div_lt_iff_lt_mul hw).mpr hx
  rw [locate_replicate hx]
  simp only [getD_eq_getElem?_getD, getElem?_map]
  rw [← getD_eq_getElem?_getD, getElem?_range hdiv]
  rfl

end Tensor

end Tensors
