import ArcticPlatform.Library.Slices

/-!
# Ranks arranged in a mesh

The ranks of a job are the numbers below its world size.  A mesh splits them into
groups of one size, by rows (consecutive ranks) or by columns (ranks a stride
apart).  This module has both readings, what it means that groups partition the
ranks, and the position a rank has in its group.

Main results:

- Theorems `rows_flatten` and `columns_perm`: both readings of a mesh
  list every rank once.
- Theorems `blocks_partition`, `blocks_at` and `blocks_together`: groups
  of ranks a stride apart.
- Theorem `PartitionInto.dvd`: only a size that divides the world has a
  partition.
- Theorem `classes_perm`: the classes of a function hold every rank once.
- Theorem `position_eq`: the position found by searching the groups.
-/

namespace Meshes

open List Function

/-- Python's `range(0, stop, step)`. -/
def starts (stop step : Nat) : List Nat :=
  (range ((stop + step - 1) / step)).map (· * step)

/-- The members `f 0`, …, `f (n - 1)` of one group. -/
def row (n : Nat) (f : Nat → Nat) : List Nat :=
  (range n).map f

/-- A mesh of `stride * (count * size)` ranks cut along its columns: every column is
cut into `count` groups of `size` ranks that are a stride apart. -/
def blocks (stride count size : Nat) : List (List Nat) :=
  (range stride).flatMap fun p =>
    (range count).map fun i => row size fun j => (i * size + j) * stride + p

/-- The groups are nonoverlapping, have the given size and together hold every rank. -/
structure PartitionInto (world size : Nat) (groups : List (List Nat)) : Prop where
  perm : groups.flatten.Perm (range world)
  length_eq : ∀ g ∈ groups, g.length = size

/-- The rank stands at the position in one of the groups. -/
def At (groups : List (List Nat)) (rank p : Nat) : Prop :=
  ∃ g ∈ groups, g[p]? = some rank

/-- Two ranks are members of one group. -/
def Together (groups : List (List Nat)) (a b : Nat) : Prop :=
  ∃ g ∈ groups, a ∈ g ∧ b ∈ g

/-- The ranks below `world` by the value of a function that has `n` values. -/
def classes (world n : Nat) (f : Nat → Nat) : List (List Nat) :=
  (range n).map fun p => (range world).filter fun rank => f rank = p

/-- The group a rank keeps when it walks the list: the last one that holds it. -/
def registered (groups : List (List Nat)) (rank : Nat) : Option (List Nat) :=
  groups.reverse.find? (rank ∈ ·)

/-- The position of a rank in the group it keeps. -/
def position (groups : List (List Nat)) (rank : Nat) : Option Nat :=
  (registered groups rank).bind (·.idxOf? rank)

@[simp] theorem length_row (n : Nat) (f : Nat → Nat) : (row n f).length = n := by
  simp [row]

variable {f : Nat → Nat}

theorem mem_row {n x : Nat} : x ∈ row n f ↔ ∃ k < n, f k = x := by
  simp [row]

theorem row_getElem? {n p x : Nat} : (row n f)[p]? = some x ↔ p < n ∧ f p = x := by
  by_cases hp : p < n
  · simp [row, hp]
  · simp [row, hp]

theorem slice_row {N a n : Nat} (h : a + n ≤ N) :
    Slices.slice (row N f) a (a + n) = row n fun j => f (a + j) := by
  apply ext_getElem?
  intro j
  rw [Slices.slice, Nat.add_sub_cancel_left, getElem?_take]
  by_cases hj : j < n
  · have hN : a + j < N := by omega
    simp [row, hj, hN]
  · simp [row, hj]

theorem starts_mul {k size : Nat} (hsize : 0 < size) :
    starts (k * size) size = (range k).map (· * size) := by
  have hcount : (k * size + size - 1) / size = k := by
    rw [Nat.add_sub_assoc hsize, add_comm, Nat.add_mul_div_right _ _ hsize,
      Nat.div_eq_of_lt (Nat.sub_lt hsize Nat.one_pos), zero_add]
  rw [starts, hcount]

/-- Reading a mesh by rows. -/
theorem rows_flatten (a b : Nat) :
    (range a).flatMap (fun i => row b fun j => i * b + j) = range (a * b) := by
  induction a with
  | zero => simp
  | succ a ih =>
    rw [range_succ, flatMap_append, ih, Nat.succ_mul, range_add]
    simp [row]

/-- Reading a mesh by columns. -/
theorem columns_perm (a b : Nat) :
    ((range a).flatMap fun i => row b fun j => j * a + i).Perm (range (a * b)) := by
  have hnodup : ((range a).flatMap fun i => row b fun j => j * a + i).Nodup := by
    rw [nodup_flatMap]
    constructor
    · intro i hi
      have ha : 0 < a := Nat.zero_lt_of_lt (mem_range.mp hi)
      apply Nodup.map _ nodup_range
      intro x y hxy
      exact Nat.eq_of_mul_eq_mul_right ha (add_right_cancel hxy)
    · apply Nodup.pairwise_of_forall_ne nodup_range
      intro i hi i' hi' hne
      rw [onFun, disjoint_left]
      intro x hx hx'
      obtain ⟨j, -, rfl⟩ := mem_row.mp hx
      obtain ⟨j', -, heq⟩ := mem_row.mp hx'
      have hmod := congrArg (· % a) heq
      simp only [Nat.mul_add_mod_self_right, Nat.mod_eq_of_lt (mem_range.mp hi),
        Nat.mod_eq_of_lt (mem_range.mp hi')] at hmod
      exact hne hmod.symm
  rw [perm_ext_iff_of_nodup hnodup nodup_range]
  intro x
  simp only [mem_flatMap, mem_range, mem_row]
  constructor
  · rintro ⟨i, hi, j, hj, rfl⟩
    calc j * a + i < j * a + a := by omega
      _ = (j + 1) * a := by rw [Nat.succ_mul]
      _ ≤ b * a := Nat.mul_le_mul_right a hj
      _ = a * b := mul_comm b a
  · intro hx
    have ha : 0 < a := Nat.pos_of_mul_pos_right (Nat.zero_lt_of_lt hx)
    exact ⟨x % a, Nat.mod_lt x ha, x / a, Nat.div_lt_of_lt_mul hx, Nat.div_add_mod' x a⟩

variable {groups : List (List Nat)}

/-- Only a size that divides the number of ranks has a partition. -/
theorem PartitionInto.dvd {world size : Nat} (h : PartitionInto world size groups) :
    size ∣ world := by
  have hlength : groups.flatten.length = groups.length * size := by
    rw [List.length_flatten, map_congr_left h.length_eq, map_const', sum_replicate, smul_eq_mul]
  rw [h.perm.length_eq, length_range] at hlength
  exact ⟨groups.length, by rw [hlength, mul_comm]⟩

/-! ## Groups cut from the columns -/

theorem digits_iff {b i j x : Nat} (hj : j < b) : i * b + j = x ↔ x / b = i ∧ x % b = j := by
  have hb : 0 < b := Nat.zero_lt_of_lt hj
  constructor
  · intro h
    subst h
    constructor
    · rw [add_comm, Nat.add_mul_div_right _ _ hb, Nat.div_eq_of_lt hj, zero_add]
    · rw [Nat.mul_add_mod_self_right, Nat.mod_eq_of_lt hj]
  · rintro ⟨rfl, rfl⟩
    exact Nat.div_add_mod' x b

theorem block_getElem? {stride size p i j x : Nat} (hp : p < stride) :
    (row size fun j => (i * size + j) * stride + p)[j]? = some x ↔
      j < size ∧ x % stride = p ∧ x / stride / size = i ∧ x / stride % size = j := by
  rw [row_getElem?]
  apply and_congr_right
  intro hj
  rw [digits_iff hp, eq_comm (b := i * size + j), digits_iff hj]
  exact ⟨fun h => ⟨h.2, h.1⟩, fun h => ⟨h.2, h.1⟩⟩

theorem mem_blocks {stride count size : Nat} {g : List Nat} :
    g ∈ blocks stride count size ↔ ∃ p < stride, ∃ i < count,
      g = row size fun j => (i * size + j) * stride + p := by
  simp only [blocks, mem_flatMap, mem_map, mem_range, eq_comm (a := g)]

theorem digits_lt {stride count size rank : Nat} (h : rank < stride * (count * size)) :
    rank % stride < stride ∧ rank / stride / size < count ∧ rank / stride % size < size := by
  have hstride : 0 < stride := Nat.pos_of_mul_pos_right (Nat.zero_lt_of_lt h)
  have hdiv : rank / stride < count * size := Nat.div_lt_of_lt_mul h
  have hsize : 0 < size := Nat.pos_of_mul_pos_left (Nat.zero_lt_of_lt hdiv)
  exact ⟨Nat.mod_lt _ hstride, Nat.div_lt_of_lt_mul (by rwa [mul_comm]), Nat.mod_lt _ hsize⟩

theorem lt_of_digits {stride count size rank : Nat} (hp : rank % stride < stride)
    (hi : rank / stride / size < count) (hj : rank / stride % size < size) :
    rank < stride * (count * size) := by
  have hstride : 0 < stride := Nat.zero_lt_of_lt hp
  have hsize : 0 < size := Nat.zero_lt_of_lt hj
  rw [Nat.div_lt_iff_lt_mul hsize, Nat.div_lt_iff_lt_mul hstride] at hi
  rwa [mul_comm]

/-- The groups of the columns are a partition. -/
theorem blocks_partition (stride count size : Nat) :
    PartitionInto (stride * (count * size)) size (blocks stride count size) := by
  constructor
  · have hcolumn : ∀ p, ((range count).map fun i =>
        row size fun j => (i * size + j) * stride + p).flatten =
        row (count * size) fun j => j * stride + p := by
      intro p
      rw [← flatMap_def, row, ← rows_flatten, map_flatMap]
      simp only [row, map_map, comp_def]
    rw [blocks, flatMap_def, flatten_flatten, map_map, ← flatMap_def]
    simp only [comp_def, hcolumn]
    exact columns_perm stride (count * size)
  · intro g hg
    obtain ⟨p, -, i, -, rfl⟩ := mem_blocks.mp hg
    exact length_row _ _

/-- The position of a rank in its group. -/
theorem blocks_at {stride count size rank j : Nat} :
    At (blocks stride count size) rank j ↔
      rank < stride * (count * size) ∧ rank / stride % size = j := by
  constructor
  · intro h
    obtain ⟨g, hg, hget⟩ := h
    obtain ⟨p, hp, i, hi, rfl⟩ := mem_blocks.mp hg
    obtain ⟨hj, hcol, hblock, hpos⟩ := (block_getElem? hp).mp hget
    exact ⟨lt_of_digits (hcol ▸ hp) (hblock ▸ hi) (hpos ▸ hj), hpos⟩
  · intro h
    obtain ⟨hrank, rfl⟩ := h
    obtain ⟨hp, hi, hj⟩ := digits_lt hrank
    exact ⟨_, mem_blocks.mpr ⟨_, hp, _, hi, rfl⟩, (block_getElem? hp).mpr ⟨hj, rfl, rfl, rfl⟩⟩

theorem mem_block {stride size p i x : Nat} (hp : p < stride) (hsize : 0 < size) :
    x ∈ (row size fun j => (i * size + j) * stride + p) ↔
      x % stride = p ∧ x / stride / size = i := by
  rw [mem_iff_getElem?]
  simp only [block_getElem? hp]
  constructor
  · intro h
    obtain ⟨j, -, hcol, hblock, -⟩ := h
    exact ⟨hcol, hblock⟩
  · intro h
    exact ⟨x / stride % size, Nat.mod_lt _ hsize, h.1, h.2, rfl⟩

/-- Two ranks share a group when they are in one column and one block of it. -/
theorem blocks_together {stride count size a b : Nat} (ha : a < stride * (count * size)) :
    Together (blocks stride count size) a b ↔
      a % stride = b % stride ∧ a / stride / size = b / stride / size := by
  obtain ⟨hp, hi, hj⟩ := digits_lt ha
  have hsize : 0 < size := Nat.zero_lt_of_lt hj
  constructor
  · intro h
    obtain ⟨g, hg, hmema, hmemb⟩ := h
    obtain ⟨p, hp, i, -, rfl⟩ := mem_blocks.mp hg
    rw [mem_block hp hsize] at hmema hmemb
    exact ⟨hmema.1.trans hmemb.1.symm, hmema.2.trans hmemb.2.symm⟩
  · intro h
    refine ⟨_, mem_blocks.mpr ⟨_, hp, _, hi, rfl⟩, ?_, ?_⟩
    · exact (mem_block hp hsize).mpr ⟨rfl, rfl⟩
    · exact (mem_block hp hsize).mpr ⟨h.1.symm, h.2.symm⟩

/-! ## Classes and positions -/

theorem mem_classes {world n p : Nat} {c : List Nat} (hc : (classes world n f)[p]? = some c)
    (rank : Nat) : rank ∈ c ↔ rank < world ∧ f rank = p := by
  simp only [classes, getElem?_map, Option.map_eq_some_iff] at hc
  obtain ⟨a, ha, rfl⟩ := hc
  obtain ⟨hp, ha⟩ := List.getElem?_eq_some_iff.mp ha
  rw [getElem_range] at ha
  simp [ha]

/-- The classes hold every rank once. -/
theorem classes_perm {world n : Nat} (hf : ∀ rank < world, f rank < n) :
    (classes world n f).flatten.Perm (range world) := by
  have hnodup : (classes world n f).flatten.Nodup := by
    rw [classes, ← flatMap_def, nodup_flatMap]
    constructor
    · intro p hp
      exact nodup_range.filter _
    · apply Nodup.pairwise_of_forall_ne nodup_range
      intro p hp q hq hne
      rw [onFun, disjoint_left]
      intro rank hrank hrank'
      simp only [mem_filter, decide_eq_true_eq] at hrank hrank'
      exact hne (hrank.2.symm.trans hrank'.2)
  rw [perm_ext_iff_of_nodup hnodup nodup_range]
  intro rank
  simp only [classes, ← flatMap_def, mem_flatMap, mem_filter, mem_range, decide_eq_true_eq]
  constructor
  · intro h
    obtain ⟨p, -, hrank, -⟩ := h
    exact hrank
  · intro hrank
    exact ⟨f rank, hf rank hrank, hrank, rfl⟩

theorem registered_of_mem {rank : Nat} (h : ∃ g ∈ groups, rank ∈ g) :
    ∃ g ∈ groups, rank ∈ g ∧ registered groups rank = some g := by
  cases hfind : registered groups rank with
  | none =>
    obtain ⟨g, hg, hmem⟩ := h
    have hnone := find?_eq_none.mp hfind g (mem_reverse.mpr hg)
    simp [hmem] at hnone
  | some g =>
    have hmem := mem_of_find?_eq_some hfind
    have hrank := find?_some hfind
    exact ⟨g, mem_reverse.mp hmem, by simpa using hrank, rfl⟩

theorem registered_classes {world n rank : Nat} (hrank : rank < world) (hf : f rank < n) :
    registered (classes world n f) rank =
      some ((range world).filter fun peer => f peer = f rank) := by
  have hmem : ∃ c ∈ classes world n f, rank ∈ c := by
    refine ⟨(range world).filter fun peer => f peer = f rank, ?_, by simp [hrank]⟩
    exact mem_map.mpr ⟨f rank, mem_range.mpr hf, rfl⟩
  obtain ⟨c, hc, hrankc, hreg⟩ := registered_of_mem hmem
  obtain ⟨p, -, rfl⟩ := mem_map.mp hc
  have hp : f rank = p := by simpa [hrank] using hrankc
  rw [hreg, hp]

/-- Where positions are a function of the rank, searching the groups computes it. -/
theorem position_eq {world : Nat} {pos : Nat → Nat}
    (hat : ∀ rank p, At groups rank p ↔ rank < world ∧ pos rank = p) {rank : Nat}
    (hrank : rank < world) : position groups rank = some (pos rank) := by
  obtain ⟨g₀, hg₀, hat₀⟩ := (hat rank (pos rank)).mpr ⟨hrank, rfl⟩
  obtain ⟨g, hg, hmem, hreg⟩ := registered_of_mem ⟨g₀, hg₀, mem_of_getElem? hat₀⟩
  rw [position, hreg, Option.bind_some]
  cases hidx : g.idxOf? rank with
  | none => exact absurd hmem (idxOf?_eq_none_iff.mp hidx)
  | some p =>
    obtain ⟨hp, hget, -⟩ := idxOf?_eq_some_iff.mp hidx
    have hatp : At groups rank p := ⟨g, hg, by rw [getElem?_eq_getElem hp, hget]⟩
    rw [((hat rank p).mp hatp).2]

end Meshes
