import ArcticPlatform.Library.Chunks
import ArcticPlatform.Library.Meshes
import Mathlib.Data.Multiset.Bind

/-!
# Strided views

A view of memory is a list of axes, outermost first, each with a size and a stride.
Reading the view visits one address for each choice of an index on every axis.
Transposing a view permutes its axes, so it visits the same addresses in another order.
A row-major view visits every address below its size once, and the index on an axis
can be read off an address by a division and a remainder.

Main results:

- Theorem `addresses_perm`: permuted axes have the same addresses.
- Theorem `coord_add`: the index on an axis of a row-major view.
- Theorems `groups_partition`, `coord_eq_of_mem_groups`, `at_groups_one` and
  `at_groups_two`: a permuted row-major view cut along its innermost axes.
-/

namespace StridedViews

open Chunks Meshes List

/-- One axis of a view. -/
structure Axis where
  size : Nat
  stride : Nat
  deriving DecidableEq

/-- The addresses of a view, in the order in which it is read. -/
def addresses : List Axis → List Nat
  | [] => [0]
  | a :: axes => (List.range a.size).flatMap fun i => (addresses axes).map (i * a.stride + ·)

/-- How many entries a view has. -/
def total (axes : List Axis) : Nat :=
  (axes.map Axis.size).prod

/-- The index that an address has on an axis. -/
def Axis.coord (a : Axis) (x : Nat) : Nat :=
  x / a.stride % a.size

/-- The address of an entry, by its place in the order of reading. -/
def offset : List Axis → Nat → Nat
  | [], _ => 0
  | a :: axes, p => p / total axes * a.stride + offset axes (p % total axes)

/-- Every stride is the number of entries further in. -/
def RowMajor : List Axis → Prop
  | [] => True
  | a :: axes => a.stride = total axes ∧ RowMajor axes

/-- The row-major view with the given sizes. -/
def rowMajor : List Nat → List Axis
  | [] => []
  | n :: sizes => ⟨n, sizes.prod⟩ :: rowMajor sizes

/-- The addresses of a view cut into the pieces that agree on the outer axes. -/
def groups (outer inner : List Axis) : List (List Nat) :=
  (addresses outer).map fun b => (addresses inner).map (b + ·)

@[simp] theorem total_nil : total [] = 1 := rfl

@[simp] theorem total_cons (a : Axis) (axes : List Axis) : total (a :: axes) = a.size * total axes :=
  prod_cons

theorem total_append (outer inner : List Axis) :
    total (outer ++ inner) = total outer * total inner := by
  rw [total, map_append, prod_append, total, total]

@[simp] theorem length_addresses (axes : List Axis) : (addresses axes).length = total axes := by
  induction axes with
  | nil => rfl
  | cons a axes ih => simp [addresses, length_flatMap, ih]

theorem addresses_eq_row (axes : List Axis) : addresses axes = row (total axes) (offset axes) := by
  induction axes with
  | nil => rfl
  | cons a axes ih =>
    rw [addresses, total_cons, row, ← rows_flatten, map_flatMap]
    apply flatMap_congr
    intro i hi
    rw [ih, row, map_map, row, map_map]
    apply map_congr_left
    intro j hj
    obtain ⟨hdiv, hmod⟩ := (digits_iff (i := i) (mem_range.mp hj)).mp rfl
    simp only [Function.comp_apply, offset, hdiv, hmod]

theorem addresses_append (outer inner : List Axis) :
    addresses (outer ++ inner) = (groups outer inner).flatten := by
  rw [groups, ← flatMap_def]
  induction outer with
  | nil => simp [addresses]
  | cons a outer ih =>
    simp only [cons_append, addresses, ih, map_flatMap, map_map, flatMap_assoc,
      flatMap_map, Function.comp_def, add_assoc]

variable {outer inner : List Axis}

theorem mem_addresses_append {x : Nat} :
    x ∈ addresses (outer ++ inner) ↔ ∃ b ∈ addresses outer, ∃ o ∈ addresses inner, b + o = x := by
  simp [addresses_append, groups]

theorem mem_addresses_cons {a : Axis} {axes : List Axis} {x : Nat} :
    x ∈ addresses (a :: axes) ↔ ∃ i < a.size, ∃ y ∈ addresses axes, i * a.stride + y = x := by
  simp [addresses]

/-- Permuted axes have the same addresses. -/
theorem addresses_perm {axes axes' : List Axis} (h : axes.Perm axes') :
    (addresses axes).Perm (addresses axes') := by
  induction h with
  | nil => exact .refl _
  | cons a _ ih => exact List.Perm.flatMap_left _ fun i _ => ih.map _
  | swap a b axes =>
    -- The loops over the two axes are exchanged.
    rw [← Multiset.coe_eq_coe]
    simp only [addresses, map_flatMap, map_map, Function.comp_def, ← Multiset.coe_bind]
    rw [Multiset.bind_bind]
    simp only [← add_assoc, add_comm]
  | trans _ _ ih₁ ih₂ => exact ih₁.trans ih₂

/-! ## Row-major views -/

theorem total_rowMajor (sizes : List Nat) : total (rowMajor sizes) = sizes.prod := by
  induction sizes with
  | nil => rfl
  | cons n sizes ih => rw [rowMajor, total_cons, ih, prod_cons]

theorem rowMajor_spec (sizes : List Nat) : RowMajor (rowMajor sizes) := by
  induction sizes with
  | nil => trivial
  | cons n sizes ih => exact ⟨(total_rowMajor sizes).symm, ih⟩

theorem addresses_eq_range {axes : List Axis} (h : RowMajor axes) :
    addresses axes = List.range (total axes) := by
  induction axes with
  | nil => rfl
  | cons a axes ih =>
    rw [addresses, ih h.2, h.1, total_cons, ← rows_flatten]
    rfl

theorem RowMajor.of_append (h : RowMajor (outer ++ inner)) : RowMajor inner := by
  induction outer with
  | nil => exact h
  | cons a outer ih => exact ih h.2

theorem RowMajor.dvd (h : RowMajor (outer ++ inner)) {b : Nat} (hb : b ∈ addresses outer) :
    total inner ∣ b := by
  induction outer generalizing b with
  | nil => simp_all [addresses]
  | cons a outer ih =>
    obtain ⟨i, -, y, hy, rfl⟩ := mem_addresses_cons.mp hb
    have hstride : total inner ∣ a.stride := by
      rw [h.1, List.append_eq, total_append]
      exact dvd_mul_left _ _
    exact dvd_add (hstride.mul_left i) (ih h.2 hy)

/-- The index on an axis, when the other axes give the rest of the address. -/
theorem coord_add {axes rest : List Axis} {a : Axis} {i y : Nat} (h : RowMajor axes)
    (hperm : (a :: rest).Perm axes) (hi : i < a.size) (hy : y ∈ addresses rest) :
    a.coord (i * a.stride + y) = i := by
  obtain ⟨before, after, rfl⟩ := append_of_mem (hperm.subset mem_cons_self)
  have hrest : rest.Perm (before ++ after) := (hperm.trans perm_middle).cons_inv
  obtain ⟨b, hb, o, ho, rfl⟩ := mem_addresses_append.mp ((addresses_perm hrest).mem_iff.mp hy)
  obtain ⟨hstride, hafter⟩ := h.of_append
  obtain ⟨k, rfl⟩ := h.dvd hb
  have hlt : o < a.stride := by
    rw [addresses_eq_range hafter, mem_range] at ho
    exact hstride ▸ ho
  have hsplit : i * a.stride + (total (a :: after) * k + o) = (i + a.size * k) * a.stride + o := by
    rw [total_cons, ← hstride]
    ring
  rw [Axis.coord, hsplit, ((digits_iff hlt).mp rfl).1, Nat.add_mul_mod_self_left, Nat.mod_eq_of_lt hi]

/-! ## Cutting along the innermost axes -/

section Groups

variable {axes outer inner : List Axis}

theorem groups_partition (h : RowMajor axes) (hperm : (outer ++ inner).Perm axes) :
    PartitionInto (total axes) (total inner) (groups outer inner) := by
  constructor
  · rw [← addresses_append, ← addresses_eq_range h]
    exact addresses_perm hperm
  · intro g hg
    obtain ⟨b, -, rfl⟩ := mem_map.mp hg
    rw [length_map, length_addresses]

/-- The members of a piece have the same index on every outer axis. -/
theorem coord_eq_of_mem_groups (h : RowMajor axes) (hperm : (outer ++ inner).Perm axes) {g : List Nat}
    {x y : Nat} {a : Axis} (hg : g ∈ groups outer inner) (hx : x ∈ g) (hy : y ∈ g) (ha : a ∈ outer) :
    a.coord x = a.coord y := by
  obtain ⟨b, hb, rfl⟩ := mem_map.mp hg
  have houter : outer.Perm (a :: outer.erase a) := perm_cons_erase ha
  obtain ⟨i, hi, z, hz, rfl⟩ := mem_addresses_cons.mp ((addresses_perm houter).mem_iff.mp hb)
  have hrest : (a :: (outer.erase a ++ inner)).Perm axes := (houter.symm.append_right inner).trans hperm
  have hcoord : ∀ w ∈ (addresses inner).map (i * a.stride + z + ·), a.coord w = i := by
    intro w hw
    obtain ⟨o, ho, rfl⟩ := mem_map.mp hw
    rw [add_assoc]
    exact coord_add h hrest hi (mem_addresses_append.mpr ⟨z, hz, o, ho, rfl⟩)
  rw [hcoord x hx, hcoord y hy]

variable {x p : Nat}

theorem at_groups :
    At (groups outer inner) x p ↔ ∃ b ∈ addresses outer, p < total inner ∧ b + offset inner p = x := by
  have hpiece : ∀ b, (addresses inner).map (b + ·) = row (total inner) (b + offset inner ·) := by
    intro b
    rw [addresses_eq_row, row, map_map]
    rfl
  simp only [At, groups, mem_map, exists_exists_and_eq_and, hpiece, row_getElem?]

/-- A piece along one axis is in the order of the index on it. -/
theorem at_groups_one {a : Axis} (h : RowMajor axes) (hperm : (outer ++ [a]).Perm axes)
    (hat : At (groups outer [a]) x p) : a.coord x = p := by
  obtain ⟨b, hb, hp, rfl⟩ := at_groups.mp hat
  have hx : b + offset [a] p = p * a.stride + b := by simp [offset, add_comm]
  rw [hx]
  exact coord_add h ((perm_append_singleton _ _).symm.trans hperm) (by simpa using hp) hb

/-- A piece along two axes is in the order of the first index, then of the second. -/
theorem at_groups_two {a a' : Axis} (h : RowMajor axes) (hperm : (outer ++ [a, a']).Perm axes)
    (hat : At (groups outer [a, a']) x p) : p = a.coord x * a'.size + a'.coord x := by
  obtain ⟨b, hb, hp, rfl⟩ := at_groups.mp hat
  simp only [total_cons, total_nil, mul_one] at hp
  have hsize : 0 < a'.size := Nat.pos_of_mul_pos_left (Nat.zero_lt_of_lt hp)
  have hi : p / a'.size < a.size := Nat.div_lt_of_lt_mul (by rwa [mul_comm])
  have hj : p % a'.size < a'.size := Nat.mod_lt _ hsize
  have hmem : ∀ (c : Axis) (k : Nat), k < c.size → k * c.stride + b ∈ addresses (c :: outer) :=
    fun c k hk => mem_addresses_cons.mpr ⟨k, hk, b, hb, rfl⟩
  have hfirst : (a :: a' :: outer).Perm axes := perm_append_comm.trans hperm
  have hx : b + offset [a, a'] p = p / a'.size * a.stride + (p % a'.size * a'.stride + b) := by
    simp only [offset, total_cons, total_nil, mul_one, Nat.div_one, add_zero]
    omega
  have hx' : b + offset [a, a'] p = p % a'.size * a'.stride + (p / a'.size * a.stride + b) := by omega
  rw [hx, coord_add h hfirst hi (hmem a' _ hj), ← hx, hx',
    coord_add h ((List.Perm.swap _ _ _).trans hfirst) hj (hmem a _ hi), Nat.div_add_mod']

end Groups

end StridedViews
