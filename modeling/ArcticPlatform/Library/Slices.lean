import Mathlib.Algebra.BigOperators.Group.List.Basic
import Mathlib.Tactic

/-!
# Slices of packed lists

A packed tensor is a list of blocks laid end to end.  This module has the list
operations by which such a tensor is cut and filled, with the semantics they have
on tensors: reading a slice clips it to the list, writing one needs a value of
the same length or of length one, and splitting needs sizes that add up.

Main results:

- Theorems `slice_append` and `assign_append`: reading and writing the
  middle one of three blocks.
- Theorem `cumulative_getElem?`: the table of block boundaries.
- Theorem `existsUnique_block`: every place is in exactly one block.
- Theorem `splitSizes_flatten`: splitting by the block lengths gives the
  blocks back.
-/

namespace Slices

open List

variable {α : Type*}

/-- `l[a:b]`. -/
def slice (l : List α) (a b : Nat) : List α :=
  (l.drop a).take (b - a)

/-- A bound of a slice, counted from the end when negative and clipped to the length. -/
def clip (n : Nat) (i : Int) : Nat :=
  if i < 0 then (i + n).toNat else min i.toNat n

/-- `l[a:b]` with bounds of either sign. -/
def sliceInt (l : List α) (a b : Int) : List α :=
  (l.take (clip l.length b)).drop (clip l.length a)

/-- `l[i]`, counted from the end when negative. -/
def item? (l : List α) (i : Int) : Option α :=
  if 0 ≤ i then l[i.toNat]? else if 0 ≤ i + l.length then l[(i + l.length).toNat]? else none

/-- `l[a:b] = v`: a value of length one is repeated, any other mismatch is an error. -/
def assign (l : List α) (a b : Nat) (v : List α) : Option (List α) :=
  let n := (slice l a b).length
  if v.length = n then some (l.take a ++ v ++ l.drop (a + n))
  else
    match v with
    | [x] => some (l.take a ++ List.replicate n x ++ l.drop (a + n))
    | _ => none

/-- Boundaries of consecutive blocks with the given lengths. -/
def cumulative (lengths : List Nat) : List Nat :=
  lengths.scanl (· + ·) 0

/-- Split into consecutive blocks; the sizes must add up to the length of the list. -/
def splitSizes : List Nat → List α → Option (List (List α))
  | [], l => if l.length = 0 then some [] else none
  | n :: sizes, l =>
    if n ≤ l.length then (splitSizes sizes (l.drop n)).map (l.take n :: ·) else none

variable {a b : Nat}

/-- The middle block. -/
theorem slice_append {A B C : List α} (ha : A.length = a) (hb : a + B.length = b) :
    slice (A ++ B ++ C) a b = B := by
  subst ha hb
  rw [slice, append_assoc, drop_left, Nat.add_sub_cancel_left, take_left]

theorem length_slice {l : List α} (hab : a ≤ b) (hb : b ≤ l.length) :
    (slice l a b).length = b - a := by
  rw [slice, length_take, length_drop]
  omega

theorem sliceInt_natCast {l : List α} (hb : b ≤ l.length) : sliceInt l a b = slice l a b := by
  have hstart : clip l.length a = min a l.length := by simp [clip]
  have hstop : clip l.length b = b := by simp [clip, hb]
  rw [sliceInt, hstart, hstop, slice, drop_take]
  rcases le_total a l.length with ha | ha
  · rw [min_eq_left ha]
  · rw [min_eq_right ha, drop_length, drop_eq_nil_of_le ha, take_nil, take_nil]

/-- Replacing the middle block. -/
theorem assign_append {A B C v : List α} (ha : A.length = a) (hb : a + B.length = b)
    (hv : v.length = B.length) : assign (A ++ B ++ C) a b v = some (A ++ v ++ C) := by
  have hslice := slice_append (C := C) ha hb
  subst ha
  unfold assign
  rw [hslice, if_pos hv, append_assoc A B C, take_left, ← drop_drop, drop_left, drop_left]

theorem length_cumulative (lengths : List Nat) :
    (cumulative lengths).length = lengths.length + 1 := by
  simp [cumulative]

variable {k : Nat}

/-- The table of block boundaries. -/
theorem cumulative_getElem? {lengths : List Nat} (hk : k ≤ lengths.length) :
    (cumulative lengths)[k]? = some ((lengths.take k).sum) := by
  have key : ∀ (lengths : List Nat) (start k : Nat), k ≤ lengths.length →
      (lengths.scanl (· + ·) start)[k]? = some (start + (lengths.take k).sum) := by
    intro lengths
    induction lengths with
    | nil =>
      intro start k hk
      obtain rfl : k = 0 := by simpa using hk
      simp
    | cons n lengths ih =>
      intro start k hk
      cases k with
      | zero => simp
      | succ k =>
        have := ih (start + n) k (by simpa using hk)
        simp only [scanl_cons, getElem?_cons_succ, this, take_succ_cons, sum_cons]
        rw [add_assoc]
  simpa [cumulative] using key lengths 0 k hk

theorem cumulative_zip_tail (lengths : List Nat) :
    (cumulative lengths).zip (cumulative lengths).tail = (List.range lengths.length).map fun k =>
        ((lengths.take k).sum, (lengths.take (k + 1)).sum) := by
  apply ext_getElem?
  intro k
  by_cases hk : k < lengths.length
  · have hstart := cumulative_getElem? (le_of_lt hk)
    have hstop := cumulative_getElem? (Nat.succ_le_of_lt hk)
    rw [← getElem?_tail] at hstop
    rw [(getElem?_zip_eq_some (z := ((lengths.take k).sum, (lengths.take (k + 1)).sum))).mpr
      ⟨hstart, hstop⟩]
    simp [hk]
  · rw [getElem?_eq_none (by simp [length_cumulative]; omega), getElem?_eq_none (by simp; omega)]

theorem sum_take_succ {lengths : List Nat} {k n : Nat} (hk : lengths[k]? = some n) :
    (lengths.take (k + 1)).sum = (lengths.take k).sum + n := by
  rw [take_add_one, hk]
  simp

theorem sum_take_le_sum (sizes : List Nat) (c : Nat) : (sizes.take c).sum ≤ sizes.sum :=
  List.Sublist.sum_le_sum (take_sublist _ _) (by simp)

theorem sum_take_mono (sizes : List Nat) {c d : Nat} (h : c ≤ d) :
    (sizes.take c).sum ≤ (sizes.take d).sum :=
  List.Sublist.sum_le_sum (take_sublist_take_left h) (by simp)

/-- Every place of a row of blocks is in exactly one of them. -/
theorem existsUnique_block {sizes : List Nat} {x : Nat} (hx : x < sizes.sum) :
    ∃! c, c < sizes.length ∧ (sizes.take c).sum ≤ x ∧ x < (sizes.take (c + 1)).sum := by
  have hex : ∃ c, c < sizes.length ∧ (sizes.take c).sum ≤ x ∧ x < (sizes.take (c + 1)).sum := by
    induction sizes generalizing x with
    | nil => exact absurd hx (Nat.not_lt_zero _)
    | cons n sizes ih =>
      rw [sum_cons] at hx
      rcases lt_or_ge x n with hlt | hge
      · exact ⟨0, Nat.succ_pos _, zero_le, by simpa using hlt⟩
      · obtain ⟨c, hc, hstart, hstop⟩ := @ih (x - n) (by omega)
        refine ⟨c + 1, Nat.succ_lt_succ hc, ?_, ?_⟩
        · rw [take_succ_cons, sum_cons]
          omega
        · rw [take_succ_cons, sum_cons]
          omega
  obtain ⟨c, hc⟩ := hex
  refine ⟨c, hc, fun d hd => ?_⟩
  rcases lt_trichotomy d c with hlt | heq | hgt
  · have hmono := sum_take_mono sizes (show d + 1 ≤ c from hlt)
    omega
  · exact heq
  · have hmono := sum_take_mono sizes (show c + 1 ≤ d from hgt)
    omega

/-- Splitting by the block lengths gives the blocks back. -/
theorem splitSizes_flatten (blocks : List (List α)) :
    splitSizes (blocks.map List.length) blocks.flatten = some blocks := by
  induction blocks with
  | nil => simp [splitSizes]
  | cons block blocks ih =>
    have hle : block.length ≤ (block ++ blocks.flatten).length := by simp
    simp only [map_cons, flatten_cons, splitSizes, if_pos hle, drop_left,
      take_left, ih, Option.map_some]

variable {blocks : List (List α)} {block : List α}

theorem flatten_split (hk : blocks[k]? = some block) :
    blocks.flatten = (blocks.take k).flatten ++ block ++ (blocks.drop (k + 1)).flatten := by
  obtain ⟨hlt, rfl⟩ := List.getElem?_eq_some_iff.mp hk
  have hdrop := drop_eq_getElem_cons hlt
  calc blocks.flatten = (blocks.take k ++ blocks.drop k).flatten := by
        rw [take_append_drop]
    _ = (blocks.take k).flatten ++ blocks[k] ++ (blocks.drop (k + 1)).flatten := by
        rw [hdrop, flatten_append, flatten_cons, append_assoc]

theorem getElem?_flatten_add {k j : Nat} (hk : blocks[k]? = some block) (hj : j < block.length) :
    blocks.flatten[((blocks.map List.length).take k).sum + j]? = block[j]? := by
  have hstart : (blocks.take k).flatten.length = ((blocks.map List.length).take k).sum := by
    rw [List.length_flatten, map_take]
  rw [flatten_split hk, ← hstart, append_assoc, getElem?_append_right (Nat.le_add_right _ _),
    Nat.add_sub_cancel_left, getElem?_append_left hj]

theorem slice_flatten (hk : blocks[k]? = some block) :
    slice blocks.flatten ((blocks.map List.length).take k).sum
      ((blocks.map List.length).take (k + 1)).sum = block := by
  have hlen : (blocks.map List.length)[k]? = some block.length := by simp [hk]
  rw [flatten_split hk, sum_take_succ hlen]
  refine slice_append ?_ rfl
  rw [List.length_flatten, map_take]

end Slices
