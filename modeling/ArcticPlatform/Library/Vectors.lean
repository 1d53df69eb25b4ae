import ArcticPlatform.Library.Scatter
import ArcticPlatform.Library.Slices
import Mathlib.Data.List.Sort

/-!
# One-dimensional tensors of integers

Reductions and running products of tensors of integers, and consecutive ranges of
positions.

Main results:

- Theorems `minOf_le` and `argmin_lt`: reductions of a tensor that is not empty.
- Theorem `sum_cumprod`: the running product of flags counts the leading ones.
- Theorem `zipWith_blockIndex`: positions that are numbered through, block by block.
- Theorems `consecutive_append` and `Consecutive.bounds`: ranges that follow one
  another.
-/

namespace Vectors

open Scatter Slices List

/-! ## Reductions -/

/-- The least entry. -/
def minOf (l : List Int) : Int := l.min?.getD 0

/-- The greatest entry. -/
def maxOf (l : List Int) : Int := l.max?.getD 0

/-- The first position of the least entry. -/
def argmin (l : List Int) : Nat := l.idxOf (minOf l)

variable {l : List Int}

theorem getD_mem {i : Nat} (hi : i < l.length) : l.getD i 0 ∈ l := by
  rw [getD_eq_getElem?_getD, getElem?_eq_getElem hi]
  exact getElem_mem hi

theorem minOf_le {x : Int} (hx : x ∈ l) : minOf l ≤ x := by
  cases hmin : l.min? with
  | none =>
    rw [min?_eq_none_iff] at hmin
    simp [hmin] at hx
  | some m =>
    rw [minOf, hmin]
    exact ((min?_eq_some_iff).mp hmin).2 x hx

theorem minOf_mem (hl : l ≠ []) : minOf l ∈ l := by
  cases hmin : l.min? with
  | none => exact absurd (min?_eq_none_iff.mp hmin) hl
  | some m =>
    rw [minOf, hmin]
    exact ((min?_eq_some_iff).mp hmin).1

theorem le_maxOf {x : Int} (hx : x ∈ l) : x ≤ maxOf l := by
  cases hmax : l.max? with
  | none =>
    rw [max?_eq_none_iff] at hmax
    simp [hmax] at hx
  | some m =>
    rw [maxOf, hmax]
    exact ((max?_eq_some_iff).mp hmax).2 x hx

theorem argmin_lt (hl : l ≠ []) : argmin l < l.length := idxOf_lt_length_of_mem (minOf_mem hl)

/-! ## Running products and sums -/

/-- `cumprod`. -/
def cumprod : List Int → List Int
  | [] => []
  | x :: l => x :: (cumprod l).map (x * ·)

/-- `1` where the entries are equal. -/
def same (l m : List Int) : List Int := zipWith (fun x y => if x = y then 1 else 0) l m

/-- The number of leading entries in which two rows are equal. -/
def agreement : List Int → List Int → Nat
  | x :: l, y :: m => if x = y then agreement l m + 1 else 0
  | _, _ => 0

/-- The running product of the flags adds up to the number of leading entries that are equal. -/
theorem sum_cumprod (l m : List Int) : (cumprod (same l m)).sum = agreement l m := by
  induction l generalizing m with
  | nil => simp [same, cumprod, agreement]
  | cons x l ih =>
    cases m with
    | nil => simp [same, cumprod, agreement]
    | cons y m =>
      have hrest := ih m
      rw [same] at hrest
      simp only [same, zipWith_cons_cons, cumprod, agreement, sum_cons]
      split_ifs
      · simp only [one_mul, map_id', hrest]
        push_cast
        ring
      · simp

theorem agreement_le_length (l m : List Int) : agreement l m ≤ l.length := by
  induction l generalizing m with
  | nil => simp [agreement]
  | cons x l ih =>
    cases m with
    | nil => simp [agreement]
    | cons y m =>
      rw [agreement]
      split_ifs
      · exact Nat.succ_le_succ (ih m)
      · exact zero_le

theorem take_agreement (l m : List Int) {n : Nat} (hn : n ≤ agreement l m) :
    l.take n = m.take n := by
  induction l generalizing m n with
  | nil =>
    have hzero : n = 0 := by simpa [agreement] using hn
    simp [hzero]
  | cons x l ih =>
    cases m with
    | nil =>
      have hzero : n = 0 := by simpa [agreement] using hn
      simp [hzero]
    | cons y m =>
      cases n with
      | zero => simp
      | succ n =>
        rw [agreement] at hn
        split_ifs at hn with hxy
        · rw [take_succ_cons, take_succ_cons, hxy, ih m (by omega)]
        · omega

/-- The running sums of a tensor, from zero on. -/
def offsets (l : List Int) : List Int := l.scanl (· + ·) 0

theorem offsets_cast (l : List Nat) :
    offsets (l.map fun (n : Nat) => (n : Int)) = (cumulative l).map fun (n : Nat) => (n : Int) := by
  have key : ∀ start : Nat, (l.map fun (n : Nat) => (n : Int)).scanl (· + ·) (start : Int) =
      (l.scanl (· + ·) start).map fun (n : Nat) => (n : Int) := by
    induction l with
    | nil => simp
    | cons n l ih =>
      intro start
      have hrest := ih (start + n)
      push_cast at hrest
      simp [hrest]
  exact key 0

/-! ## Repeated positions -/

variable (counts : List Nat)

theorem blockIndex_snoc (n : Nat) :
    blockIndex (counts ++ [n]) = blockIndex counts ++ replicate n counts.length := by
  simp [blockIndex, zipIdx_append]

theorem length_blockIndex : (blockIndex counts).length = counts.sum := by
  induction counts using reverseRecOn with
  | nil => rfl
  | append_singleton counts n ih => simp [blockIndex_snoc, ih]

/-- The positions of a block all repeat its index. -/
theorem blockIndex_getElem? {counts : List Nat} {g k : Nat} (hlow : (counts.take g).sum ≤ k)
    (hhigh : k < (counts.take (g + 1)).sum) : (blockIndex counts)[k]? = some g := by
  induction counts using reverseRecOn with
  | nil => simp at hhigh
  | append_singleton counts n ih =>
    rw [blockIndex_snoc]
    by_cases hg : g < counts.length
    · rw [take_append_of_le_length (le_of_lt hg)] at hlow
      rw [take_append_of_le_length (show g + 1 ≤ counts.length from hg)] at hhigh
      have hsum : (counts.take (g + 1)).sum ≤ counts.sum :=
        (take_sublist _ _).sum_le_sum fun _ _ => zero_le
      rw [getElem?_append_left (by rw [length_blockIndex]; omega)]
      exact ih hlow hhigh
    · have hlast : g = counts.length := by
        by_contra hne
        rw [take_of_length_le (by simp; omega)] at hlow
        rw [take_of_length_le (by simp; omega)] at hhigh
        omega
      rw [hlast, take_left] at hlow
      rw [hlast, take_of_length_le (by simp)] at hhigh
      simp only [sum_append, sum_singleton] at hhigh
      rw [getElem?_append_right (by rw [length_blockIndex]; omega),
        length_blockIndex, getElem?_replicate, if_pos (by omega), hlast]

/-- Positions that are numbered through, block by block. -/
theorem zipWith_blockIndex {α : Type} (f : Nat → Nat → α) (counts : List Nat) :
    zipWith f (blockIndex counts) (range counts.sum) = (range counts.length).flatMap fun k =>
        (range (counts.getD k 0)).map fun j => f k ((counts.take k).sum + j) := by
  induction counts using reverseRecOn with
  | nil => rfl
  | append_singleton counts n ih =>
    have hlast : zipWith f (replicate n counts.length)
        ((range n).map (counts.sum + ·)) =
        (range n).map fun j => f counts.length (counts.sum + j) := by
      rw [zipWith_map_right]
      apply ext_getElem?
      intro i
      by_cases hi : i < n <;> simp [hi]
    rw [blockIndex_snoc, sum_append, sum_singleton, range_add,
      zipWith_append (by rw [length_blockIndex, length_range]), ih, hlast,
      length_append, length_singleton, range_succ, flatMap_append]
    congr 1
    · apply flatMap_congr
      intro k hk
      have hlt := mem_range.mp hk
      have hget : (counts ++ [n]).getD k 0 = counts.getD k 0 := by
        rw [getD_eq_getElem?_getD, getElem?_append_left hlt, getD_eq_getElem?_getD]
      rw [take_append_of_le_length (le_of_lt hlt), hget]
    · simp

theorem flatMap_range_take :
    ((range counts.length).flatMap fun k =>
        (range (counts.getD k 0)).map fun j => (counts.take k).sum + j) = range counts.sum := by
  rw [← zipWith_blockIndex (fun _ p => p) counts]
  apply ext_getElem?
  intro i
  have hlen := length_blockIndex counts
  by_cases hi : i < counts.sum <;> simp [hlen, hi]

/-! ## Consecutive ranges -/

/-- Ranges that are not empty and follow one another from one position to another. -/
def Consecutive (a b : Nat) : List (Nat × Nat) → Prop
  | [] => a = b
  | r :: rs => r.1 = a ∧ a < r.2 ∧ Consecutive r.2 b rs

theorem consecutive_append {a c : Nat} {l m : List (Nat × Nat)} :
    Consecutive a c (l ++ m) ↔ ∃ b, Consecutive a b l ∧ Consecutive b c m := by
  induction l generalizing a with
  | nil => simp [Consecutive]
  | cons r l ih =>
    simp only [cons_append, Consecutive, ih]
    constructor
    · rintro ⟨hstart, hlt, b, hl, hm⟩
      exact ⟨b, ⟨hstart, hlt, hl⟩, hm⟩
    · rintro ⟨b, ⟨hstart, hlt, hl⟩, hm⟩
      exact ⟨hstart, hlt, b, hl, hm⟩

variable {a b : Nat} {l : List (Nat × Nat)}

theorem Consecutive.le (h : Consecutive a b l) : a ≤ b := by
  induction l generalizing a with
  | nil => exact le_of_eq h
  | cons r l ih => exact le_trans (le_of_lt h.2.1) (ih h.2.2)

/-- Every range lies between the ends. -/
theorem Consecutive.bounds (h : Consecutive a b l) {r : Nat × Nat} (hr : r ∈ l) :
    a ≤ r.1 ∧ r.1 < r.2 ∧ r.2 ≤ b := by
  induction l generalizing a with
  | nil => simp at hr
  | cons r' l ih =>
    obtain ⟨hstart, hlt, hrest⟩ := h
    rcases mem_cons.mp hr with rfl | hr
    · exact ⟨le_of_eq hstart.symm, hstart ▸ hlt, hrest.le⟩
    · obtain ⟨hle, hbounds⟩ := ih hrest hr
      exact ⟨by omega, hbounds⟩

theorem Consecutive.sorted (h : Consecutive a b l) : l.Pairwise fun r r' => r.1 < r'.1 := by
  induction l generalizing a with
  | nil => exact List.Pairwise.nil
  | cons r l ih =>
    obtain ⟨hstart, hlt, hrest⟩ := h
    refine List.Pairwise.cons ?_ (ih hrest)
    intro r' hr'
    have hle := (hrest.bounds hr').1
    omega

theorem Consecutive.start_eq (h : Consecutive a b l) :
    (∀ g r, l[g]? = some r → r.1 = a + ((l.map fun r => r.2 - r.1).take g).sum) ∧
      b = a + (l.map fun r => r.2 - r.1).sum := by
  induction l generalizing a with
  | nil => exact ⟨by simp, by simpa using h.symm⟩
  | cons r l ih =>
    obtain ⟨hstart, hlt, hrest⟩ := h
    obtain ⟨hstarts, hstop⟩ := ih hrest
    constructor
    · intro g r' hr'
      cases g with
      | zero =>
        have heq : r = r' := by simpa using hr'
        simp [← heq, hstart]
      | succ g =>
        have hg := hstarts g r' (by simpa using hr')
        simp only [map_cons, take_succ_cons, sum_cons]
        omega
    · simp only [map_cons, sum_cons]
      omega

end Vectors
