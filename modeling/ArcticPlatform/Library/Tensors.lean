import ArcticPlatform.Library.Results
import ArcticPlatform.Library.Slices

/-!
# One-dimensional tensors

Indexing and rearranging one-dimensional tensors, as lists, with the errors that
these operations raise.

Main results:

- Theorem `indexSelect_eq_ok`: what an index selection returns.
- Theorems `groupOffsets_eq` and `groupIndex_eq`: places inside the groups of
  a repeated tensor.
- Theorem `slice_searchsorted`: a slice between two bounds of a sorted tensor.
-/

namespace Tensors

open Results Slices List

universe u

/-- What the operations raise. -/
inductive TensorError where
  | indexOutOfRange
  | negativeRepeats
  | shapeMismatch
  deriving DecidableEq

variable {α β ι : Type u}

/-! ## Operations -/

/-- `xs.index_select(0, index)` at one index. -/
def select (xs : List α) (i : Int) : Except TensorError α :=
  if 0 ≤ i then
    match xs[i.toNat]? with
    | some x => .ok x
    | none => .error .indexOutOfRange
  else .error .indexOutOfRange

/-- `xs.index_select(0, index)`. -/
def indexSelect (xs : List α) (index : List Int) : Except TensorError (List α) :=
  index.mapM (select xs)

/-- `xs[mask]`. -/
def maskSelect (xs : List α) (mask : List Bool) : List α :=
  ((xs.zip mask).filter (·.2)).map (·.1)

/-- `repeat_interleave(xs, repeats)`. -/
def repeatInterleave (xs : List α) (repeats : List Int) : Except TensorError (List α) :=
  if repeats.any (· < 0) then .error .negativeRepeats
  else .ok ((xs.zip repeats).flatMap fun p => replicate p.2.toNat p.1)

/-- Running sums that start at a value. -/
def cumsumFrom : Int → List Int → List Int
  | _, [] => []
  | acc, x :: xs => (acc + x) :: cumsumFrom (acc + x) xs

/-- `xs.cumsum(0)`. -/
def cumsum (xs : List Int) : List Int := cumsumFrom 0 xs

/-- `arange(n)`. -/
def arange (n : Nat) : List Int := (range n).map Int.ofNat

/-- `searchsorted(xs, v, right=False)` of a sorted tensor. -/
def searchsorted (xs : List Int) (v : Int) : Nat := (xs.takeWhile (· < v)).length

/-! ## Selections -/

theorem select_eq_ok {xs : List α} {i : Int} {x : α} :
    select xs i = .ok x ↔ 0 ≤ i ∧ xs[i.toNat]? = some x := by
  unfold select
  split_ifs with hi
  · cases h : xs[i.toNat]? with
    | none => simp
    | some y => simp [hi]
  · simp [hi]

variable {xs ys : List α}

/-- A selection has the elements at the indices. -/
theorem indexSelect_eq_ok {index : List Int} :
    indexSelect xs index = .ok ys ↔
      Forall₂ (fun i y => 0 ≤ i ∧ xs[i.toNat]? = some y) index ys := by
  rw [indexSelect, mapM_eq_ok]
  simp only [select_eq_ok]

variable {items : List ι}

theorem indexSelect_map {g : ι → Int} (d : α) (h : indexSelect xs (items.map g) = .ok ys) :
    ys = items.map (fun it => xs.getD (g it).toNat d) ∧
      ∀ it ∈ items, 0 ≤ g it ∧ (g it).toNat < xs.length := by
  rw [indexSelect_eq_ok] at h
  induction items generalizing ys with
  | nil =>
    cases h
    exact ⟨rfl, by simp⟩
  | cons it items ih =>
    rw [map_cons] at h
    cases h with
    | cons hx htail =>
      obtain ⟨htail, hall⟩ := ih htail
      obtain ⟨hlt, -⟩ := List.getElem?_eq_some_iff.mp hx.2
      refine ⟨?_, ?_⟩
      · rw [map_cons, ← htail, getD_eq_getElem?_getD, hx.2]
        rfl
      · intro x hx'
        rcases mem_cons.mp hx' with rfl | hx'
        · exact ⟨hx.1, hlt⟩
        · exact hall x hx'

theorem indexSelect_ok {xs : List α} {g : ι → Int} (d : α)
    (h : ∀ it ∈ items, 0 ≤ g it ∧ (g it).toNat < xs.length) :
    indexSelect xs (items.map g) = .ok (items.map fun it => xs.getD (g it).toNat d) := by
  rw [indexSelect_eq_ok, forall₂_map_left_iff, forall₂_map_right_iff, forall₂_same]
  intro it hit
  obtain ⟨hnonneg, hlt⟩ := h it hit
  refine ⟨hnonneg, ?_⟩
  rw [getD_eq_getElem?_getD, getElem?_eq_getElem hlt]
  rfl

theorem maskSelect_map (f : ι → α) (b : ι → Bool) (items : List ι) :
    maskSelect (items.map f) (items.map b) = (items.filter b).map f := by
  rw [maskSelect, zip_map', filter_map, map_map]
  rfl

theorem maskSelect_append {bs cs : List Bool} (h : xs.length = bs.length) :
    maskSelect (xs ++ ys) (bs ++ cs) = maskSelect xs bs ++ maskSelect ys cs := by
  rw [maskSelect, zip_append h, filter_append, map_append]
  rfl

theorem maskSelect_replicate (xs : List α) (b : Bool) :
    maskSelect xs (replicate xs.length b) = if b then xs else [] := by
  induction xs with
  | nil => cases b <;> rfl
  | cons x xs ih =>
    cases b with
    | true =>
      rw [length_cons, replicate_succ]
      simp only [maskSelect, zip_cons_cons, filter_cons_of_pos, map_cons] at ih ⊢
      rw [ih]
      rfl
    | false =>
      rw [length_cons, replicate_succ]
      simp only [maskSelect, zip_cons_cons] at ih ⊢
      rw [filter_cons_of_neg (by simp)]
      exact ih

theorem maskSelect_flatMap (g : ι → List α) (b : ι → Bool) (items : List ι) :
    maskSelect (items.flatMap g) (items.flatMap fun it => replicate (g it).length (b it)) =
      (items.filter b).flatMap g := by
  induction items with
  | nil => rfl
  | cons it items ih =>
    rw [flatMap_cons, flatMap_cons, maskSelect_append (by simp), maskSelect_replicate, ih]
    cases hb : b it with
    | true => simp [hb]
    | false => simp [hb]

/-! ## Groups -/

theorem repeatInterleave_map {f : ι → α} {n : ι → Int} (hn : ∀ it ∈ items, 0 ≤ n it) :
    repeatInterleave (items.map f) (items.map n) =
      .ok (items.flatMap fun it => replicate (n it).toNat (f it)) := by
  have hany : (items.map n).any (· < 0) = false := by
    rw [any_eq_false]
    intro k hk
    obtain ⟨it, hit, rfl⟩ := mem_map.mp hk
    have := hn it hit
    simpa using this
  rw [repeatInterleave, hany, zip_map', flatMap_map]
  rfl

theorem repeatInterleave_isOk {repeats : List Int} (h : repeatInterleave xs repeats = .ok ys) :
    ∀ n ∈ repeats, 0 ≤ n := by
  unfold repeatInterleave at h
  split_ifs at h with hany
  intro n hn
  by_contra hneg
  apply hany
  rw [any_eq_true]
  exact ⟨n, hn, by simpa using hneg⟩

/-- The starts of groups, repeated over the groups. -/
def groupStarts (b : Int) : List Nat → List Int
  | [] => []
  | n :: ns => replicate n b ++ groupStarts (b + n) ns

theorem groupStarts_eq (lengths : List Int) (b : Int) (hlengths : ∀ n ∈ lengths, 0 ≤ n) :
    ((zipWith (· - ·) (cumsumFrom b lengths) lengths).zip lengths).flatMap
        (fun p => replicate p.2.toNat p.1) = groupStarts b (lengths.map Int.toNat) := by
  induction lengths generalizing b with
  | nil => rfl
  | cons n lengths ih =>
    have hn := hlengths n mem_cons_self
    rw [cumsumFrom, zipWith_cons_cons, zip_cons_cons, flatMap_cons,
      ih _ fun m hm => hlengths m (mem_cons_of_mem _ hm), map_cons, groupStarts,
      add_sub_cancel_right, Int.toNat_of_nonneg hn]

/-- Positions less the starts of their groups are offsets inside the groups. -/
theorem groupOffsets_eq (lengths : List Nat) (b : Nat) :
    zipWith (· - ·) ((range' b lengths.sum).map Int.ofNat) (groupStarts b lengths) =
      lengths.flatMap arange := by
  induction lengths generalizing b with
  | nil => rfl
  | cons n lengths ih =>
    have hhead : zipWith (· - ·) ((range' b n).map Int.ofNat) (replicate n (b : Int)) =
        arange n := by
      apply ext_getElem
      · simp [arange]
      · intro k h₁ h₂
        simp [arange]
    have hb : (b : Int) + (n : Int) = ((b + n : Nat) : Int) := by push_cast; rfl
    rw [sum_cons, ← range'_append_1, map_append, groupStarts,
      zipWith_append (by simp), hhead, hb, ih, flatMap_cons]

/-- Starts of groups and offsets inside the groups are consecutive places. -/
theorem groupIndex_eq (items : List ι) (start : ι → Int) (len : ι → Int)
    (hlen : ∀ it ∈ items, 0 ≤ len it) :
    zipWith (· + ·) (items.flatMap fun it => replicate (len it).toNat (start it))
        ((items.map fun it => (len it).toNat).flatMap arange) =
      items.flatMap fun it => (arange (len it).toNat).map (start it + ·) := by
  induction items with
  | nil => rfl
  | cons it items ih =>
    rw [flatMap_cons, map_cons, flatMap_cons, zipWith_append (by simp [arange]),
      ih fun x hx => hlen x (mem_cons_of_mem _ hx), flatMap_cons]
    congr 1
    apply ext_getElem
    · simp [arange]
    · intro k h₁ h₂
      simp [arange]

theorem length_flatMap_replicate (items : List ι) (n : ι → Nat) (f : ι → α) :
    (items.flatMap fun it => replicate (n it) (f it)).length = (items.map n).sum := by
  simp [length_flatMap]

/-- Consecutive elements are a slice. -/
theorem map_arange_getD {xs : List α} {d : α} {s : Int} {n : Nat}
    (h : ∀ k < n, 0 ≤ s + (k : Int) ∧ (s + (k : Int)).toNat < xs.length) :
    (arange n).map (fun k => xs.getD (s + k).toNat d) = sliceInt xs s (s + n) := by
  cases n with
  | zero =>
    rw [arange, range_zero, map_nil, map_nil, sliceInt]
    rw [eq_comm, drop_eq_nil_iff, length_take]
    simp
  | succ n =>
    have hs : 0 ≤ s := by simpa using (h 0 (Nat.succ_pos n)).1
    have hlast := (h n (Nat.lt_succ_self n)).2
    have hclip : clip xs.length (s + ((n + 1 : Nat) : Int)) = s.toNat + (n + 1) := by
      rw [clip, if_neg (by omega)]
      omega
    have hclip' : clip xs.length s = s.toNat := by
      rw [clip, if_neg (by omega)]
      omega
    rw [sliceInt, hclip, hclip']
    apply ext_getElem
    · simp only [arange, length_map, length_range, length_drop, length_take]
      omega
    · intro k h₁ h₂
      have hk : k < n + 1 := by simpa [arange] using h₁
      have hidx : (s + ((k : Nat) : Int)).toNat = s.toNat + k := by omega
      have hlt : s.toNat + k < xs.length := by
        rw [← hidx]
        exact (h k hk).2
      simp [arange, hidx, getD_eq_getElem?_getD, getElem?_eq_getElem hlt]

/-! ## Sorted tensors -/

section Sorted

variable {f : α → Int} {xs : List α}

theorem take_searchsorted (hsorted : xs.Pairwise fun a b => f a ≤ f b) (v : Int) :
    xs.take (searchsorted (xs.map f) v) = xs.filter fun x => f x < v := by
  induction xs with
  | nil => rfl
  | cons x xs ih =>
    rw [pairwise_cons] at hsorted
    have ih := ih hsorted.2
    simp only [searchsorted, map_cons] at ih ⊢
    by_cases hx : f x < v
    · rw [takeWhile_cons_of_pos (by simpa using hx), length_cons, take_succ_cons, ih,
        filter_cons_of_pos (by simpa using hx)]
    · rw [takeWhile_cons_of_neg (by simpa using hx), length_nil, take_zero, eq_comm,
        filter_eq_nil_iff]
      intro y hy
      rcases mem_cons.mp hy with rfl | hy
      · simpa using hx
      · have := hsorted.1 y hy
        simp only [decide_eq_true_eq]
        omega

theorem drop_searchsorted (hsorted : xs.Pairwise fun a b => f a ≤ f b) (v : Int) :
    xs.drop (searchsorted (xs.map f) v) = xs.filter fun x => v ≤ f x := by
  induction xs with
  | nil => rfl
  | cons x xs ih =>
    rw [pairwise_cons] at hsorted
    have ih := ih hsorted.2
    simp only [searchsorted, map_cons] at ih ⊢
    by_cases hx : f x < v
    · rw [takeWhile_cons_of_pos (by simpa using hx), length_cons, drop_succ_cons, ih,
        filter_cons_of_neg (by simpa using hx)]
    · rw [takeWhile_cons_of_neg (by simpa using hx), length_nil, drop_zero, eq_comm, filter_eq_self]
      intro y hy
      rcases mem_cons.mp hy with rfl | hy
      · simpa using hx
      · have := hsorted.1 y hy
        simp only [decide_eq_true_eq]
        omega

/-- The slice between two bounds has the elements between them. -/
theorem slice_searchsorted (hsorted : xs.Pairwise fun a b => f a ≤ f b) {a b : Int} (hab : a ≤ b) :
    slice xs (searchsorted (xs.map f) a) (searchsorted (xs.map f) b) =
      xs.filter fun x => a ≤ f x ∧ f x < b := by
  -- The elements below `a` are the same in the whole tensor and in the part below `b`.
  have hstart : searchsorted (xs.map f) a =
      searchsorted ((xs.filter fun x => f x < b).map f) a := by
    have hcount : ∀ ys : List α, (ys.Pairwise fun a b => f a ≤ f b) →
        searchsorted (ys.map f) a = (ys.filter fun x => f x < a).length := by
      intro ys hys
      rw [← take_searchsorted hys, length_take, eq_comm, min_eq_left]
      rw [searchsorted]
      exact le_trans (takeWhile_sublist _).length_le (by simp)
    rw [hcount xs hsorted, hcount _ (hsorted.sublist filter_sublist), filter_filter]
    congr 1
    apply filter_congr
    intro x _
    rw [Bool.eq_iff_iff]
    simp only [decide_eq_true_eq, Bool.and_eq_true]
    omega
  rw [slice, ← drop_take, take_searchsorted hsorted, hstart,
    drop_searchsorted (hsorted.sublist filter_sublist), filter_filter]
  apply filter_congr
  intro x _
  simp

end Sorted

end Tensors
