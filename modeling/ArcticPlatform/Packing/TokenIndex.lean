import ArcticPlatform.Packing.Model

/-!
# Packing: the token index

`packed_token_index` gives, for every token of a packed call, its place in the
flattened batch.

Main results:

- Theorem `packedTokenIndex_eq`: the index lists the leading places of every row.
- Theorem `mem_tokenIndex`: a place is in the index if its position is valid in
  its row.
-/

namespace ArcticPlatform.Packing

open Results Tensors List

/-- The places of the valid tokens in the flattened batch, row by row. -/
def tokenIndex (lengths : List Nat) (sequenceLength : Nat) : List Nat :=
  lengths.zipIdx.flatMap fun p => (range p.1).map (p.2 * sequenceLength + ·)

/-- The boundaries of the rows in the packed call. -/
def boundaries (lengths : List Nat) : List Int := 0 :: cumsum (lengths.map Int.ofNat)

variable (lengths : List Nat)

theorem length_tokenIndex (sequenceLength : Nat) :
    (tokenIndex lengths sequenceLength).length = lengths.sum := by
  rw [tokenIndex, length_flatMap]
  simp only [length_map, length_range]
  rw [zipIdx_map_fst]

theorem cumsumFrom_dropLast (b : Int) (l : List Int) :
    (b :: cumsumFrom b l).dropLast = zipWith (· - ·) (cumsumFrom b l) l := by
  induction l generalizing b with
  | nil => rfl
  | cons x l ih =>
    rw [cumsumFrom, dropLast_cons_cons, ih, zipWith_cons_cons, add_sub_cancel_right]

theorem sum_ofNat : (lengths.map Int.ofNat).sum = lengths.sum := by
  induction lengths with
  | nil => rfl
  | cons n lengths ih =>
    rw [map_cons, sum_cons, ih, sum_cons]
    push_cast
    rfl

/-- The index lists the leading places of every row. -/
theorem packedTokenIndex_eq (sequenceLength : Nat) :
    packedTokenIndex (lengths.map Int.ofNat) (boundaries lengths) sequenceLength =
      .ok ((tokenIndex lengths sequenceLength).map Int.ofNat) := by
  have hlengths : lengths.map Int.ofNat = lengths.zipIdx.map fun p => Int.ofNat p.1 := by
    conv_lhs => rw [← zipIdx_map_fst 0 lengths]
    rw [map_map]
    rfl
  have hrows : arange (lengths.map Int.ofNat).length = lengths.zipIdx.map fun p => Int.ofNat p.2 := by
    rw [length_map, arange, range_eq_range', ← zipIdx_map_snd, map_map]
    rfl
  have hnonneg : ∀ p ∈ lengths.zipIdx, 0 ≤ Int.ofNat p.1 := fun p _ => Int.natCast_nonneg _
  have hstarts : repeatInterleave (boundaries lengths).dropLast (lengths.map Int.ofNat) =
      .ok (groupStarts 0 lengths) := by
    have hany : (lengths.map Int.ofNat).any (· < 0) = false := by simp
    have hall : ∀ n ∈ lengths.map Int.ofNat, 0 ≤ n := by simp
    rw [repeatInterleave, hany, if_neg Bool.false_ne_true, boundaries, cumsum, cumsumFrom_dropLast,
      groupStarts_eq _ _ hall, map_map]
    simp [Function.comp_def]
  have hwithin : zipWith (· - ·) (arange (lengths.map Int.ofNat).sum.toNat)
      (groupStarts 0 lengths) = lengths.flatMap arange := by
    have := groupOffsets_eq lengths 0
    rw [Nat.cast_zero] at this
    rw [sum_ofNat, Int.toNat_natCast, arange, range_eq_range', this]
  have hrowIds : repeatInterleave (arange (lengths.map Int.ofNat).length) (lengths.map Int.ofNat) =
      .ok (lengths.zipIdx.flatMap fun p => replicate p.1 (Int.ofNat p.2)) := by
    rw [hrows, hlengths, repeatInterleave_map hnonneg]
    rfl
  rw [packedTokenIndex, hrowIds, bind_ok, hstarts, bind_ok, hwithin]
  dsimp only
  -- Every row contributes its start and the offsets inside it.
  have hindex := groupIndex_eq lengths.zipIdx (fun p => Int.ofNat p.2 * sequenceLength)
    (fun p => Int.ofNat p.1) hnonneg
  simp only [Int.ofNat_eq_natCast, Int.toNat_natCast, zipIdx_map_fst] at hindex
  have hscale : (lengths.zipIdx.flatMap fun p => replicate p.1 ((p.2 : Int) * sequenceLength)) =
      (lengths.zipIdx.flatMap fun p => replicate p.1 (Int.ofNat p.2)).map
        (· * (sequenceLength : Int)) := by
    simp only [map_flatMap, map_replicate, Int.ofNat_eq_natCast]
  rw [hscale, zipWith_map_left] at hindex
  rw [hindex, tokenIndex, map_flatMap]
  congr 1
  apply flatMap_congr
  intro p _
  simp [arange, Function.comp_def]

/-- A place is in the index if its position is valid in its row. -/
theorem mem_tokenIndex {lengths : List Nat} {sequenceLength : Nat}
    (hle : ∀ n ∈ lengths, n ≤ sequenceLength) {r s : Nat} (hs : s < sequenceLength) :
    r * sequenceLength + s ∈ tokenIndex lengths sequenceLength ↔ s < lengths.getD r 0 := by
  rw [tokenIndex, mem_flatMap, getD_eq_getElem?_getD]
  constructor
  · rintro ⟨p, hp, hmem⟩
    obtain ⟨k, hk, heq⟩ := mem_map.mp hmem
    have hk := mem_range.mp hk
    have hget := mem_zipIdx_iff_getElem?.mp hp
    have hn := hle p.1 (mem_of_getElem? hget)
    have hrow : p.2 = r := by
      have hdiv : (p.2 * sequenceLength + k) / sequenceLength =
          (r * sequenceLength + s) / sequenceLength := by rw [heq]
      have hpos : 0 < sequenceLength := by omega
      rw [add_comm, Nat.add_mul_div_right _ _ hpos, Nat.div_eq_of_lt (by omega), add_comm,
        add_comm (r * sequenceLength), Nat.add_mul_div_right _ _ hpos, Nat.div_eq_of_lt hs] at hdiv
      omega
    subst hrow
    rw [hget]
    simp only [Option.getD_some]
    omega
  · intro hlt
    cases hget : lengths[r]? with
    | none =>
      rw [hget] at hlt
      exact absurd hlt (Nat.not_lt_zero s)
    | some n =>
      rw [hget] at hlt
      exact ⟨(n, r), mem_zipIdx_iff_getElem?.mpr hget, mem_map.mpr ⟨s, mem_range.mpr hlt, rfl⟩⟩

theorem tokenIndex_lt {lengths : List Nat} {sequenceLength : Nat}
    (hle : ∀ n ∈ lengths, n ≤ sequenceLength) {j : Nat} (hj : j ∈ tokenIndex lengths sequenceLength) :
    j < lengths.length * sequenceLength := by
  obtain ⟨p, hp, hmem⟩ := mem_flatMap.mp hj
  obtain ⟨k, hk, rfl⟩ := mem_map.mp hmem
  have hk := mem_range.mp hk
  have hget := mem_zipIdx_iff_getElem?.mp hp
  obtain ⟨hlt, -⟩ := List.getElem?_eq_some_iff.mp hget
  have hn := hle p.1 (mem_of_getElem? hget)
  have := Nat.mul_le_mul_right sequenceLength (Nat.succ_le_of_lt hlt)
  rw [Nat.succ_mul] at this
  omega

end ArcticPlatform.Packing
