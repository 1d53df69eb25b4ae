import ArcticPlatform.Packing.Windows
import Mathlib

/-!
# Packing: boundaries from position ids

The boundaries of the rows of a call are read back out of its position ids, where a
position 0 starts a segment.  Packing copies the position ids of the rows, so that this
finds the rows if every row counts its positions from 0.

Main results:

- Theorem `segmentLengths_eq`: the segments of rows that count from 0.
- Theorem `cuSeqlens_recover`: the boundaries from the position ids of a packed,
  padded, split and gathered call.
-/

namespace ArcticPlatform.Packing

open Results Tensors List

/-! ## Reading boundaries -/

/-- `flat[:-1][(flat == 0)[1:]] + 1`. -/
def restarts (flat : List Int) : List Int :=
  ((flat.dropLast.zip flat.tail).filter fun p => decide (p.2 = 0)).map fun p => p.1 + 1

/-- `segment_lengths` of `cu_seqlens_from_position_ids`; the first entry is a position. -/
def segmentLengths (flat : List Int) : List Int :=
  flat.take 1 ++ restarts flat ++ (flat.getLast?.map (· + 1)).toList

section

variable {α ω : Type} [Scalar α]

/-- `cu_seqlens_from_position_ids`, for positions that are whole numbers. -/
def cuSeqlensFromPositionIds (positionIds : Tensor α) : Except Error (List Int) :=
  if positionIds.ndim < 1 then .error .positionIds
  else do
    let flat ← if positionIds.ndim = 3 then
        match positionIds.items.head? with
        | some item => .ok item
        | none => .error (.tensor .indexOutOfRange)
      else .ok positionIds.data
    if flat.length = 0 then .ok [0] else .ok (cumsum (segmentLengths (flat.map Scalar.toInt)))

/-- Every row counts its positions from 0. -/
def CountsFromZero (positionIds : Tensor α) (sequenceLength : Nat) (lengths : List Nat) : Prop :=
  ∀ r s, s < lengths.getD r 0 →
    (tokenValue positionIds sequenceLength (r * sequenceLength + s)).map Scalar.toInt = [(s : Int)]

/-- Boundaries that are those of the packed rows, and then of pad tokens one by one. -/
structure Recovers (boundaries : List Int) (metadata : PackMetadata) : Prop where
  rows : boundaries.take (metadata.batchSize + 1) = metadata.cuSeqlens
  segment : ∀ (i : Nat) (start stop : Int), boundaries[i]? = some start →
    boundaries[i + 1]? = some stop →
    (∃ row < metadata.batchSize, metadata.cuSeqlens[row]? = some start ∧
      metadata.cuSeqlens[row + 1]? = some stop) ∨
    metadata.validLengths.sum ≤ start ∧ stop = start + 1

end

/-! ## Segments of rows -/

/-- The segment lengths after a position, each by its last position. -/
def runs (position : Int) : List Int → List Int
  | [] => [position + 1]
  | next :: flat => if next = 0 then (position + 1) :: runs next flat else runs next flat

theorem segmentLengths_cons (position : Int) (flat : List Int) :
    segmentLengths (position :: flat) = position :: runs position flat := by
  have hruns : restarts (position :: flat) ++
      ((position :: flat).getLast?.map (· + 1)).toList = runs position flat := by
    induction flat generalizing position with
    | nil => rfl
    | cons next flat ih =>
      rw [runs, ← ih next]
      by_cases hnext : next = 0
      · simp [restarts, hnext]
      · simp [restarts, hnext]
  rw [segmentLengths, append_assoc, hruns]
  rfl

/-- Positions that count on stay in the segment. -/
theorem runs_count (position : Nat) (m : Nat) (flat : List Int) :
    runs position ((range m).map (fun k => ((position + 1 + k : Nat) : Int)) ++ flat) =
      runs ((position + m : Nat) : Int) flat := by
  induction m generalizing position with
  | zero => rfl
  | succ m ih =>
    have hstep := ih (position + 1)
    rw [range_succ_eq_map, map_cons, cons_append, runs, if_neg (by omega), map_map]
    simp only [Function.comp_def, add_zero, Nat.succ_eq_add_one]
    rw [← show position + 1 + m = position + (m + 1) by omega, ← hstep]
    congr 3
    funext k
    congr 1
    omega

theorem arange_succ (m : Nat) :
    arange (m + 1) = 0 :: (range m).map fun k => ((0 + 1 + k : Nat) : Int) := by
  rw [arange, range_succ_eq_map, map_cons, map_map]
  congr 1
  apply map_congr_left
  intro k _
  rw [Function.comp_apply, zero_add, add_comm]
  rfl

variable {lengths : List Nat}

/-- The rows after a position, with at least one token each, are segments. -/
theorem runs_rows (position : Nat) (hrows : ∀ n ∈ lengths, 1 ≤ n) :
    runs position (lengths.flatMap arange) = ((position : Int) + 1) :: lengths.map Int.ofNat := by
  induction lengths generalizing position with
  | nil => rfl
  | cons n lengths ih =>
    obtain ⟨m, rfl⟩ : ∃ m, n = m + 1 := ⟨n - 1, (Nat.sub_add_cancel (hrows n mem_cons_self)).symm⟩
    have hrest := ih (0 + m) fun k hk => hrows k (mem_cons_of_mem _ hk)
    have hcount := runs_count 0 m (lengths.flatMap arange)
    rw [Nat.cast_zero] at hcount
    rw [flatMap_cons, arange_succ, cons_append, runs, if_pos rfl, hcount, hrest, zero_add]
    rfl

/-- The segments of rows that count from 0, with at least one token each. -/
theorem segmentLengths_eq (hrows : ∀ n ∈ lengths, 1 ≤ n) (hne : lengths ≠ []) :
    segmentLengths (lengths.flatMap arange) = 0 :: lengths.map Int.ofNat := by
  obtain ⟨n, rest, rfl⟩ := exists_cons_of_ne_nil hne
  obtain ⟨m, rfl⟩ : ∃ m, n = m + 1 := ⟨n - 1, (Nat.sub_add_cancel (hrows n mem_cons_self)).symm⟩
  have hcount := runs_count 0 m (rest.flatMap arange)
  rw [Nat.cast_zero] at hcount
  rw [flatMap_cons, arange_succ, cons_append, segmentLengths_cons, hcount,
    runs_rows _ fun k hk => hrows k (mem_cons_of_mem _ hk), zero_add]
  rfl

theorem cumsum_segmentLengths (hrows : ∀ n ∈ lengths, 1 ≤ n) :
    (if (lengths.flatMap arange).length = 0 then [0]
      else cumsum (segmentLengths (lengths.flatMap arange))) = boundaries lengths := by
  cases lengths with
  | nil => rfl
  | cons n rest =>
    have hlength : (((n :: rest).flatMap arange).length ≠ 0) := by
      have := hrows n mem_cons_self
      rw [flatMap_cons, length_append, arange, length_map, length_range]
      omega
    rw [if_neg hlength, segmentLengths_eq hrows (cons_ne_nil _ _)]
    rfl

/-! ## Pad tokens are rows of one token -/

theorem recovers_boundaries {metadata : PackMetadata} {padded : Nat}
    (h : RecordsRows metadata lengths padded) (pads : Nat) :
    Recovers (boundaries (lengths ++ replicate pads 1)) metadata := by
  have hpre : ∀ row ≤ lengths.length,
      (boundaries (lengths ++ replicate pads 1))[row]? = (boundaries lengths)[row]? := by
    intro row hrow
    rw [boundaries_getElem? (by rw [length_append]; omega), boundaries_getElem? hrow,
      take_append_of_le_length hrow]
  constructor
  · rw [h.batchSize, h.cuSeqlens]
    apply ext_getElem?
    intro row
    rw [getElem?_take]
    split_ifs with hrow
    · exact hpre row (by omega)
    · rw [List.getElem?_eq_none_iff.mpr (by rw [length_boundaries]; omega)]
  · intro i start stop hstart hstop
    have hlt := (List.getElem?_eq_some_iff.mp hstop).1
    rw [length_boundaries, length_append, length_replicate] at hlt
    by_cases hi : i < lengths.length
    · left
      rw [h.batchSize, h.cuSeqlens]
      exact ⟨i, hi, by rw [← hpre i hi.le]; exact hstart, by rw [← hpre (i + 1) hi]; exact hstop⟩
    · right
      have htake : ∀ k, lengths.length ≤ k → k ≤ lengths.length + pads →
          (((lengths ++ replicate pads 1).take k).sum : Int) =
            lengths.sum + (k - lengths.length) := by
        intro k hk hk'
        rw [take_append, take_of_length_le hk, sum_append, take_replicate, sum_replicate]
        push_cast
        rw [min_eq_left (by omega)]
        simp
        omega
      rw [boundaries_getElem? (by simp; omega), Option.some.injEq, htake i (by omega) (by omega)]
        at hstart
      rw [boundaries_getElem? (by simp; omega), Option.some.injEq,
        htake (i + 1) (by omega) (by omega)] at hstop
      rw [h.validLengths, sum_ofNat, ← hstart, ← hstop]
      push_cast
      omega

/-! ## Packed, split and gathered -/

section Calls

variable {α ω : Type} [Scalar α] {data : Batch α ω} {mask positionIds : Tensor α}
  {sequenceLength : Nat} {lengths : List Nat}

theorem CountsFromZero.packed {t : Tensor α} (h : CountsFromZero t sequenceLength lengths) :
    ((tokenIndex lengths sequenceLength).flatMap fun j =>
      (tokenValue t sequenceLength j).map Scalar.toInt) = lengths.flatMap arange := by
  rw [tokenIndex, flatMap_assoc]
  conv_rhs => rw [← zipIdx_map_fst 0 lengths, flatMap_map]
  apply flatMap_congr
  intro p hp
  have hget := mem_zipIdx_iff_getElem?.mp hp
  rw [flatMap_map, arange, map_eq_flatMap]
  apply flatMap_congr
  intro s hs
  exact h p.2 s (by rw [getD_eq_getElem?_getD, hget]; exact mem_range.mp hs)

theorem cuSeqlens_of_tokens {t t' : Tensor α} {pads width : Nat} {zero : α}
    (hcounts : CountsFromZero t sequenceLength lengths) (hzero : Scalar.toInt zero = 0)
    (hrows : ∀ n ∈ lengths, 1 ≤ n) (hshape : t'.shape = [1, width])
    (htokens : t'.tokens = (tokenIndex lengths sequenceLength).map (tokenValue t sequenceLength) ++
      replicate pads [zero]) :
    cuSeqlensFromPositionIds t' = .ok (boundaries (lengths ++ replicate pads 1)) := by
  have hflat : t'.data.map Scalar.toInt = (lengths ++ replicate pads 1).flatMap arange := by
    rw [← t'.flatten_tokens, htokens, flatten_append, map_append, flatMap_append,
      ← hcounts.packed, List.flatMap_replicate, ← flatMap_def, map_flatMap]
    congr 1
    rw [map_flatten, map_replicate, map_singleton, hzero]
    rfl
  have hones : ∀ n ∈ lengths ++ replicate pads 1, 1 ≤ n := by
    intro n hn
    rcases mem_append.mp hn with hrow | hpad
    · exact hrows n hrow
    · exact (eq_of_mem_replicate hpad).ge
  have hndim : t'.ndim = 2 := by rw [Tensor.ndim, hshape]; rfl
  rw [cuSeqlensFromPositionIds, if_neg (by omega), if_neg (by omega), bind_ok,
    ← cumsum_segmentLengths hones, ← hflat, length_map]
  exact (apply_ite Except.ok _ _ _).symm

/-- The boundaries from the position ids of a packed and padded call are those of the rows, and so
they are after the call is split into shards whose position ids are gathered again. -/
theorem cuSeqlens_recover (hzero : Scalar.toInt (Scalar.ofInt 0 : α) = 0)
    (hmask : batchTensor data "attention_mask" 2 = some mask)
    (haligned : LeftAligned mask sequenceLength lengths)
    (hpositions : batchPositionIds data = some positionIds)
    (hshape : positionIds.shape = [lengths.length, sequenceLength])
    (hrows : ∀ n ∈ lengths, 1 ≤ n) {multiple : Int} (hmultiple : 0 < multiple) :
    ∃ packed metadata call metadata', packMicrobatch data = .ok (packed, metadata) ∧
      padPackedMicrobatch packed metadata multiple = .ok (call, metadata') ∧
      ∀ front t, leafAt (front ++ ["position_ids"]) data = some (.tensor t) →
        t.shape = [lengths.length, sequenceLength] → CountsFromZero t sequenceLength lengths →
        ∃ t' cuSeqlens, leafAt (front ++ ["position_ids"]) call = some (.tensor t') ∧
          cuSeqlensFromPositionIds t' = .ok cuSeqlens ∧ Recovers cuSeqlens metadata ∧
          ∀ n : Nat, 0 < n → (n : Int) ∣ metadata'.paddedTokens →
            ∃ (shard : Nat → Batch α ω) (window : Nat → Tensor α) (gathered : Tensor α),
              (∀ k < n, tokenShard call metadata' n k = .ok (shard k) ∧
                leafAt (front ++ ["position_ids"]) (shard k) = some (.tensor (window k))) ∧
              Tensor.catTokens ((range n).map window) = .ok gathered ∧
              cuSeqlensFromPositionIds gathered = .ok cuSeqlens := by
  obtain ⟨packed, hpacked⟩ := mapBatchValues_isOk
    (fun key x _ => packedValue_isOk haligned.le key x) data
    (allLeaves_true (fun _ _ => trivial) data)
  have hpack := packMicrobatch_eq hmask haligned hpositions hshape
  rw [hpacked, bind_ok] at hpack
  obtain ⟨call, hpad, -, hcall⟩ := padPackedMicrobatch_eq packed lengths sequenceLength hmultiple
  refine ⟨packed, _, call, _, hpack, hpad, ?_⟩
  intro front t hleaf ht hcounts
  obtain ⟨t₁, ht₁, hshape₁, htokens₁⟩ := packedValue_eq (ω := ω) haligned.le
    (show IsPerToken "position_ids" _ _ _ _ from ⟨by decide, .inl ht⟩)
  obtain ⟨t', hleaf', hshape', htokens'⟩ := hcall front "position_ids" t₁
    (leafAt_map hpacked hleaf ht₁) [] hshape₁
  rw [htokens₁] at htokens'
  have hcuSeqlens := cuSeqlens_of_tokens hcounts hzero hrows hshape' htokens'
  refine ⟨t', _, hleaf', hcuSeqlens, recovers_boundaries ⟨rfl, rfl, rfl, rfl, le_rfl, ?_⟩ _, ?_⟩
  · rintro rfl
    rfl
  · intro n hn hdvd
    obtain ⟨w, shard, -, hw, hshard, -, hleaves, -⟩ :=
      shards_cover_call ⟨data, packed, _, multiple, hpack, hpad⟩ hn hdvd
    have hwidth : paddedWidth lengths.sum multiple.toNat = n * w := by
      have hpadded : ((paddedWidth lengths.sum multiple.toNat : Nat) : Int) = n * w := hw
      exact_mod_cast hpadded
    obtain ⟨window, hwindow, hcat, -⟩ :=
      hleaves front "position_ids" t' 1 [] hleaf' (by rw [hshape', hwidth])
    exact ⟨shard, window, t', fun k hk => ⟨hshard k hk, hwindow k hk⟩, hcat, hcuSeqlens⟩

end Calls

/-- A row of two values. -/
def rowOfTwo (a b : Int) : Tensor Int := ⟨[1, 2], [a, b], rfl⟩

/-- A row of two tokens at the positions 5 and 6. -/
def shiftedBatch : Batch Int Unit :=
  [("attention_mask", .leaf (.tensor (rowOfTwo 1 1))),
    ("position_ids", .leaf (.tensor (rowOfTwo 5 6)))]

/-- Packing keeps positions that do not count from 0, and the boundaries from them are not those
that it records. -/
theorem cuSeqlens_shifted :
    ∃ packed metadata t, packMicrobatch shiftedBatch = .ok (packed, metadata) ∧
      padPackedMicrobatch packed metadata 1 = .ok (packed, metadata) ∧
      (∀ n ∈ metadata.validLengths, 1 ≤ n) ∧
      leafAt ["position_ids"] packed = some (.tensor t) ∧
      cuSeqlensFromPositionIds t = .ok [5, 12] ∧ metadata.cuSeqlens = [0, 2] :=
  ⟨_, metadataOf [2] 2, rowOfTwo 5 6, rfl, rfl, by decide, rfl, by decide, rfl⟩

/-- Two rows with three tokens and one, padded to six tokens and split into three shards. -/
theorem cuSeqlens_recover_twoRows :
    ∃ packed metadata call metadata' t' cuSeqlens,
      packMicrobatch twoRowBatch = .ok (packed, metadata) ∧
      padPackedMicrobatch packed metadata 3 = .ok (call, metadata') ∧
      leafAt ["position_ids"] call = some (.tensor t') ∧
      cuSeqlensFromPositionIds t' = .ok cuSeqlens ∧ Recovers cuSeqlens metadata ∧
      ∃ (shard : Nat → Batch Int Unit) (window : Nat → Tensor Int) (gathered : Tensor Int),
        (∀ k : Nat, k < 3 → tokenShard call metadata' (3 : Nat) k = .ok (shard k) ∧
          leafAt ["position_ids"] (shard k) = some (.tensor (window k))) ∧
        Tensor.catTokens ((range 3).map window) = .ok gathered ∧
        cuSeqlensFromPositionIds gathered = .ok cuSeqlens := by
  have haligned : LeftAligned (⟨[2, 3], [1, 1, 1, 1, 0, 0], rfl⟩ : Tensor Int) 3 [3, 1] :=
    ⟨rfl, by decide, .cons rfl (.cons rfl .nil), .cons rfl (.cons rfl .nil)⟩
  have hcounts : CountsFromZero (⟨[2, 3], [0, 1, 2, 0, 0, 0], rfl⟩ : Tensor Int) 3 [3, 1] := by
    intro r s hs
    match r, s, hs with
    | 0, 0, _ => rfl
    | 0, 1, _ => rfl
    | 0, 2, _ => rfl
    | 1, 0, _ => rfl
  have hmask : batchTensor twoRowBatch "attention_mask" 2 =
      some ⟨[2, 3], [1, 1, 1, 1, 0, 0], rfl⟩ := rfl
  have hpositions : batchPositionIds twoRowBatch = some ⟨[2, 3], [0, 1, 2, 0, 0, 0], rfl⟩ := rfl
  obtain ⟨packed, metadata, call, metadata', hpack, hpad, hread⟩ :=
    cuSeqlens_recover rfl hmask haligned hpositions rfl (by decide) (by decide : (0 : Int) < 3)
  obtain ⟨t', cuSeqlens, hleaf, hvalue, hrecovers, hshards⟩ :=
    hread [] ⟨[2, 3], [0, 1, 2, 0, 0, 0], rfl⟩ rfl rfl hcounts
  obtain ⟨_, hpacked⟩ : ∃ p, packMicrobatch twoRowBatch = .ok (p, metadataOf [3, 1] 3) := ⟨_, rfl⟩
  obtain rfl : metadata = metadataOf [3, 1] 3 := by
    rw [hpacked] at hpack
    cases hpack
    rfl
  obtain ⟨_, hpadded, -⟩ := padPackedMicrobatch_eq packed [3, 1] 3 (by decide : (0 : Int) < 3)
  obtain rfl : metadata' = paddedMetadata [3, 1] 3 3 := by
    rw [hpadded] at hpad
    cases hpad
    rfl
  exact ⟨packed, _, call, _, t', cuSeqlens, hpack, hpad, hleaf, hvalue, hrecovers,
    hshards 3 (by decide) (by decide)⟩

end ArcticPlatform.Packing
